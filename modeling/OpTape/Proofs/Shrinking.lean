import OpTape.Proofs.CrossCheck
import OpTape.Proofs.Footprints
import OpTape.Proofs.Sourcing
/-
  Deduplicating leaves no more than dropping dead code. Merging moves needs from one usage to
  another, so dead usages may come to life; but each usage that is needed on the merged tape stands
  for copies of itself, one of which was needed before (`Tape.Merges.exists_needed`), and no copy is
  counted twice, since all of them are read from one place (`Usage.ReadFrom.unique`). A registered
  function may be needed there for results that were needed in different copies. What it then reads
  is what the copies read together, if its answers are joint ones (`Registry.JoinsAnswers`).
-/
namespace OpTape

variable {V : Type}

/-! ## Joint answers -/

/-- Every answer marks what the answers for each of the needed results alone mark together. -/
def Registry.JoinsAnswers (r : Registry V) : Prop :=
  ∀ {family id callId needed inputCount} {answer : Vector Bool inputCount},
    r.dependence family id callId needed inputCount = .ok answer → ∀ k : Nat,
      answer.toList[k]? = some true ↔ ∃ j : Nat, needed[j]? = some true ∧
        (r.marks family id callId (onlyResult needed.length j) inputCount)[k]? = some true

/-- A mark is there for one of the needed results, and so in every other answer for results with
this one among them. -/
theorem Registry.JoinsAnswers.exists_result {r : Registry V} (hr : r.JoinsAnswers)
    {family : Family} {id callId inputCount k : Nat} {needed : List Bool}
    (h : (r.marks family id callId needed inputCount)[k]? = some true) :
    ∃ j : Nat, needed[j]? = some true ∧ ∀ {needed' : List Bool} {answer : Vector Bool inputCount},
      needed'.length = needed.length → needed'[j]? = some true →
      r.dependence family id callId needed' inputCount = .ok answer →
      answer.toList[k]? = some true := by
  obtain ⟨answer, hanswer⟩ := exists_dependence h
  rw [marks_of_dependence hanswer] at h
  obtain ⟨j, hj, hsingle⟩ := (hr hanswer k).mp h
  refine ⟨j, hj, fun hlength hj' hanswer' => (hr hanswer' k).mpr ⟨j, hj', ?_⟩⟩
  rwa [hlength]

theorem getElem?_map_range' {first n j : Nat} {value : Nat → Bool} :
    ((List.range' first n).map value)[j]? = some true ↔ j < n ∧ value (first + j) = true := by
  simp [List.range'_eq_map_range, List.getElem?_eq_some_iff]

/-! ## Needs on the merged tape -/

namespace Tape

variable [Scalar V]

/-- Value `j` is what a needed value is replaced by. -/
def ReplacesNeeded (value : Nat → Option Nat) (needed : Nat → Bool) (j : Nat) : Prop :=
  ∃ i, value i = some j ∧ needed i = true

/-- Every registered function that is needed has answered for its needed results. -/
def Answered (t : Tape V) (r : Registry V) (needed usage : Nat → Bool) : Prop :=
  ∀ {k : Nat} {p : Place} {family : Family} {id callId n : Nat} {inputs : List Nat},
    t.placed[k]? = some (p, .foreign family id callId n inputs) → usage k = true →
    ∃ answer, r.dependence family id callId ((List.range' p.first n).map needed) inputs.length
      = .ok answer

namespace Merges

variable {t t' : Tape V} {r : Registry V} {value : Nat → Option Nat}
  {needed usage needed' usage' : Nat → Bool} {i j k l : Nat} {p q : Place} {u w : Usage V}

/-- A result that replaces a needed value replaces it as the result of one of the copies. -/
theorem exists_copy (h : t.Merges t' value) (hk : t'.placed[k]? = some (p, u))
    (hj : j < u.resultCount) (hneeded : ReplacesNeeded value needed (p.first + j)) :
    ∃ l q w, t'.placed[l]? = some (q, w) ∧ Usage.ReadFrom t'.placed k l ∧
      needed (q.first + j) = true := by
  obtain ⟨i, hij, hi⟩ := hneeded
  obtain ⟨l, q, w, hl, hfrom, rfl⟩ := h.source hk hj hij
  exact ⟨l, q, w, hl, hfrom, hi⟩

theorem usage_of_copy (h : t.Merges t' value) (hsol : t.LiveEquations r needed usage)
    (hk : t'.placed[k]? = some (p, u)) (hl : t'.placed[l]? = some (q, w))
    (hfrom : Usage.ReadFrom t'.placed k l) (hj : j < u.resultCount)
    (hneeded : needed (q.first + j) = true) : usage l = true := by
  obtain ⟨w₀, hl₀, hw⟩ := h.placed hl
  have hcount := Usage.resultCount_of_ordered_eq (hfrom.ordered_eq hk hl)
  exact hsol.usage_of_result hl₀ (by rwa [← hw.resultCount_eq, ← hcount]) hneeded

section

variable (h : t.Merges t' value) (hsol : t.LiveEquations r needed usage)
  (hsol' : t'.LiveEquations r needed' usage')
  (hbehind : ∀ j, p.first ≤ j → j < t'.valueCount → needed' j = true →
    ReplacesNeeded value needed j)
include h hsol hbehind

/-- A usage with a needed result behind `p` stands for one that was needed for it. -/
theorem exists_needed_of_result (hk : t'.placed[k]? = some (q, u)) (hge : p.first ≤ q.first)
    (hwanted : ∃ j < u.resultCount, needed' (q.first + j) = true) :
    ∃ l p w, t'.placed[l]? = some (p, w) ∧ Usage.ReadFrom t'.placed k l ∧ usage l = true := by
  obtain ⟨j, hj, hneeded'⟩ := hwanted
  have hle := results_le hk
  obtain ⟨l, p', w, hl, hfrom, hneeded⟩ :=
    h.exists_copy hk hj (hbehind (q.first + j) (by omega) (by omega) hneeded')
  exact ⟨l, p', w, hl, hfrom, h.usage_of_copy hsol hk hl hfrom hj hneeded⟩

include hsol'

/-- Loads are not merged, so they are needed where they were. -/
theorem loadedBehind (hk : t'.placed[k]? = some (p, u)) {which : Nat}
    (hload : Usage.LoadedBehind t'.placed usage' k which) :
    Usage.LoadedBehind t.placed usage k which := by
  obtain ⟨l, q, index, hlt, hl, husage'⟩ := hload
  have hle := Usage.results_le_of_lt hlt hk hl
  obtain ⟨l', q', w, -, hfrom, hneeded⟩ := exists_needed_of_result h hsol hbehind hl (by omega)
    ((hsol'.usages (Nat.zero_lt_of_lt hlt) hl).mp husage')
  obtain rfl := hfrom.eq_of_not hl rfl
  obtain ⟨w₀, hl₀, hw⟩ := h.placed hl
  cases hw with
  | load hwhich _ =>
    obtain rfl := Option.some.inj hwhich
    exact ⟨l', q, _, hlt, hl₀, hneeded⟩

/-- A usage that is needed on the merged tape stands for one that was needed before, if the needed
values behind it replace needed ones. -/
theorem exists_needed (hk : t'.placed[k]? = some (p, u)) (husage : usage' k = true) :
    ∃ l q w, t'.placed[l]? = some (q, w) ∧ Usage.ReadFrom t'.placed k l ∧ usage l = true := by
  have hself (hnot : u.isMergeable = false) (hneeded : usage k = true) :
      ∃ l q w, t'.placed[l]? = some (q, w) ∧ Usage.ReadFrom t'.placed k l ∧ usage l = true :=
    ⟨k, p, u, hk, .self hk hnot rfl, hneeded⟩
  have hloaded {which : Nat} (hload : Usage.LoadedBehind t'.placed usage' k which) :=
    loadedBehind h hsol hsol' hbehind hk hload
  rcases Nat.eq_zero_or_pos k with rfl | hpos
  · exact ⟨0, t'.zeroPlace, _, t'.placed_zero, .source t'.placed_zero rfl
      ⟨⟨_, t'.placed_zero, rfl⟩, fun _ _ => Nat.zero_le _⟩, hsol.zero⟩
  · obtain ⟨u₀, hk₀, hu⟩ := h.placed hk
    have hwanted := (hsol'.usages hpos hk).mp husage
    have hneeded := (hsol.usages hpos hk₀).mpr
    rw [h.options_eq] at hwanted
    cases hu with
    | compare => exact hself rfl (hneeded hwanted)
    | print hflag _ =>
      refine hself rfl (hneeded ⟨hwanted.1, ?_⟩)
      rintro rfl
      exact hwanted.2 ((Option.some.inj (hflag.symm.trans h.zero)).trans h.indCount_eq.symm)
    | vector => exact hself rfl (hneeded (hloaded hwanted))
    | store hwhich =>
      obtain rfl := Option.some.inj hwhich
      exact hself rfl (hneeded (hloaded hwanted))
    | _ => exact exists_needed_of_result h hsol hbehind hk (Nat.le_refl _) hwanted

variable (ht : t.WellFormed)
include ht

/-- A copy reads the same values, so it needs all of them. -/
theorem replacesNeeded_of_reads (hk : t'.placed[k]? = some (p, u)) (husage : usage' k = true)
    (hkind : u.kind.family? = none) (hi : i ∈ u.reads) : ReplacesNeeded value needed i := by
  obtain ⟨l, q, w, hl, hfrom, hneeded⟩ := exists_needed h hsol hsol' hbehind hk husage
  obtain ⟨w₀, hl₀, hw⟩ := h.placed hl
  have heq := hfrom.ordered_eq hk hl
  rw [← Usage.mem_reads_ordered, heq, Usage.mem_reads_ordered] at hi
  obtain ⟨i₀, hi₀, hreplaced⟩ := hw.exists_of_mem_reads hi
  have hkind₀ : w₀.kind.family? = none := by
    rw [← hw.kind_eq, ← Usage.kind_ordered, ← heq, Usage.kind_ordered, hkind]
  rw [← Usage.needs_eq_reads r needed q.first hkind₀] at hi₀
  exact ⟨i₀, hreplaced, hsol.value_of_needs ht hl₀ hneeded hi₀⟩

variable (hr : r.JoinsAnswers) (hanswered : t.Answered r needed usage)
include hr hanswered
omit hsol'

/-- An input is marked for one of the needed results. The copy that is needed for this result reads
it as well. -/
theorem replacesNeeded_of_marked {family : Family} {id callId n : Nat} {inputs : List Nat}
    (hk : t'.placed[k]? = some (p, .foreign family id callId n inputs))
    (hi : i ∈ Live.marked inputs
      (r.marks family id callId ((List.range' p.first n).map needed') inputs.length)) :
    ReplacesNeeded value needed i := by
  obtain ⟨m, hinput, hmark⟩ := Live.mem_marked.mp hi
  obtain ⟨j, hj, hjoint⟩ := hr.exists_result hmark
  obtain ⟨hjn, hneeded'⟩ := getElem?_map_range'.mp hj
  have hle : p.first + n ≤ t'.valueCount := results_le hk
  obtain ⟨l, q, w, hl, hfrom, hneeded⟩ :=
    h.exists_copy hk hjn (hbehind _ (by omega) (by omega) hneeded')
  have husage := h.usage_of_copy hsol hk hl hfrom hjn hneeded
  obtain rfl := hfrom.eq_of_foreign hk hl
  obtain ⟨w₀, hl₀, hw⟩ := h.placed hl
  cases hw with
  | @foreign _ _ _ _ inputs₀ _ hinputs =>
    obtain ⟨answer, hanswer⟩ := hanswered hl₀ husage
    rw [length_of_mapM_some hinputs] at hjoint
    have hmark₀ := hjoint (by simp) (getElem?_map_range'.mpr ⟨hjn, hneeded⟩) hanswer
    have hinput₀ := congrArg (·[m]?) (mapM_eq_some_iff.mp hinputs)
    simp only [List.getElem?_map, hinput, Option.map_some, Option.map_eq_some_iff] at hinput₀
    obtain ⟨i₀, hi₀, hreplaced⟩ := hinput₀
    refine ⟨i₀, hreplaced, hsol.value_of_needs ht hl₀ husage ?_⟩
    rw [Usage.needs, Registry.marks_of_dependence hanswer]
    exact Live.mem_marked.mpr ⟨m, hi₀, hmark₀⟩

end

section

variable (h : t.Merges t' value) (ht : t.WellFormed) (ht' : t'.WellFormed) (hr : r.JoinsAnswers)
  (hsol : t.LiveEquations r needed usage) (hsol' : t'.LiveEquations r needed' usage')
  (hanswered : t.Answered r needed usage)
include h ht ht' hr hsol hsol' hanswered

/-- Every needed value of the merged tape replaces a needed one. -/
theorem replacesNeeded (hj : j < t'.valueCount) (hneeded : needed' j = true) :
    ReplacesNeeded value needed j := by
  refine hsol'.induct ht' (fun j hj => ?_) ?_ (fun {k p u} hk husage hbehind i hi => ?_) hj hneeded
  · obtain ⟨i, hi, hij⟩ := exists_of_mem_mapM h.dependents hj
    exact ⟨i, hij, (hsol.values i (ht.dependents i hi)).mpr (.inl hi)⟩
  · have hzero : t'.zeroIndex = t.zeroIndex := h.indCount_eq
    exact hzero ▸ ⟨t.zeroIndex, h.zero, (hsol.values _ t.zeroIndex_lt).mpr (.inr (.inl rfl))⟩
  · cases u with
    | foreign => exact replacesNeeded_of_marked h hsol hbehind ht hr hanswered hk hi
    | _ => exact replacesNeeded_of_reads h hsol hsol' hbehind ht hk husage rfl hi

/-- The needed usages of the merged tape have the footprints of some that were needed before. -/
theorem subperm_neededAt :
    ((t'.neededAt usage').map fun ((_, u), _) => u.footprint).Subperm
      ((t.neededAt usage).map fun ((_, u), _) => u.footprint) := by
  refine subperm_map_of_relation (R := fun a b => Usage.ReadFrom t'.placed a.2 b.2)
    (t'.nodup_neededAt usage') ?_ ?_
  · rintro ⟨⟨p, u⟩, k⟩ hmem
    obtain ⟨hk, husage⟩ := mem_neededAt.mp hmem
    obtain ⟨l, q, w, hl, hfrom, hneeded⟩ := exists_needed h hsol hsol'
      (fun j _ hj => replacesNeeded h ht ht' hr hsol hsol' hanswered hj) hk husage
    obtain ⟨w₀, hl₀, hw⟩ := h.placed hl
    refine ⟨((q, w₀), l), mem_neededAt.mpr ⟨hl₀, hneeded⟩, hfrom, ?_⟩
    show u.footprint = w₀.footprint
    rw [← hw.footprint_eq, ← u.footprint_ordered, hfrom.ordered_eq hk hl, w.footprint_ordered]
  · rintro ⟨⟨p, u⟩, k⟩ hmem ⟨⟨p', u'⟩, k'⟩ hmem' ⟨_, l⟩ hfrom hfrom'
    obtain rfl : k = k' := hfrom.unique hfrom'
    have hsame := (mem_neededAt.mp hmem).1.symm.trans (mem_neededAt.mp hmem').1
    rw [Option.some.inj hsame]

end

end Merges

variable {t d : Tape V} {r : Registry V}

theorem WellFormed.answered_of_liveness (ht : t.WellFormed) {live : Live}
    {actions : List (Action V)} (h : t.liveness r = .ok (live, actions)) :
    t.Answered r live.values.contains (keptAt (.copy :: actions)) := by
  intro k p family id callId n inputs hk hkept
  obtain ⟨answer, hanswer, -⟩ := ht.exists_answer h hk hkept
  exact ⟨answer, hanswer⟩

/-- No pass that drops dead code makes a tape larger, and merging equal usages first leaves no more
than dropping dead code alone does, where the answers of registered functions for several results
are joint ones. -/
theorem counts_shrink [DecidableEq V] (ht : t.Reachable) (h : t.dropDead r = .ok d) :
    d.stats.Within t.stats ∧
      (r.JoinsAnswers → ∀ c, t.deduplicate r = .ok c → c.stats.Within d.stats) := by
  obtain ⟨live, actions, value, vector, hlive, hpart⟩ := ht.wellFormed.neededPart_of_dropDead h
  refine ⟨within_of_subperm hpart.indCount_eq hpart.subperm, fun hr c hc => ?_⟩
  obtain ⟨t', hmerge, hdrop⟩ := deduplicate_eq_ok_iff.mp hc
  have ht' := ht.wellFormed.mergeEqual hmerge
  obtain ⟨live', actions', value', vector', hlive', hpart'⟩ := ht'.neededPart_of_dropDead hdrop
  obtain ⟨table, hmerges⟩ := merges_of_mergeEqual hmerge
  refine within_of_subperm ?_ ?_
  · rw [hpart'.indCount_eq, hmerges.indCount_eq, hpart.indCount_eq]
  · rw [hpart'.footprints_eq, hpart.footprints_eq]
    exact hmerges.subperm_neededAt ht.wellFormed ht' hr (ht.wellFormed.liveEquations hlive)
      (ht'.liveEquations hlive') (ht.wellFormed.answered_of_liveness hlive)

end Tape

/-! ## A function with joint answers -/

/-- Hands on its inputs as the function that forgets does, but reports each one that is needed. -/
def Foreign.passing : Foreign V where
  name := "passing"
  apply := forgetful.apply
  dependence _ needed _ := .ok (.ofFn fun k => needed.getD k.val false)

def Registry.passing : Registry V := only .passing

theorem Registry.only_joinsAnswers {f : Foreign V}
    (hf : f.dependence = (Foreign.passing : Foreign V).dependence) : (only f).JoinsAnswers := by
  intro family id callId needed inputCount answer hanswer k
  obtain ⟨g, hget, hg⟩ := dependence_eq_ok hanswer
  obtain rfl : g = f := get_only hget
  rw [hf] at hg
  obtain rfl := Except.ok.inj hg
  have hmarks (j : Nat) : (only g).marks family id callId (onlyResult needed.length j) inputCount
      = (Vector.ofFn fun k : Fin inputCount => (onlyResult needed.length j).getD k false).toList :=
    marks_of_dependence (bind_eq_ok_iff.mpr ⟨_, hget, by rw [hf]; rfl⟩)
  have hmark (needed : List Bool) :
      (Vector.ofFn fun k : Fin inputCount => needed.getD k false).toList[k]? = some true ↔
        k < inputCount ∧ needed[k]? = some true := by
    rw [Vector.toList_ofFn, List.getElem?_ofFn]
    cases hentry : needed[k]? <;> simp [hentry]
  simp only [hmarks, hmark, getElem?_onlyResult]
  constructor
  · rintro ⟨hk, hneeded⟩
    exact ⟨k, hneeded, hk, (List.getElem?_eq_some_iff.mp hneeded).1, rfl⟩
  · rintro ⟨j, hneeded, hk, -, rfl⟩
    exact ⟨hk, hneeded⟩

theorem Registry.passing_joinsAnswers : (passing : Registry V).JoinsAnswers :=
  only_joinsAnswers (f := .passing) rfl

namespace Tape

/-- Two inputs handed on twice. Of the first copy the first result is used, of the second one the
second. -/
def handedOnTwice : Tape Float :=
  { ((new 2 {}).push (.foreign .call 0 0 2 [0, 1])).push (.foreign .call 0 0 2 [0, 1])
    with deps := some [3, 6] }

/-- Each copy reads the input that it is needed for. -/
def handedOnApart : Tape Float :=
  { ((new 2 {}).push (.foreign .call 0 0 2 [0, 2])).push (.foreign .call 0 0 2 [2, 1])
    with deps := some [3, 6] }

/-- One copy hands both inputs on. -/
def handedOnTogether : Tape Float :=
  { (new 2 {}).push (.foreign .call 0 0 2 [0, 1]) with deps := some [3, 4] }

theorem counts_shrink_handedOnTwice : handedOnTwice.Reachable ∧
    handedOnTwice.dropDead .passing = .ok handedOnApart ∧
    handedOnApart.stats.Within handedOnTwice.stats ∧
    (Registry.passing : Registry Float).JoinsAnswers ∧
    handedOnTwice.deduplicate .passing = .ok handedOnTogether ∧
    handedOnTogether.stats.Within handedOnApart.stats ∧
    handedOnApart.stats.ops = 3 ∧ handedOnTogether.stats.ops = 2 := by
  have hreachable : handedOnTwice.Reachable :=
    (((Reachable.new 2 {}).push (by decide)).push (by decide)).withDependents rfl (by decide)
  have hdrop : handedOnTwice.dropDead .passing = .ok handedOnApart := by with_unfolding_all rfl
  have hmerge : handedOnTwice.mergeEqual = .ok { handedOnTwice with deps := some [3, 4] } := by
    with_unfolding_all rfl
  have hdrop' : dropDead { handedOnTwice with deps := some [3, 4] } .passing
      = .ok handedOnTogether := by with_unfolding_all rfl
  have hdedup : handedOnTwice.deduplicate .passing = .ok handedOnTogether :=
    deduplicate_eq_ok_iff.mpr ⟨_, hmerge, hdrop'⟩
  obtain ⟨hwithin, hmore⟩ := counts_shrink hreachable hdrop
  exact ⟨hreachable, hdrop, hwithin, Registry.passing_joinsAnswers, hdedup,
    hmore Registry.passing_joinsAnswers _ hdedup, rfl, rfl⟩

end Tape

end OpTape
