import OpTape.Proofs.Padding
import OpTape.Proofs.Persisting
/-
  Folding once more. Where nothing is left to fold and nothing is dead, folding leaves every usage
  in place: what it knows are the constants of the tape, and results that nothing reads
  (`Known.Reflects`). Only a registered function can have such results; folding puts constants
  behind it (`Known.Spared`). So the new tape is the old one with idle constants
  (`Tape.KeepsAll.exists_foldConstants`). Folding gives the function undefined inputs, so it goes
  through where functions never fail (`Registry.NeverFails`).
-/
namespace OpTape

variable {V : Type}

/-! ## Functions that never fail -/

/-- Whatever the function is asked, it has results, and an answer on dependence. -/
def Foreign.NeverFails (f : Foreign V) : Prop :=
  (∀ callId inputs n, ∃ values, f.apply callId inputs n = .ok values) ∧
    ∀ callId needed inputCount, ∃ reads, f.dependence callId needed inputCount = .ok reads

/-- No registered function ever fails. -/
def Registry.NeverFails (r : Registry V) : Prop :=
  ∀ family id f, r.get family id = .ok f → f.NeverFails

section

variable {r : Registry V} {family : Family} {id : Nat} {f : Foreign V}

theorem Registry.NeverFails.exists_apply (hr : r.NeverFails) (hget : r.get family id = .ok f)
    (callId : Nat) (inputs : List V) (n : Nat) :
    ∃ values, r.apply family id callId inputs n = .ok values := by
  obtain ⟨values, hvalues⟩ := (hr family id f hget).1 callId inputs n
  exact ⟨values, bind_eq_ok_iff.mpr ⟨f, hget, mapError_eq_ok_iff.mpr hvalues⟩⟩

theorem Registry.NeverFails.exists_dependence (hr : r.NeverFails) (hget : r.get family id = .ok f)
    (callId : Nat) (needed : List Bool) (inputCount : Nat) :
    ∃ reads, r.dependence family id callId needed inputCount = .ok reads := by
  obtain ⟨reads, hreads⟩ := (hr family id f hget).2 callId needed inputCount
  exact ⟨reads, bind_eq_ok_iff.mpr ⟨f, hget, mapError_eq_ok_iff.mpr hreads⟩⟩

end

/-! ## Nothing dead -/

namespace Tape.KeepsAll

variable [Scalar V] {t : Tape V} {r : Registry V} {live : Live} {actions : List (Action V)}
  {k : Nat} {p : Place} {u : Usage V} {family : Family} {id callId n : Nat} {inputs : List Nat}

theorem keptAt_of_placed (hall : t.KeepsAll r live actions) (hk : t.placed[k]? = some (p, u)) :
    keptAt (.copy :: actions) k = true := by
  cases k with
  | zero => rfl
  | succ k =>
    have hlt : k < actions.length := by
      rw [← hall.kept.length_eq]
      exact Nat.lt_of_succ_lt_succ (List.getElem?_eq_some_iff.mp (Usage.getElem?_of_placed hk)).1
    have haction : (Action.copy :: actions)[k + 1]? = some actions[k] :=
      List.getElem?_eq_getElem hlt
    obtain ⟨w, hw⟩ : ∃ w, t.body.toList[k]? = some w := ⟨u, Usage.getElem?_of_placed hk⟩
    rw [keptAt_of_getElem? haction]
    have hpair : (w, actions[k]) ∈ t.body.toList.zip actions :=
      List.mem_of_getElem? (List.getElem?_zip_eq_some.mpr ⟨hw, List.getElem?_eq_getElem hlt⟩)
    exact (List.forall₂_iff_zip.mp hall.kept).2 hpair |>.isKept

variable (hall : t.KeepsAll r live actions) (ht : t.WellFormed)
  (hk : t.placed[k]? = some (p, .foreign family id callId n inputs))
include hall ht hk

theorem exists_function : ∃ f, r.get family id = .ok f := by
  obtain ⟨answer, hanswer, -⟩ := ht.exists_answer hall.liveness hk (hall.keptAt_of_placed hk)
  obtain ⟨f, hget, -⟩ := Registry.dependence_eq_ok hanswer
  exact ⟨f, hget⟩

/-- A registered function is called for a result that is read. -/
theorem exists_isRead : ∃ j < n, t.IsRead (p.first + j) := by
  have hsol := ht.liveEquations hall.liveness
  have hpos : 0 < k := by
    rcases Nat.eq_zero_or_pos k with rfl | hpos
    · cases t.placed_zero.symm.trans hk
    · exact hpos
  obtain ⟨j, hj, hneeded⟩ := (hsol.usages hpos hk).mp (hall.keptAt_of_placed hk)
  refine ⟨j, hj, ?_⟩
  have hle := results_le hk
  rcases (hsol.values _ (Nat.lt_of_lt_of_le (Nat.add_lt_add_left hj _) hle)).mp hneeded with
    hdep | hzero | ⟨l, q, w, hl, -, hneed⟩
  · exact .inl hdep
  · obtain ⟨rfl, -⟩ := Usage.eq_of_results hk t.placed_zero hj Nat.one_pos hzero
    cases t.placed_zero.symm.trans hk
  · exact .inr ⟨w, mem_usages_of_placed hl, Usage.mem_reads_of_mem_needs hneed⟩

end Tape.KeepsAll

/-! ## The second walk -/

namespace Known

variable [Scalar V] {t : Tape V} {known : Known V} {r : Registry V} {k i j : Nat} {p : Place}
  {u : Usage V} {v : V} {results : List (Option V)} {action : Action V}

omit [Scalar V] in
theorem size_append (known : Known V) (results : List (Option V)) :
    Array.size (known ++ results : Array (Option V)) = known.size + results.length := by
  rw [append_list_eq, Array.size_append]
  rfl

/-- What is known are the constants of the tape, and values that nothing reads. -/
structure Reflects (t : Tape V) (known : Known V) : Prop where
  constant : ∀ {i v}, i < known.size → t.HoldsConstant i v → known.value? i = some v
  idle : ∀ {i v}, known.value? i = some v → t.IsRead i → t.HoldsConstant i v

/-- The usage at `p` stays. Where folding puts constants behind it, nothing reads what they stand
for. -/
inductive Spared (t : Tape V) (p : Place) : Usage V → List (Option V) → Action V → Prop
  | constant (v : V) : Spared t p (.constant v) [some v] .copy
  | untouched {u : Usage V} (hu : ∀ v, u ≠ .constant v) :
      Spared t p u (List.replicate u.resultCount none) .copy
  | folded {family : Family} {id callId n : Nat} {inputs : List Nat} {results : List (Option V)}
      (hlength : results.length = n)
      (hidle : ∀ {j v}, results[j]? = some (some v) → ¬ t.IsRead (p.first + j)) :
      Spared t p (.foreign family id callId n inputs) results (.foldResults results)

theorem Spared.length_eq (h : Spared t p u results action) : results.length = u.resultCount := by
  cases h with
  | constant => rfl
  | untouched => exact List.length_replicate
  | folded hlength => exact hlength

theorem Reflects.append (h : Reflects t known) (hspared : Spared t p u results action)
    (hk : t.placed[k]? = some (p, u)) (hsize : known.size = p.first) :
    Reflects t (known ++ results : Array (Option V)) where
  constant {i v} hi hv := by
    rcases Nat.lt_or_ge i known.size with hlt | hge
    · rw [value?_append_of_lt hlt]
      exact h.constant hlt hv
    · obtain ⟨j, rfl⟩ := Nat.exists_eq_add_of_le hge
      have hj : j < u.resultCount := by
        rw [size_append, hspared.length_eq] at hi
        exact Nat.lt_of_add_lt_add_left hi
      obtain rfl := (Tape.holdsConstant_iff hk hj).mp (hsize ▸ hv)
      obtain rfl := Nat.lt_one_iff.mp hj
      rw [value?_append_add]
      cases hspared with
      | constant => rfl
      | untouched hu => exact absurd rfl (hu v)
  idle {i v} hv hread := by
    rcases Nat.lt_or_ge i known.size with hlt | hge
    · rw [value?_append_of_lt hlt] at hv
      exact h.idle hv hread
    · obtain ⟨j, rfl⟩ := Nat.exists_eq_add_of_le hge
      rw [value?_append_add, Option.join_eq_some_iff] at hv
      cases hspared with
      | constant w =>
        obtain ⟨rfl, rfl⟩ : j = 0 ∧ w = v := by simpa [List.getElem?_singleton] using hv
        exact hsize ▸ (Tape.holdsConstant_iff hk Nat.one_pos).mpr rfl
      | untouched => simp [List.getElem?_replicate] at hv
      | folded _ hidle => exact absurd (hsize ▸ hread) (hidle hv)

theorem value?_firstKnown (t : Tape V) (i : Nat) :
    t.firstKnown.value? i = if i = t.zeroIndex then some Scalar.zero else none := by
  rw [value?, Tape.firstKnown, Array.getElem?_push, Array.size_replicate]
  split
  · exact (if_pos ‹_›).symm
  · rw [if_neg ‹_›, Array.getElem?_replicate]
    split <;> rfl

theorem reflects_firstKnown (t : Tape V) : Reflects t t.firstKnown := by
  have hzero : t.HoldsConstant t.zeroIndex Scalar.zero := ⟨0, t.zeroPlace, t.placed_zero, rfl⟩
  refine ⟨fun {i v} hi hv => ?_, fun {i v} hv _ => ?_⟩
  · have hle : i ≤ t.zeroIndex := by
      have hsize : t.firstKnown.size = t.zeroIndex + 1 := by
        simp [Tape.firstKnown, Tape.zeroIndex]
      rw [hsize] at hi
      exact Nat.le_of_lt_succ hi
    have hge : t.zeroIndex ≤ i := by
      obtain ⟨k, p, hk, rfl⟩ := hv
      exact Usage.first_le_of_placed hk
    obtain rfl := Nat.le_antisymm hge hle
    rw [value?_firstKnown, if_pos rfl, hzero.unique hv]
  · rw [value?_firstKnown] at hv
    split at hv
    · rename_i heq
      obtain rfl := Option.some.inj hv
      exact heq ▸ hzero
    · cases hv

namespace Reflects

variable (h : Reflects t known) (hk : t.placed[k]? = some (p, u))
include h hk

theorem holdsConstant (hi : i ∈ u.reads) (hv : known.value? i = some v) : t.HoldsConstant i v :=
  h.idle hv (.inr ⟨u, Tape.mem_usages_of_placed hk, hi⟩)

omit hk in
/-- A result is constant, by the account of the function, only if nothing reads it: something that
is no constant stands behind a result that is read. -/
theorem not_isRead_of_constancy (hfolded : t.Folded r) (hd : r.DerivesConstancy) {family : Family}
    {id callId n : Nat} {inputs : List Nat} {flags : Vector Bool n}
    (hk : t.placed[k]? = some (p, .foreign family id callId n inputs))
    (hflags : r.constancy family id callId (inputs.map known.isKnown) n = .ok flags)
    (hj : flags.toList[j]? = some true) : ¬ t.IsRead (p.first + j) := by
  intro hread
  obtain ⟨f, hget, hderived⟩ := Registry.constancy_eq_ok hflags
  rw [hd family id f hget] at hderived
  obtain ⟨hlt, reads, hreads, hmarks⟩ := reads_of_constancyOfDependence hderived hj
  obtain ⟨m, i, hmark, hi, hnot⟩ := hfolded.results hk hlt hread
  have hdependence : r.dependence family id callId (onlyResult n j)
      (inputs.map known.isKnown).length = .ok reads :=
    bind_eq_ok_iff.mpr ⟨f, hget, mapError_eq_ok_iff.mpr hreads⟩
  rw [← List.length_map (f := known.isKnown), Registry.marks_of_dependence hdependence] at hmark
  have hknown := hmarks m hmark
  rw [List.getElem?_map, hi] at hknown
  obtain ⟨v, hv⟩ := Option.isSome_iff_exists.mp (Option.some.inj hknown)
  have hmem : i ∈ (Usage.foreign family id callId n inputs : Usage V).reads :=
    List.mem_append_left _ (List.mem_of_getElem? hi)
  exact hnot v (h.holdsConstant hk hmem hv)

variable {live : Live} {actions : List (Action V)} (hsize : known.size = p.first)
  (ht : t.WellFormed) (hfolded : t.Folded r) (hall : t.KeepsAll r live actions)
  (hr : r.NeverFails) (hd : r.DerivesConstancy)
include hsize ht hfolded hall hr hd

omit hk in
/-- A registered function stays: the result that it is called for is not constant. -/
theorem exists_visit_foreign {family : Family} {id callId n : Nat} {inputs : List Nat}
    (hk : t.placed[k]? = some (p, .foreign family id callId n inputs)) :
    ∃ results action, known.visit r (.foreign family id callId n inputs) = .ok (results, action) ∧
      Spared t p (.foreign family id callId n inputs) results action := by
  obtain ⟨f, hget⟩ := hall.exists_function ht hk
  obtain ⟨flags, hflags⟩ := hd.exists_constancy (n := n) (fun needed _ =>
    hr.exists_dependence hget callId needed inputs.length) (List.length_map known.isKnown)
  have hidle {j : Nat} (hj : flags.toList[j]? = some true) : ¬ t.IsRead (p.first + j) :=
    h.not_isRead_of_constancy hfolded hd hk hflags hj
  by_cases hany : flags.toList.any (·) = true
  · have hoperands : ∀ i ∈ inputs, ∃ v, known.operand i = .ok v := by
      intro i hi
      have hlt : i < known.size := hsize ▸ (ht.fits hk).1 i (List.mem_append_left _ hi)
      exact ⟨_, bind_eq_ok_iff.mpr
        ⟨_, entry_eq_ok_iff.mpr (Array.getElem?_eq_getElem hlt), rfl⟩⟩
    obtain ⟨x, hx⟩ := exists_mapM_ok hoperands
    obtain ⟨vals, hvals⟩ := hr.exists_apply hget callId x n
    have hcomputed : (Usage.foreign family id callId n inputs).compute r known.operand
        = .ok vals.toList := by
      simp only [Usage.compute, bind_eq_ok_iff]
      exact ⟨x, hx, vals, hvals, rfl⟩
    have hsome : ¬ flags.toList.all (·) = true := by
      intro hflag
      obtain ⟨j, hj, hread⟩ := hall.exists_isRead ht hk
      have hlt : j < flags.toList.length := by simpa using hj
      refine hidle ?_ hread
      rw [List.getElem?_eq_getElem hlt, List.all_eq_true.mp hflag _ (List.getElem_mem hlt)]
    refine ⟨restrict flags.toList vals.toList, .foldResults (restrict flags.toList vals.toList),
      ?_, .folded (length_restrict flags vals) fun {j v} hj => ?_⟩
    · simp only [visit, bind_eq_ok_iff]
      refine ⟨flags, hflags, ?_⟩
      rw [if_pos hany, hcomputed]
      exact if_neg hsome
    · obtain ⟨w, -, ⟨hflag, -⟩ | ⟨-, hnone⟩⟩ := getElem?_restrict hj
      · exact hidle hflag
      · cases hnone
  · refine ⟨List.replicate n none, .copy, ?_, .untouched fun v hv => by cases hv⟩
    simp only [visit, bind_eq_ok_iff]
    refine ⟨flags, hflags, ?_⟩
    rw [if_neg hany]
    rfl

/-- Folding once more leaves every usage in place. -/
theorem exists_visit : ∃ results action, known.visit r u = .ok (results, action) ∧
    Spared t p u results action := by
  have hu : u ∈ t.usages := Tape.mem_usages_of_placed hk
  have hplain (hisPlain : u.isPlain = true) : known.visit r u = .ok (untouched u) := by
    rw [visit_of_isPlain hisPlain, if_neg]
    intro hknown
    obtain ⟨i, hi, hnot⟩ := (hfolded.usages u hu).exists_not_constant hisPlain
    have hread : i ∈ u.reads := List.mem_append_left _ hi
    obtain ⟨v, hv⟩ := Option.isSome_iff_exists.mp (List.all_eq_true.mp hknown i hread)
    exact hnot v (h.holdsConstant hk hread hv)
  cases u with
  | constant v => exact ⟨_, _, rfl, .constant v⟩
  | compare cmp x y =>
    simp only [visit]
    split
    · rename_i a c ha hc
      have hheld : cmp.holds a c = false := hfolded.usages _ hu a c
        (h.holdsConstant hk (by simp [Usage.reads, Usage.args]) ha)
        (h.holdsConstant hk (by simp [Usage.reads, Usage.args]) hc)
      rw [hheld]
      exact ⟨_, _, rfl, .untouched fun v hv => by cases hv⟩
    · exact ⟨_, _, rfl, .untouched fun v hv => by cases hv⟩
  | select cmp x y ifTrue ifFalse =>
    simp only [visit]
    split
    · rename_i a c ha hc
      exact absurd (h.holdsConstant hk (by simp [Usage.reads, Usage.args]) hc)
        (hfolded.usages _ hu a c (h.holdsConstant hk (by simp [Usage.reads, Usage.args]) ha))
    · exact ⟨_, _, rfl, .untouched fun v hv => by cases hv⟩
  | foreign family id callId n inputs =>
    exact h.exists_visit_foreign hsize ht hfolded hall hr hd hk
  | print | vector | load | store => exact ⟨_, _, rfl, .untouched fun v hv => by cases hv⟩
  | unary | binary | discrete | sum =>
    exact ⟨_, _, hplain rfl, .untouched fun v hv => by cases hv⟩

end Reflects

end Known

/-! ## The second rebuilding -/

/-- One table takes the numbers below `n` to numbers below `m`, the other one takes them back. -/
structure Paired (value back : Nat → Option Nat) (n m : Nat) : Prop where
  total : ∀ i < n, ∃ j, value i = some j
  lt : ∀ {i j}, value i = some j → i < n
  inverse : ∀ {i j}, value i = some j → back j = some i
  back_lt : ∀ {i j}, back j = some i → j < m

/-- The tables go on with `count` further numbers, and `idle` ones that are not taken back. -/
theorem Paired.exists_extended {value back : Nat → Option Nat} {n m : Nat}
    (h : Paired value back n m) (count idle : Nat) :
    ∃ value' back', Paired value' back' (n + count) (m + count + idle) ∧
      (∀ i < n, value' i = value i) ∧ (∀ j < m, back' j = back j) ∧
      (∀ j < count, value' (n + j) = some (m + j)) ∧
      ∀ j < idle, back' (m + count + j) = none := by
  let value' (i : Nat) :=
    if i < n then value i else if i < n + count then some (m + (i - n)) else none
  let back' (j : Nat) :=
    if j < m then back j else if j < m + count then some (n + (j - m)) else none
  have hold {i : Nat} (hi : i < n) : value' i = value i := if_pos hi
  have hnew {j : Nat} (hj : j < count) : value' (n + j) = some (m + j) := by
    show (if n + j < n then _ else if n + j < n + count then some (m + (n + j - n)) else none) = _
    rw [if_neg (by omega), if_pos (by omega), Nat.add_sub_cancel_left]
  have hback {j : Nat} (hj : j < m) : back' j = back j := if_pos hj
  have hbackNew {j : Nat} (hj : j < count) : back' (m + j) = some (n + j) := by
    show (if m + j < m then _ else if m + j < m + count then some (n + (m + j - m)) else none) = _
    rw [if_neg (by omega), if_pos (by omega), Nat.add_sub_cancel_left]
  have hnone {j : Nat} (hj : m + count ≤ j) : back' j = none := by
    show (if j < m then _ else if j < m + count then _ else none) = _
    rw [if_neg (by omega), if_neg (by omega)]
  have hlt {i j : Nat} (hij : value' i = some j) : i < n + count := by
    by_contra hge
    have hnone : value' i = none := by
      show (if i < n then _ else if i < n + count then _ else none) = _
      rw [if_neg (by omega), if_neg hge]
    cases hnone.symm.trans hij
  refine ⟨value', back', ⟨fun i hi => ?_, hlt, fun {i j} hij => ?_, fun {i j} hij => ?_⟩,
    fun i => hold, fun j => hback, fun j => hnew, fun j _ => hnone (Nat.le_add_right _ _)⟩
  · rcases Nat.lt_or_ge i n with hin | hin
    · obtain ⟨j, hj⟩ := h.total i hin
      exact ⟨j, (hold hin).trans hj⟩
    · obtain ⟨k, rfl⟩ := Nat.exists_eq_add_of_le hin
      exact ⟨m + k, hnew (Nat.lt_of_add_lt_add_left hi)⟩
  · rcases Nat.lt_or_ge i n with hin | hin
    · have hji := h.inverse ((hold hin).symm.trans hij)
      exact (hback (h.back_lt hji)).trans hji
    · obtain ⟨k, rfl⟩ := Nat.exists_eq_add_of_le hin
      have hk : k < count := Nat.lt_of_add_lt_add_left (hlt hij)
      obtain rfl := Option.some.inj ((hnew hk).symm.trans hij)
      exact hbackNew hk
  · by_contra hge
    have hjm : m + count ≤ j := by omega
    cases (hnone hjm).symm.trans hij

theorem Usage.Pads.idles {value back : Nat → Option Nat} {p q : Place} {us ws : List (Usage V)}
    {values : List V} (hidle : ∀ j < values.length, back (q.first + j) = none)
    (h : Pads value back p { q with first := q.first + values.length } us ws) :
    Pads value back p q us (values.map .constant ++ ws) := by
  induction values generalizing q with
  | nil => exact h
  | cons v values ih =>
    refine .idle (hidle 0 (Nat.succ_pos _)) (ih (fun j hj => ?_) ?_)
    · show back (q.first + 1 + j) = none
      rw [Nat.add_assoc, Nat.add_comm 1]
      exact hidle (j + 1) (Nat.succ_lt_succ hj)
    · have hlength : q.first + 1 + values.length = q.first + (values.length + 1) := by omega
      show Pads value back p { first := q.first + 1 + values.length, vector := q.vector } us ws
      rw [hlength]
      exact h

namespace Tape

theorem valueCount_constants (t : Tape V) (values : List V) :
    ((values.map Usage.constant).foldl push t).valueCount = t.valueCount + values.length := by
  induction values generalizing t with
  | nil => rfl
  | cons v values ih =>
    rw [List.map_cons, List.foldl_cons, ih, valueCount_push, List.length_cons]
    show t.valueCount + 1 + values.length = _
    omega

theorem vectorCount_constants (t : Tape V) (values : List V) :
    ((values.map Usage.constant).foldl push t).vectorCount = t.vectorCount := by
  induction values generalizing t with
  | nil => rfl
  | cons v values ih => exact ih (t.push (.constant v))

end Tape

namespace Rebuild

variable {b b' : Rebuild V} {u new : Usage V} {action : Action V} {results : List (Option V)}

theorem tape_withConstants (b : Rebuild V) (values : List (Option V)) :
    (b.withConstants values).tape
      = ((values.filterMap id).map Usage.constant).foldl Tape.push b.tape := by
  induction values generalizing b with
  | nil => rfl
  | cons value rest ih =>
    cases value with
    | none => exact ih b
    | some v => exact ih (b.pushed (.constant v))

theorem constantIndices_of_none {first next k : Nat} {values : List (Option V)}
    (h : values[k]? = some none) :
    (constantIndices first next values)[k]? = some (some (first + k)) := by
  have hlt : k < (constantIndices first next values).length := by
    rw [length_constantIndices]
    exact (List.getElem?_eq_some_iff.mp h).1
  obtain ⟨j, hj⟩ := exists_of_mem_constantIndices (List.getElem_mem hlt)
  have hentry : (constantIndices first next values)[k]? = some (some j) := by
    rw [List.getElem?_eq_getElem hlt, hj]
  rcases getElem?_constantIndices hentry with ⟨-, rfl⟩ | ⟨v, m, hv, -⟩
  · exact hentry
  · cases h.symm.trans hv

variable [Scalar V]

/-- `new` was recorded for `u`, and constants behind it. What is read of its results stands there,
and the other tables are as they were. -/
structure Spares (t : Tape V) (b : Rebuild V) (u new : Usage V) (idle : List V) (b' : Rebuild V) :
    Prop where
  tape : b'.tape = (idle.map .constant).foldl Tape.push (b.tape.push new)
  place : b'.place = b.place.past u
  old : ∀ i < b.values.size, b'.value? i = b.value? i
  read : ∀ j < u.resultCount, t.IsRead (b.values.size + j) →
    b'.value? (b.values.size + j) = some (b.tape.valueCount + j)
  vectors : b'.KeepsVectors

/-- A usage that stays can be recorded under its new names. -/
theorem exists_spares {t : Tape V} (hspared : Known.Spared t b.place u results action)
    (hnew : Usage.Renames b.value? b.vector? u new) (hadmits : b.tape.Admits new)
    (hvectors : b.KeepsVectors) : ∃ b' idle, Step b u action b' ∧ Spares t b u new idle b' := by
  have hcopy : Spares t b u new [] (b.replaced u new) := by
    have hentered := entered_replaced b u new
    refine ⟨?_, hentered.place_eq, hentered.extended.value, fun j hj _ => ?_,
      hvectors.replaced hnew.startsVector_eq⟩
    · rw [replaced_eq, tape_enter, tape_enterVector, tape_pushed]
      rfl
    · rw [hentered.value?_add]
      simp [hj]
  cases hspared with
  | constant | untouched => exact ⟨_, [], .copy hnew hadmits, hcopy⟩
  | @folded family f callId n inputs results hlength hidle =>
    have hstep := Step.foldResults hlength hnew hadmits
    have hentered : b.Entered (.foreign family f callId n inputs)
        (constantIndices b.tape.valueCount (b.tape.push new).valueCount results) none
        (((b.pushed new).withConstants results).enter
          (constantIndices b.tape.valueCount (b.tape.push new).valueCount results)) :=
      ⟨(length_constantIndices ..).trans hlength,
        by rw [values_enter, values_withConstants, values_pushed],
        by rw [vectors_enter, vectors_withConstants, vectors_pushed]; rfl⟩
    refine ⟨_, results.filterMap id, hstep, tape_withConstants (b.pushed new) results,
      hentered.place_eq, hentered.extended.value, fun j hj hread => ?_,
      hstep.keepsVectors hvectors fun hstarts => by cases hstarts⟩
    rw [hentered.value?_add]
    have hlt : j < results.length := hlength ▸ hj
    have hnone : results[j]? = some none := by
      cases hentry : results[j] with
      | none => rw [List.getElem?_eq_getElem hlt, hentry]
      | some v =>
        exact absurd hread (hidle (v := v) (by rw [List.getElem?_eq_getElem hlt, hentry]))
    rw [constantIndices_of_none hnone]
    rfl

/-- The second rebuilding so far: what is read stands where `value` says. -/
structure Numbered (t : Tape V) (b : Rebuild V) (value back : Nat → Option Nat) : Prop where
  paired : Paired value back b.values.size b.tape.valueCount
  read : ∀ i < b.values.size, t.IsRead i → b.value? i = value i
  vectors : b.KeepsVectors

namespace Numbered

variable {t : Tape V} {value back : Nat → Option Nat}

/-- A usage can be renamed as the table says, which is what the rebuilding makes of it. -/
theorem exists_renames (h : b.Numbered t value back) (hread : ∀ i ∈ u.reads, t.IsRead i)
    (hfits : u.Fits b.place.first b.place.vector) : ∃ new, Usage.Renames value some u new ∧
      Usage.Renames b.value? b.vector? u new ∧ b.tape.Admits new := by
  obtain ⟨new, hnew⟩ := Usage.exists_renames
    (fun i hi => h.paired.total i (hfits.1 i hi)) fun w _ => ⟨w, rfl⟩
  have hlt (w : Nat) (hw : w ∈ u.vector?) : w < b.tape.vectorCount := by
    have hsize : b.vectors.size = b.tape.vectorCount := by
      rw [h.vectors, Array.size_map, Array.size_range]
    exact hsize ▸ hfits.2 w hw
  refine ⟨new, hnew, hnew.transfer (fun i hi j hij => ?_) fun w hw w' hww' => ?_, fun j hj => ?_,
    fun w' hw' => ?_⟩
  · rw [h.read i (hfits.1 i hi) (hread i hi), hij]
  · exact h.vectors.vector?_eq_some_iff.mpr ⟨hlt w hw, Option.some.inj hww'⟩
  · obtain ⟨i, -, hij⟩ := hnew.exists_of_mem_reads hj
    exact h.paired.back_lt (h.paired.inverse hij)
  · obtain ⟨w, hw, hww'⟩ := hnew.exists_of_mem_vector hw'
    exact Option.some.inj hww' ▸ hlt w hw

/-- The tables go on with the results of a usage that stays and the constants behind it. -/
theorem exists_numbered {idle : List V} (h : b.Numbered t value back)
    (hspares : Spares t b u new idle b') (hcount : new.resultCount = u.resultCount) :
    ∃ value' back', b'.Numbered t value' back' ∧
      (∀ i < b.values.size, value' i = value i) ∧
      (∀ j < b.tape.valueCount, back' j = back j) ∧
      (∀ j < u.resultCount, value' (b.values.size + j) = some (b.tape.valueCount + j)) ∧
      ∀ j < idle.length, back' (b.tape.valueCount + u.resultCount + j) = none := by
  obtain ⟨value', back', hpaired, hvalue, hback, hresults, hidle⟩ :=
    h.paired.exists_extended u.resultCount idle.length
  have hsize : b'.values.size = b.values.size + u.resultCount :=
    congrArg Place.first hspares.place
  have hvalues : b'.tape.valueCount = b.tape.valueCount + u.resultCount + idle.length := by
    rw [hspares.tape, Tape.valueCount_constants, Tape.valueCount_push, hcount]
  refine ⟨value', back', ⟨hsize ▸ hvalues ▸ hpaired, fun i hi hread => ?_, hspares.vectors⟩,
    hvalue, hback, hresults, hidle⟩
  rcases Nat.lt_or_ge i b.values.size with hlt | hge
  · rw [hspares.old i hlt, h.read i hlt hread, hvalue i hlt]
  · obtain ⟨j, rfl⟩ := Nat.exists_eq_add_of_le hge
    have hj : j < u.resultCount := Nat.lt_of_add_lt_add_left (hsize ▸ hi)
    rw [hspares.read j hj hread, hresults j hj]

variable {r : Registry V} {live : Live} {kept : List (Action V)} {known : Known V}
  {us : List (Usage V)}

/-- The second walk and the second rebuilding over all usages. -/
theorem exists_run (h : b.Numbered t value back) (hreflects : Known.Reflects t known)
    (hsize : known.size = b.values.size) (hplaced : ∀ x ∈ Usage.placed b.place us, x ∈ t.placed)
    (ht : t.WellFormed) (hfolded : t.Folded r) (hall : t.KeepsAll r live kept)
    (hr : r.NeverFails) (hd : r.DerivesConstancy) :
    ∃ actions b' value' back' ws, Known.walk r known us = .ok actions ∧
      b.run? (us.zip actions) = some b' ∧ b'.tape = ws.foldl Tape.push b.tape ∧
      b'.place = us.foldl Place.past b.place ∧ b'.Numbered t value' back' ∧
      (∀ i < b.values.size, value' i = value i) ∧
      (∀ j < b.tape.valueCount, back' j = back j) ∧
      Usage.Pads value' back' b.place
        { first := b.tape.valueCount, vector := b.tape.vectorCount } us ws := by
  induction us generalizing known b value back with
  | nil =>
    exact ⟨[], b, value, back, [], rfl, rfl, rfl, rfl, h, fun _ _ => rfl, fun _ _ => rfl,
      .nil _ _⟩
  | cons u us ih =>
    obtain ⟨k, hk⟩ := List.mem_iff_getElem?.mp (hplaced (b.place, u) List.mem_cons_self)
    obtain ⟨results, action, hvisit, hspared⟩ :=
      hreflects.exists_visit hk hsize ht hfolded hall hr hd
    have hu : u ∈ t.usages := Tape.mem_usages_of_placed hk
    have hfits := ht.fits hk
    obtain ⟨new, hnew, hrenames, hadmits⟩ :=
      h.exists_renames (fun i hi => .inr ⟨u, hu, hi⟩) hfits
    obtain ⟨b₁, idle, hstep, hspares⟩ :=
      Rebuild.exists_spares hspared hrenames hadmits h.vectors
    obtain ⟨value₁, back₁, h₁, hvalue₁, hback₁, hresults, hidle⟩ :=
      h.exists_numbered hspares hnew.resultCount_eq
    have hsize₁ : b₁.values.size = b.values.size + u.resultCount :=
      congrArg Place.first hspares.place
    have hvalues₁ : b₁.tape.valueCount = b.tape.valueCount + u.resultCount + idle.length := by
      rw [hspares.tape, Tape.valueCount_constants, Tape.valueCount_push, hnew.resultCount_eq]
    have hknown₁ : Array.size (known ++ results : Array (Option V)) = b₁.values.size := by
      rw [Known.size_append, hspared.length_eq, hsize, hsize₁]
    obtain ⟨actions, b', value', back', ws, hwalk, hrun, htape, hplace, hb', hvalue', hback',
      hpads⟩ := ih h₁ (hreflects.append hspared hk hsize) hknown₁
        fun x hx => hplaced x (List.mem_cons_of_mem _ (hspares.place ▸ hx))
    refine ⟨action :: actions, b', value', back', new :: (idle.map .constant ++ ws), ?_,
      Rebuild.run?_cons_eq_some_iff.mpr ⟨b₁, hstep, hrun⟩, ?_, ?_, hb', fun i hi => ?_,
      fun j hj => ?_, .keep ?_ (fun j hj => ?_) (.idles (fun j hj => ?_) ?_)⟩
    · simp only [Known.walk, bind_eq_ok_iff]
      exact ⟨_, hvisit, actions, hwalk, rfl⟩
    · rw [htape, hspares.tape, List.foldl_cons, List.foldl_append]
    · rw [hplace, hspares.place]
      rfl
    · rw [hvalue' i (by omega), hvalue₁ i hi]
    · rw [hback' j (by omega), hback₁ j hj]
    · refine hnew.transfer (fun i hi j hij => ?_) fun w _ w' hww' => hww'
      have hlt : i < b.values.size := hfits.1 i hi
      rw [hvalue' i (by omega), hvalue₁ i hlt, hij]
    · show value' (b.values.size + j) = _
      rw [hvalue' _ (by omega), hresults j hj]
    · show back' (b.tape.valueCount + new.resultCount + j) = none
      rw [hnew.resultCount_eq, hback' _ (by omega), hidle j hj]
    · rw [hspares.place] at hpads
      have hend : ({ first := b₁.tape.valueCount, vector := b₁.tape.vectorCount } : Place)
          = { first := b.tape.valueCount + new.resultCount + idle.length
              vector := (b.tape.push new).vectorCount } := by
        rw [hvalues₁, hnew.resultCount_eq, hspares.tape, Tape.vectorCount_constants]
      exact hend ▸ hpads

end Numbered

theorem numbered_start (t : Tape V) :
    (start t).Numbered t (start t).value? (start t).value? where
  paired := by
    refine ⟨total_start t, lt_of_value?, fun hij => ?_, fun hij => ?_⟩
    · obtain ⟨-, rfl⟩ := value?_start.mp hij
      exact hij
    · obtain ⟨hlt, rfl⟩ := value?_start.mp hij
      exact hlt
  read _ _ _ := rfl
  vectors := keepsVectors_start t

end Rebuild

namespace Tape

variable [Scalar V] {t : Tape V} {r : Registry V} {live : Live} {kept : List (Action V)}

/-- Where nothing is left to fold and nothing is dead, folding succeeds, and puts in idle constants
only. -/
theorem KeepsAll.exists_foldConstants (hall : t.KeepsAll r live kept) (ht : t.WellFormed)
    (hfolded : t.Folded r) (hr : r.NeverFails) (hd : r.DerivesConstancy) :
    ∃ s value back, t.foldConstants r = .ok s ∧ t.Pads s value back := by
  have hplaced : ∀ x ∈ Usage.placed (Rebuild.start t).place t.body.toList, x ∈ t.placed := by
    rw [Rebuild.place_start]
    exact fun x hx => List.mem_cons_of_mem _ hx
  have hknown : t.firstKnown.size = (Rebuild.start t).values.size := by
    simp [firstKnown, Rebuild.start]
  obtain ⟨actions, b, value, back, ws, hwalk, hrun, htape, hplace, hb, hvalue, -, hpads⟩ :=
    (Rebuild.numbered_start t).exists_run (Known.reflects_firstKnown t) hknown hplaced ht hfolded
      hall hr hd
  have hgrows : (Tape.new t.indCount t.options).Grows b.tape := Rebuild.grows_of_run? hrun
  have hbody : b.tape.body.toList = ws := by
    rw [htape, body_foldl_push]
    simp [Rebuild.start, Tape.new]
  have hself (i : Nat) (hi : i < t.indCount + 1) : value i = some i := by
    have hsize : i < (Rebuild.start t).values.size := by simpa [Rebuild.start] using hi
    exact (hvalue i hsize).trans (Rebuild.value?_start.mpr ⟨hi, rfl⟩)
  have hsize : b.values.size = t.valueCount := by
    have hfirst := congrArg Place.first hplace
    rw [Rebuild.place_start] at hfirst
    exact hfirst.trans (congrArg Place.first t.foldl_past_usages)
  -- every dependent is read, so it stands where the table says
  obtain ⟨ds, hds⟩ := exists_mapM_some fun i hi =>
    hb.paired.total i (hsize ▸ ht.dependents i hi)
  have hfinish : b.finish? t.dependents = some { b.tape with deps := some ds } := by
    refine Rebuild.finish?_eq_some_iff.mpr ⟨ds, mapM_mono_of_some hds fun i hi j hij => ?_, ?_⟩
    · exact (hb.read i (hsize ▸ ht.dependents i hi) (.inl hi)).trans hij
    · refine setDependents?_eq_some_iff.mpr ⟨⟨hgrows.deps_eq, fun j hj => ?_⟩, rfl⟩
      obtain ⟨i, -, hij⟩ := exists_of_mem_mapM hds hj
      exact hb.paired.back_lt (hb.paired.inverse hij)
  refine ⟨_, value, back, bind_eq_ok_iff.mpr ⟨actions, hwalk, rebuild_eq_ok_iff.mpr
    ⟨by simpa using Known.length_of_walk hwalk, b, hrun, hfinish⟩⟩, hgrows.indCount_eq,
    hgrows.options_eq, ?_, hself _ (Nat.lt_succ_self _), fun i hi => hself i (Nat.lt_succ_of_lt hi),
    hb.paired.inverse, ds, hds, rfl⟩
  have hfirst : ({ b.tape with deps := some ds } : Tape V).firstPlace = t.firstPlace :=
    congrArg (fun n => ({ first := n + 1, vector := 0 } : Place)) hgrows.indCount_eq
  show Usage.Pads value back t.firstPlace _ t.body.toList b.tape.body.toList
  rw [hfirst, hbody]
  rw [Rebuild.place_start] at hpads
  exact hpads

end Tape

end OpTape
