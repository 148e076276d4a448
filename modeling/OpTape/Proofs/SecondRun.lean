import OpTape.Proofs.Embedding
import OpTape.Proofs.References
import OpTape.Proofs.Stability
/-
  Optimizing once more. The second run goes through: folding asks the functions that are left on
  the tape, which never fail, and puts in idle constants only, and joint answers pass the check of
  dropping dead code (`KeepsAll.exists_optimize`). What is needed behind it stands for usages of the
  tape, no two for the same one (`Reruns.exists_position`), so there are no more usages than before.
  There are fewer where two of the tape are equal or where one of its sums can be absorbed, and
  these are the only reasons: without them the run keeps all counts (`optimize_stable_iff`).
-/
namespace OpTape

variable {V : Type}

/-! ## Answers that pass the check -/

section

variable {r : Registry V} {options : Options} {family : Family} {id callId inputCount : Nat}
  {needed reads : List Bool} {f : Foreign V}

/-- The check comes to an end where each result is answered for. -/
theorem Live.exists_unsupported
    (h : ∀ j, ∃ single, r.dependence family id callId (onlyResult needed.length j) reads.length
      = .ok single) (js : List Nat) :
    ∃ found, unsupported r family id callId needed reads js = .ok found := by
  induction js with
  | nil => exact ⟨none, rfl⟩
  | cons j js ih =>
    obtain ⟨single, hsingle⟩ := h j
    obtain ⟨found, hfound⟩ := ih
    by_cases homitted : ∃ k : Nat, single.toList[k]? = some true ∧ reads[k]? = some false
    · exact ⟨some j, bind_eq_ok_iff.mpr ⟨single, hsingle, if_pos (any_zip_iff.mpr homitted)⟩⟩
    · refine ⟨found, bind_eq_ok_iff.mpr ⟨single, hsingle, ?_⟩⟩
      exact (if_neg fun h => homitted (any_zip_iff.mp h)).trans hfound

/-- Joint answers pass the check. -/
theorem Registry.NeverFails.exists_inputsRead (hr : r.NeverFails) (hj : r.JoinsAnswers)
    (hget : r.get family id = .ok f) : ∃ reads,
      Live.inputsRead r options family id callId needed inputCount = .ok reads := by
  obtain ⟨answer, hanswer⟩ := hr.exists_dependence hget callId needed inputCount
  have hsingles (j : Nat) : ∃ single, r.dependence family id callId (onlyResult needed.length j)
      answer.toList.length = .ok single := hr.exists_dependence hget callId _ _
  obtain ⟨found, hfound⟩ := Live.exists_unsupported hsingles
    ((List.range needed.length).filter (needed.getD · false))
  refine ⟨answer.toList, bind_eq_ok_iff.mpr ⟨answer, hanswer, ?_⟩⟩
  split
  · refine bind_eq_ok_iff.mpr ⟨found, hfound, ?_⟩
    cases found with
    | none => rfl
    | some j =>
      obtain ⟨hmem, single, hsingle, k, hone, hall⟩ :=
        Live.omitted_of_unsupported answer.length_toList hfound
      have hmark := (hj hanswer k).mpr
        ⟨j, Live.mem_needed.mp hmem, by rw [Registry.marks_of_dependence hsingle, hone]⟩
      cases hmark.symm.trans hall
  · rfl

end

/-! ## The run goes through -/

namespace Tape

variable [Scalar V] {t s s' t' : Tape V} {r : Registry V} {live : Live}
  {actions : List (Action V)} {name value : Nat → Option Nat} {position origin : Nat → Nat}
  {needed usage : Nat → Bool} {i j k l m : Nat} {p q : Place} {u w : Usage V}

omit [Scalar V] in
/-- Dropping dead code goes through where all functions are there, never fail and give joint
answers. -/
theorem WellFormed.exists_dropDead_of_answers (ht : t.WellFormed) (hr : r.NeverFails)
    (hj : r.JoinsAnswers)
    (hget : ∀ family id, .foreign family id ∈ t.references → ∃ f, r.get family id = .ok f) :
    ∃ t', t.dropDead r = .ok t' := by
  obtain ⟨⟨live, actions⟩, hlive⟩ : ∃ result, t.liveness r = .ok result := by
    refine Live.exists_sweep _ _ fun family id callId n inputs hmem needed _ => ?_
    obtain ⟨f, hf⟩ := hget family id (List.mem_filterMap.mpr ⟨_, hmem, rfl⟩)
    exact hr.exists_inputsRead hj hf
  exact ht.exists_dropDead hlive

/-- Functions that a tape without dead code calls are there. -/
theorem KeepsAll.exists_of_reference (hall : t.KeepsAll r live actions) (ht : t.WellFormed)
    {family : Family} {id : Nat} (href : .foreign family id ∈ t.references) :
    ∃ f, r.get family id = .ok f := by
  obtain ⟨u, hmem, hu⟩ := List.mem_filterMap.mp href
  cases u with
  | foreign =>
    cases hu
    obtain ⟨k, p, hp⟩ := exists_placed_of_mem (List.mem_cons_of_mem _ hmem)
    exact hall.exists_function ht hp
  | _ => cases hu

/-- Merging keeps dependents set. -/
theorem exists_deps_of_mergeEqual [DecidableEq V] {ds : List Nat} (hdeps : t.deps = some ds)
    (h : t.mergeEqual = .ok t') : ∃ ds', t'.deps = some ds' := by
  obtain ⟨_, m, deps, -, hmapped, rfl⟩ := mergeEqual_eq_ok_iff.mp h
  rw [hdeps] at hmapped
  obtain ⟨ds', -, hds'⟩ := Option.map_eq_some_iff.mp hmapped
  exact ⟨ds', hds'.symm⟩

/-- The second run: what stands between its passes, and what dropping dead code keeps in the end. -/
structure Reruns (t : Tape V) (r : Registry V) (s s' t' : Tape V) (name value : Nat → Option Nat)
    (position origin : Nat → Nat) (needed usage : Nat → Bool) : Prop where
  embeds : t.Embeds s name position
  wellFormed : s.WellFormed
  unfused : s.absorbable = [] → s' = s
  fuses : s.Fuses s' value origin
  solves : s'.LiveEquations r needed usage
  answered : s'.Answered r needed usage
  indCount_eq : t'.indCount = t.indCount
  dependents : t'.dependents.length = t.dependents.length
  footprints : t'.footprints = (s'.neededAt usage).map fun ((_, u), _) => u.footprint

/-- On a tape with nothing to fold and nothing dead the whole optimization goes through. -/
theorem KeepsAll.exists_optimize [DecidableEq V] (hall : t.KeepsAll r live actions)
    (ht : t.WellFormed) (hfolded : t.Folded r) (hr : r.NeverFails) (hd : r.DerivesConstancy)
    (hj : r.JoinsAnswers) : ∃ t' s s' name value position origin needed usage,
      t.optimize r = .ok t' ∧
        t.Reruns r s s' t' name value position origin needed usage := by
  obtain ⟨folded, table, back, hfold, hpads⟩ := hall.exists_foldConstants ht hfolded hr hd
  have hwellFormed := wellFormed_of_foldConstants hfold
  obtain ⟨s, hmerge⟩ := hwellFormed.exists_mergeEqual
  have hs := hwellFormed.mergeEqual hmerge
  obtain ⟨merged, hmerges⟩ := merges_of_mergeEqual hmerge
  obtain ⟨position, hembeds⟩ := embeds_of_pads hpads hmerges
  obtain ⟨s', hfuse⟩ := hs.exists_fuseSums
  have hs' : s'.WellFormed := rebuild_wellFormed hfuse
  obtain ⟨value, origin, hfuses⟩ := fuses_of_fuseSums hs hfuse
  obtain ⟨t', hdrop⟩ := hs'.exists_dropDead_of_answers hr hj fun family id href =>
    hall.exists_of_reference ht (references_of_foldConstants hfold
      (references_of_mergeEqual hmerge ▸ references_of_rebuild hfuse href))
  obtain ⟨live', actions', _, _, hlive, hpart⟩ := hs'.neededPart_of_dropDead hdrop
  have hoptimize := optimize_eq_ok_iff.mpr ⟨folded, hfold, s, hmerge, s', hfuse, hdrop⟩
  have hhanded := (PassesTo.optimize hoptimize).handsOn
  have hunfused (hnone : s.absorbable = []) : s' = s := by
    obtain ⟨actions, hrebuild⟩ := exists_rebuild_of_foldConstants hfold
    obtain ⟨ds, hdeps⟩ := rebuild_deps hrebuild
    obtain ⟨ds', hdeps'⟩ := exists_deps_of_mergeEqual hdeps hmerge
    exact Except.ok.inj (hfuse.symm.trans (hs.fuseSums_of_none hdeps' hnone))
  exact ⟨t', s, s', _, value, position, origin, _, _, hoptimize, hembeds, hs, hunfused, hfuses,
    hs'.liveEquations hlive, hs'.answered_of_liveness hlive, hhanded.indCount, hhanded.dependents,
    hpart.footprints_eq⟩

/-! ## What is needed -/

namespace Reruns

variable (h : t.Reruns r s s' t' name value position origin needed usage) (ht : t.WellFormed)
include h ht

/-- What is needed in the end stands for a value of the tape. -/
theorem exists_name (hi : i < s'.valueCount) (hneeded : needed i = true) :
    ∃ l < t.valueCount, ∃ j, name l = some j ∧ value j = some i := by
  have hread (hi : s'.IsRead i) : ∃ l < t.valueCount, ∃ j, name l = some j ∧ value j = some i := by
    obtain ⟨j, hji, hj⟩ := h.fuses.exists_isRead hi
    obtain ⟨l, hl, hlj⟩ := h.embeds.exists_name ht hj
    exact ⟨l, hl, j, hlj, hji⟩
  rcases (h.solves.values i hi).mp hneeded with hdep | rfl | ⟨k, p, u, hk, -, hmem⟩
  · exact hread (.inl hdep)
  · have hzero : s.zeroIndex = t.zeroIndex := h.embeds.indCount_eq
    have hzero' : s'.zeroIndex = s.zeroIndex := h.fuses.indCount_eq
    exact ⟨t.zeroIndex, t.zeroIndex_lt, t.zeroIndex, h.embeds.zero, by
      rw [hzero', ← hzero, h.fuses.zero]⟩
  · exact hread (.inr ⟨u, mem_usages_of_placed hk, Usage.mem_reads_of_mem_needs hmem⟩)

/-- What is needed in the end stands for a usage of the tape. -/
theorem exists_position (hk : s'.placed[k]? = some (p, u)) (husage : usage k = true) :
    ∃ l < t.placed.length, Usage.ReadFrom s.placed (origin k) (position l) := by
  obtain ⟨q, w, hl, -, hfused, hvalue⟩ := h.fuses.placed hk
  cases hmerge : u.isMergeable with
  | false =>
    have hw : w.isMergeable = false := hfused.isMergeable_eq.symm.trans hmerge
    obtain ⟨l, hlt, hposition⟩ := h.embeds.eq_position_of_not hl hw
    exact ⟨l, hlt, .self (hposition ▸ hl) hw hposition.symm⟩
  | true =>
    obtain ⟨j, hj, hneeded⟩ : ∃ j < u.resultCount, needed (p.first + j) = true := by
      rcases Nat.eq_zero_or_pos k with rfl | hpos
      · obtain ⟨rfl, rfl⟩ := Prod.mk.inj (Option.some.inj (s'.placed_zero.symm.trans hk))
        exact ⟨0, Nat.one_pos, (h.solves.values _ s'.zeroIndex_lt).mpr (.inr (.inl rfl))⟩
      · exact (Usage.isWanted_iff_of_isMergeable hmerge).mp
          ((h.solves.usages hpos hk).mp husage)
    have hle := results_le hk
    obtain ⟨i, hi, i', hname, hi'⟩ := h.exists_name ht (by omega) hneeded
    rw [hfused.resultCount_eq] at hj
    obtain rfl := h.fuses.injective hi' (hvalue j hj)
    obtain ⟨l, _, _, hl', hfrom, -⟩ := h.embeds.exists_readFrom hl hj hi hname
    exact ⟨l, (List.getElem?_eq_some_iff.mp hl').1, hfrom⟩

omit ht in
/-- No more usages are needed than there are positions for what they stand for. -/
theorem ops_le_length {positions : List Nat}
    (hpositions : ∀ {k : Nat} {p : Place} {u : Usage V}, s'.placed[k]? = some (p, u) →
      usage k = true → ∃ l ∈ positions, Usage.ReadFrom s.placed (origin k) (position l)) :
    t'.stats.ops ≤ positions.length := by
  have hsubperm : ((s'.neededAt usage).map fun _ => ()).Subperm (positions.map fun _ => ()) := by
    refine subperm_map_of_relation
      (R := fun a l => Usage.ReadFrom s.placed (origin a.2) (position l))
      (s'.nodup_neededAt usage) ?_ ?_
    · rintro ⟨⟨p, u⟩, k⟩ hmem
      obtain ⟨hk, husage⟩ := mem_neededAt.mp hmem
      obtain ⟨l, hl, hfrom⟩ := hpositions hk husage
      exact ⟨l, hl, hfrom, rfl⟩
    · rintro ⟨⟨p, u⟩, k⟩ hmem ⟨⟨p', u'⟩, k'⟩ hmem' l hfrom hfrom'
      obtain rfl : k = k' := h.fuses.origin_injective (hfrom.unique hfrom')
      rw [Option.some.inj ((mem_neededAt.mp hmem).1.symm.trans (mem_neededAt.mp hmem').1)]
  rw [stats_ops, h.footprints, List.length_map]
  simpa using hsubperm.length_le

/-! ## The counts -/

theorem ops_le : t'.stats.ops ≤ t.stats.ops := by
  have hle : t'.stats.ops ≤ (List.range t.placed.length).length := by
    refine h.ops_le_length fun hk husage => ?_
    obtain ⟨l, hl, hfrom⟩ := h.exists_position ht hk husage
    exact ⟨l, List.mem_range.mpr hl, hfrom⟩
  rwa [List.length_range, ← List.length_map, ← footprints_placed, ← stats_ops] at hle

/-- There are fewer usages where none is needed for the one at some position. -/
theorem ops_lt (hk : k < t.placed.length)
    (havoid : ∀ {l : Nat} {q : Place} {w : Usage V}, s'.placed[l]? = some (q, w) →
      Usage.ReadFrom s.placed (origin l) (position k) →
      ∃ m < t.placed.length, m ≠ k ∧ Usage.ReadFrom s.placed (origin l) (position m)) :
    t'.stats.ops < t.stats.ops := by
  have hle : t'.stats.ops ≤ ((List.range t.placed.length).erase k).length := by
    refine h.ops_le_length fun hl husage => ?_
    obtain ⟨m, hm, hne, hfrom⟩ : ∃ m < t.placed.length, m ≠ k ∧
        Usage.ReadFrom s.placed (origin _) (position m) := by
      obtain ⟨m, hm, hfrom⟩ := h.exists_position ht hl husage
      by_cases hsame : m = k
      · exact havoid hl (hsame ▸ hfrom)
      · exact ⟨m, hm, hsame, hfrom⟩
    exact ⟨m, (List.mem_erase_of_ne hne).mpr (List.mem_range.mpr hm), hfrom⟩
  rw [List.length_erase_of_mem (List.mem_range.mpr hk), List.length_range] at hle
  rw [stats_ops t, footprints_placed, List.length_map]
  omega

/-- Of equal usages one is left. -/
theorem ops_lt_of_not_nodup (hcopies : ¬ (Usage.keys t.usages).Nodup) :
    t'.stats.ops < t.stats.ops := by
  rw [nodup_keys_iff] at hcopies
  push Not at hcopies
  obtain ⟨k, l, p, q, u, w, hk, hl, hu, heq, hne⟩ := hcopies
  refine h.ops_lt ht (List.getElem?_eq_some_iff.mp hl).1 fun _ hfrom => ?_
  exact ⟨k, (List.getElem?_eq_some_iff.mp hk).1, hne,
    h.embeds.readFrom_of_ordered_eq hl hk hu heq hfrom⟩

variable (hnodup : (Usage.keys t.usages).Nodup)
include hnodup

/-- A sum that can be absorbed is absorbed. -/
theorem ops_lt_of_mem_absorbable (hmem : (p, u) ∈ t.absorbable) :
    t'.stats.ops < t.stats.ops := by
  obtain ⟨hplaced, hadds, -⟩ := mem_absorbable.mp hmem
  obtain ⟨k, hk⟩ := List.mem_iff_getElem?.mp hplaced
  have hself := h.embeds.readFrom_self ht hnodup hk (Usage.kind_ne_constant_of_isAdditive hadds)
  obtain ⟨q, w, hl, -⟩ := h.embeds.placed hk
  refine h.ops_lt ht (List.getElem?_eq_some_iff.mp hk).1 fun {m q' w'} hm hfrom => ?_
  -- nothing stands for the sum any more
  obtain ⟨a, x, horigin, hnot, -⟩ := h.fuses.placed hm
  have hsame := h.embeds.mem_absorbable_iff ht hnodup hk
    (hfrom.unique hself ▸ horigin : s.placed[position k]? = some (a, x))
  exact absurd (hsame.mpr hmem) hnot

/-- Where nothing can be absorbed either, the counts are the same. -/
theorem stats_eq (hnone : t.absorbable = []) (hr : r.JoinsAnswers) (hdrop : t.dropDead r = .ok t) :
    t'.stats = t.stats := by
  obtain ⟨live, actions, _, _, hlive, hpart⟩ := ht.neededPart_of_dropDead hdrop
  obtain rfl := h.unfused (h.embeds.absorbable_eq_nil ht hnodup hnone)
  have hsubperm : t.footprints.Subperm t'.footprints := by
    rw [hpart.footprints_eq, h.footprints]
    exact h.embeds.subperm_neededAt ht hnodup h.wellFormed hr (ht.liveEquations hlive) h.solves
      h.answered
  have hlength : t'.footprints.length ≤ t.footprints.length := by
    rw [← stats_ops, ← stats_ops]
    exact h.ops_le ht
  exact stats_eq_of_perm h.indCount_eq h.dependents (hsubperm.perm_of_length_le hlength).symm

end Reruns

/-! ## Optimizing twice -/

/-- An optimized tape can be optimized again, if functions never fail, leave it to dependence which
results are constant, and give joint answers for several results. The second run keeps all counts
just if no two usages of the optimized tape are equal, up to the order of two operands, and none of
its sums can be absorbed by its one reader. A run that changes the counts leaves fewer usages. -/
theorem optimize_stable_iff [DecidableEq V] (hr : r.NeverFails) (hd : r.DerivesConstancy)
    (hj : r.JoinsAnswers) (h : t.optimize r = .ok t') : ∃ t'', t'.optimize r = .ok t'' ∧
      (t''.stats = t'.stats ↔ (Usage.keys t'.usages).Nodup ∧ t'.absorbable = []) ∧
      (t''.stats ≠ t'.stats → t''.stats.ops < t'.stats.ops) := by
  obtain ⟨folded, hfold, merged, hmerge, fused, hfuse, hdrop⟩ := optimize_eq_ok_iff.mp h
  have hmerged := (wellFormed_of_foldConstants hfold).mergeEqual hmerge
  have hfused : fused.WellFormed := rebuild_wellFormed hfuse
  obtain ⟨_, hrebuild⟩ := exists_rebuild_of_dropDead hdrop
  have ht' : t'.WellFormed := rebuild_wellFormed hrebuild
  obtain ⟨live, kept, hall⟩ := hfused.keepsAll_of_dropDead hdrop
  -- no pass behind folding brings anything to fold
  obtain ⟨table, hmerges⟩ := merges_of_mergeEqual hmerge
  obtain ⟨value, origin, hfuses⟩ := fuses_of_fuseSums hmerged hfuse
  have hfolded := hfuses.folded (hmerges.folded (folded_of_foldConstants hd hfold))
  obtain ⟨t'', _, _, _, _, _, _, _, _, hoptimize, hagain⟩ :=
    hall.exists_optimize ht' (hfolded.dropDead hfused hj hdrop) hr hd hj
  have hsame (hnodup : (Usage.keys t'.usages).Nodup) (hnone : t'.absorbable = []) :
      t''.stats = t'.stats :=
    hagain.stats_eq ht' hnodup hnone hj (hfused.dropDead_of_dropDead hdrop)
  have hless (h : ¬ ((Usage.keys t'.usages).Nodup ∧ t'.absorbable = [])) :
      t''.stats.ops < t'.stats.ops := by
    by_cases hnodup : (Usage.keys t'.usages).Nodup
    · obtain ⟨⟨p, u⟩, hmem⟩ := List.exists_mem_of_ne_nil _ fun hnone => h ⟨hnodup, hnone⟩
      exact hagain.ops_lt_of_mem_absorbable ht' hnodup hmem
    · exact hagain.ops_lt_of_not_nodup ht' hnodup
  refine ⟨t'', hoptimize, ⟨fun heq => ?_, fun h => hsame h.1 h.2⟩, fun hne => ?_⟩
  · by_contra hnot
    exact absurd (congrArg Stats.ops heq) (Nat.ne_of_lt (hless hnot))
  · exact hless fun hcond => hne (hsame hcond.1 hcond.2)

/-- The first result is a constant, which is put behind the call. -/
def relayedFolded : Tape Float :=
  { (((new 1 {}).push (.constant 2)).push (.foreign .call 0 0 2 [2, 0])).push (.constant 2)
    with deps := some [5, 4] }

/-- The constant in front of the call serves for it, and the call hands on zero in its place. -/
def relayedMerged : Tape Float :=
  { ((new 1 {}).push (.constant 2)).push (.foreign .call 0 0 2 [1, 0]) with deps := some [2, 4] }

theorem optimize_stable_iff_relayed : relayed.Reachable ∧
    (Registry.relaying : Registry Float).NeverFails ∧
    (Registry.relaying : Registry Float).DerivesConstancy ∧
    (Registry.relaying : Registry Float).JoinsAnswers ∧
    relayed.optimize .relaying = .ok relayedMerged ∧
    relayedMerged.foldConstants .relaying
      = .ok (relayedMerged.push (.constant Scalar.zero)) ∧
    relayedMerged.optimize .relaying = .ok relayedMerged ∧
    (Usage.keys relayedMerged.usages).Nodup ∧ relayedMerged.absorbable = [] := by
  have hreachable : relayed.Reachable :=
    (((Reachable.new 1 {}).push (by decide)).push (by decide)).withDependents rfl (by decide)
  have honce : relayed.optimize .relaying = .ok relayedMerged :=
    optimize_eq_ok_iff.mpr ⟨relayedFolded, by with_unfolding_all rfl,
      { relayedFolded with deps := some [2, 4] }, by with_unfolding_all rfl,
      { relayedFolded with deps := some [2, 4] }, by with_unfolding_all rfl,
      by with_unfolding_all rfl⟩
  have hidle : relayedMerged.foldConstants .relaying
      = .ok (relayedMerged.push (.constant Scalar.zero)) := by with_unfolding_all rfl
  have htwice : relayedMerged.optimize .relaying = .ok relayedMerged :=
    optimize_eq_ok_iff.mpr ⟨relayedMerged.push (.constant Scalar.zero), hidle,
      relayedMerged.push (.constant Scalar.zero), by with_unfolding_all rfl,
      relayedMerged.push (.constant Scalar.zero), by with_unfolding_all rfl,
      by with_unfolding_all rfl⟩
  obtain ⟨t'', hagain, hstats, -⟩ := optimize_stable_iff Registry.relaying_neverFails
    Registry.relaying_derivesConstancy Registry.relaying_joinsAnswers honce
  obtain rfl := Except.ok.inj (htwice.symm.trans hagain)
  exact ⟨hreachable, Registry.relaying_neverFails, Registry.relaying_derivesConstancy,
    Registry.relaying_joinsAnswers, honce, hidle, htwice, hstats.mp rfl⟩

/-- The sum has two readers, and one of them is dead. -/
def readTwice : Tape Float :=
  { (((new 2 {}).push (.binary .add 0 1)).push (.unary .exp 3)).push (.binary .sub 3 0)
    with deps := some [5] }

/-- The dead reader still counted when sums were fused. It is gone now. -/
def readOnce : Tape Float :=
  { ((new 2 {}).push (.binary .add 0 1)).push (.binary .sub 3 0) with deps := some [4] }

/-- The sum is absorbed by the reader that was left. -/
def readNoMore : Tape Float :=
  { (new 2 {}).push (.sum [0, 1] [0]) with deps := some [3] }

/-- One run of all passes does not reach a fixed point: readers are counted before the dead ones are
dropped. -/
theorem optimize_not_stable_readTwice : readTwice.Reachable ∧
    (Registry.relaying : Registry Float).NeverFails ∧
    (Registry.relaying : Registry Float).DerivesConstancy ∧
    (Registry.relaying : Registry Float).JoinsAnswers ∧
    readTwice.optimize .relaying = .ok readOnce ∧
    readOnce.optimize .relaying = .ok readNoMore ∧ readNoMore.stats ≠ readOnce.stats := by
  have hreachable : readTwice.Reachable :=
    ((((Reachable.new 2 {}).push (by decide)).push (by decide)).push (by decide)).withDependents
      rfl (by decide)
  have honce : readTwice.optimize .relaying = .ok readOnce :=
    optimize_eq_ok_iff.mpr ⟨readTwice, by with_unfolding_all rfl, readTwice,
      by with_unfolding_all rfl, readTwice, by with_unfolding_all rfl, by with_unfolding_all rfl⟩
  have htwice : readOnce.optimize .relaying = .ok readNoMore :=
    optimize_eq_ok_iff.mpr ⟨readOnce, by with_unfolding_all rfl, readOnce,
      by with_unfolding_all rfl, readNoMore, by with_unfolding_all rfl,
      by with_unfolding_all rfl⟩
  have hops : readNoMore.stats.ops = 2 ∧ readOnce.stats.ops = 3 := ⟨rfl, rfl⟩
  exact ⟨hreachable, Registry.relaying_neverFails, Registry.relaying_derivesConstancy,
    Registry.relaying_joinsAnswers, honce, htwice, fun heq => by
      have hsame := congrArg Stats.ops heq
      omega⟩

end Tape

end OpTape
