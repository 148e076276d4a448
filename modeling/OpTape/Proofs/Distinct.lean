import OpTape.Proofs.Repetition
import OpTape.Proofs.Sourcing
/-
  Deduplication is done after one run. Nothing on the merged tape reads a later copy of a usage
  (`Merges.value_of_needed`), so every later copy is dead there and is dropped with the dead code.
  Renaming what is left makes no two usages equal that were not (`Usage.Renames.ordered_eq`), so the
  next run finds nothing to merge and, by `WellFormed.dropDead_of_dropDead`, nothing to drop.
-/
namespace OpTape

variable {V : Type}

namespace Usage

/-- Identical, or identical once the operands of a commutative operator are exchanged. -/
def IsCopy (u w : Usage V) : Prop :=
  u = w ∨ ∃ op x y, op.isCommutative = true ∧ u = .binary op x y ∧ w = .binary op y x

section

variable {value vector : Nat → Option Nat} {n m zeroIndex : Nat} {u u' w w' v : Usage V}
  {action action' : Action V}

/-- A usage is the renamed form of one usage only. -/
theorem Renames.source_unique (hvalue : InjectiveBelow value n) (hvector : InjectiveBelow vector m)
    (hu : Renames value vector u v) (hw : Renames value vector w v) (hfits : u.Fits n m)
    (hfits' : w.Fits n m) : u = w := by
  have hone {i i' j : Nat} (hi : i ∈ u.reads) (hi' : i' ∈ w.reads) (h : value i = some j)
      (h' : value i' = some j) : i = i' := hvalue (hfits.1 i hi) (hfits'.1 i' hi') h h'
  have hlist {xs ys zs : List Nat} (hxs : ∀ i ∈ xs, i ∈ u.reads) (hys : ∀ i ∈ ys, i ∈ w.reads)
      (h : xs.mapM value = some zs) (h' : ys.mapM value = some zs) : xs = ys :=
    hvalue.map_inj (fun i hi => hfits.1 i (hxs i hi)) (fun i hi => hfits'.1 i (hys i hi)) h h'
  have hwhich {a a' b : Nat} (ha : a ∈ u.vector?) (ha' : a' ∈ w.vector?) (h : vector a = some b)
      (h' : vector a' = some b) : a = a' := hvector (hfits.2 a ha) (hfits'.2 a' ha') h h'
  simp only [reads, args, initials] at hone hlist
  cases hu with
  | constant =>
    cases hw
    rfl
  | unary hx =>
    cases hw with
    | unary hx' => rw [hone (by simp) (by simp) hx hx']
  | binary hx hy =>
    cases hw with
    | binary hx' hy' => rw [hone (by simp) (by simp) hx hx', hone (by simp) (by simp) hy hy']
  | discrete hx =>
    cases hw with
    | discrete hx' => rw [hone (by simp) (by simp) hx hx']
  | compare hx hy =>
    cases hw with
    | compare hx' hy' => rw [hone (by simp) (by simp) hx hx', hone (by simp) (by simp) hy hy']
  | select hx hy ha hb =>
    cases hw with
    | select hx' hy' ha' hb' =>
      rw [hone (by simp) (by simp) hx hx', hone (by simp) (by simp) hy hy',
        hone (by simp) (by simp) ha ha', hone (by simp) (by simp) hb hb']
  | sum hadd hsub =>
    cases hw with
    | sum hadd' hsub' =>
      rw [hlist (by simp +contextual) (by simp +contextual) hadd hadd',
        hlist (by simp +contextual) (by simp +contextual) hsub hsub']
  | vector h =>
    cases hw with
    | vector h' => rw [hlist (by simp) (by simp) h h']
  | load hv hx =>
    cases hw with
    | load hv' hx' => rw [hwhich rfl rfl hv hv', hone (by simp) (by simp) hx hx']
  | store hv hx hy =>
    cases hw with
    | store hv' hx' hy' =>
      rw [hwhich rfl rfl hv hv', hone (by simp) (by simp) hx hx',
        hone (by simp) (by simp) hy hy']
  | print hx hy =>
    cases hw with
    | print hx' hy' => rw [hone (by simp) (by simp) hx hx', hone (by simp) (by simp) hy hy']
  | foreign h =>
    cases hw with
    | foreign h' => rw [hlist (by simp) (by simp) h h']

/-- Equal usages are renamed forms of equal usages. -/
theorem Renames.ordered_eq (hvalue : InjectiveBelow value n) (hvector : InjectiveBelow vector m)
    (hu : Renames value vector u u') (hw : Renames value vector w w') (hfits : u.Fits n m)
    (hfits' : w.Fits n m) (h : u'.ordered = w'.ordered) : u.ordered = w.ordered := by
  rcases ordered_eq_iff.mp h with rfl | ⟨op, x, y, hop, rfl, rfl⟩
  · rw [hu.source_unique hvalue hvector hw hfits hfits']
  · cases hw with
    | @binary _ a b _ _ ha hb =>
      have hfits'' : Usage.Fits n m (.binary op b a : Usage V) :=
        ⟨fun i hi => hfits'.1 i (by simpa [reads, args, initials, or_comm] using hi), hfits'.2⟩
      rw [hu.source_unique hvalue hvector (.binary hb ha) hfits hfits'']
      exact ordered_eq_iff.mpr (.inr ⟨op, b, a, hop, rfl, rfl⟩)

/-- A usage that can be merged is needed for its results. -/
theorem isWanted_iff_of_isMergeable {options : Options} {zeroIndex : Nat}
    {placed : List (Place × Usage V)} {needed usage : Nat → Bool} {k : Nat} {p : Place}
    (hu : u.isMergeable = true) : u.IsWanted options zeroIndex placed needed usage k p ↔
      ∃ j < u.resultCount, needed (p.first + j) = true := by
  cases u with
  | compare | print | vector | store => cases hu
  | _ => exact Iff.rfl

end

end Usage

/-! ## Later copies -/

namespace Tape

section

variable [Scalar V] {t t' d : Tape V} {r : Registry V} {value : Nat → Option Nat}
  {needed usage : Nat → Bool}

/-- What is needed on the merged tape is the first of its equals. -/
theorem Merges.value_of_needed (h : t.Merges t' value) (hsol : t'.LiveEquations r needed usage)
    {i : Nat} (hi : i < t'.valueCount) (hneeded : needed i = true) : value i = some i := by
  rcases (hsol.values i hi).mp hneeded with hdep | hzero | ⟨k, p, u', hk, -, hmem⟩
  · obtain ⟨i₀, -, hi₀⟩ := exists_of_mem_mapM h.dependents hdep
    exact h.settled hi₀
  · have hzeroIndex : i = t.zeroIndex := hzero.trans h.indCount_eq
    exact hzeroIndex ▸ h.zero
  · obtain ⟨u, -, hu⟩ := h.placed hk
    obtain ⟨i₀, -, hi₀⟩ := hu.exists_of_mem_reads (Usage.mem_reads_of_mem_needs hmem)
    exact h.settled hi₀

/-- Nothing needs a later copy of a usage that can be merged. -/
theorem Merges.usage_of_later (h : t.Merges t' value) (hsol : t'.LiveEquations r needed usage)
    {k l : Nat} {p q : Place} {u w : Usage V} (hkl : k < l) (hk : t'.placed[k]? = some (p, u))
    (hl : t'.placed[l]? = some (q, w)) (hw : w.isMergeable = true) (heq : u.ordered = w.ordered) :
    usage l = false := by
  rw [← Bool.not_eq_true]
  intro husage
  obtain ⟨j, hj, hneeded⟩ := (Usage.isWanted_iff_of_isMergeable hw).mp
    ((hsol.usages (Nat.zero_lt_of_lt hkl) hl).mp husage)
  have hle := results_le hl
  exact h.ne_self hkl hk hl hw heq hj (h.value_of_needed hsol (by omega) hneeded)

/-- No two usages that can be merged are equal once the dead copies are gone. -/
theorem Merges.nodup_keys_of_dropDead (h : t.Merges t' value) (ht' : t'.WellFormed)
    (hforeign : ∀ u ∈ t'.usages, ∀ family, u.kind ≠ .foreign family)
    (hdrop : t'.dropDead r = .ok d) : (Usage.keys d.usages).Nodup := by
  obtain ⟨live, actions, hsweep, hrebuild⟩ := dropDead_eq_ok hdrop
  obtain ⟨name, vector, hselection⟩ := selection_of_rebuild hsweep hrebuild
  have hsolution := ht'.liveEquations hsweep
  have hrenames {k : Nat} {p : Place} {u u' : Usage V} {action : Action V}
      (hk : t'.placed[k]? = some (p, u)) (hu : Usage.Kept t'.zeroIndex name vector u action u') :
      u ∈ t'.usages ∧ Usage.Renames name vector u u' := by
    have hmem : u ∈ t'.usages := mem_usages_of_placed hk
    cases hu with
    | copy hu => exact ⟨hmem, hu⟩
    | rebind => exact absurd rfl (hforeign _ hmem _)
  rw [Usage.keys, List.Nodup, List.pairwise_map, List.pairwise_filter]
  refine hselection.usages.pairwise fun hkl hk hl _ haction' hkept hkept' _ hmerge heq => ?_
  obtain ⟨hmem, hu⟩ := hrenames hk hkept
  obtain ⟨hmem', hw⟩ := hrenames hl hkept'
  have hsame := hu.ordered_eq hselection.value_injective hselection.vector_injective hw
    (ht'.fits_of_mem hmem) (ht'.fits_of_mem hmem') heq
  have hdead := h.usage_of_later hsolution hkl hk hl (hw.isMergeable_eq ▸ hmerge) hsame
  rw [keptAt_of_getElem? haction', hkept'.isKept] at hdead
  cases hdead

end

variable [Scalar V] [DecidableEq V] {t : Tape V}

/-- Without registered functions deduplication succeeds and is done after one run: doing it again
gives the same tape, on which merging alone finds nothing either, because no two usages with results
are identical there, loads apart, even when the operands of sums and products are exchanged. -/
theorem deduplicate_idempotent (ht : t.Reachable) (r : Registry V)
    (hforeign : ∀ u ∈ t.body.toList, ∀ family, u.kind ≠ .foreign family) :
    ∃ t', t.deduplicate r = .ok t' ∧ t'.deduplicate r = .ok t' ∧ t'.mergeEqual = .ok t' ∧
      t'.usages.Pairwise fun u w => u.resultCount ≠ 0 → u.kind ≠ .load → ¬ u.IsCopy w := by
  obtain ⟨merged, hmerge⟩ := ht.wellFormed.exists_mergeEqual
  have hmerged := ht.wellFormed.mergeEqual hmerge
  obtain ⟨value, hmerges⟩ := merges_of_mergeEqual hmerge
  have hnone : ∀ u ∈ merged.usages, ∀ family, u.kind ≠ .foreign family := by
    intro u hu family hkind
    obtain ⟨v, hv, hsame⟩ := hmerges.exists_of_mem hu
    rcases List.mem_cons.mp hv with rfl | hv
    · cases hsame.symm.trans hkind
    · exact hforeign v hv family (hsame.symm.trans hkind)
  obtain ⟨result, hsweep⟩ : ∃ result, merged.liveness r = .ok result :=
    Live.exists_sweep _ _ fun family _ _ _ _ hmem =>
      absurd rfl (hnone _ (List.mem_cons_of_mem _ hmem) family)
  obtain ⟨t', hdrop⟩ := hmerged.exists_dropDead hsweep
  obtain ⟨actions, hrebuild⟩ := exists_rebuild_of_dropDead hdrop
  have hnodup := hmerges.nodup_keys_of_dropDead hmerged hnone hdrop
  have hfixed := (rebuild_wellFormed hrebuild).mergeEqual_of_nodup hnodup
  refine ⟨t', deduplicate_eq_ok_iff.mpr ⟨_, hmerge, hdrop⟩,
    deduplicate_eq_ok_iff.mpr ⟨t', hfixed, hmerged.dropDead_of_dropDead hdrop⟩, hfixed, ?_⟩
  rw [Usage.keys, List.Nodup, List.pairwise_map, List.pairwise_filter] at hnodup
  refine hnodup.imp fun {u w} hne hcount hload hcopy => ?_
  have hu : u.isMergeable = true := by
    cases u with
    | load => exact absurd rfl hload
    | _ => exact bne_iff_ne.mpr hcount
  have heq := Usage.ordered_eq_iff.mpr hcopy
  exact hne hu (Usage.isMergeable_of_ordered_eq heq ▸ hu) heq

/-- The sums and products of `turnedRound`, all turned the same way. -/
def turnedAlike : Tape Float :=
  let sums := ((new 2 {}).push (.binary .add 0 1)).push (.binary .add 1 0)
  { (sums.push (.binary .mul 3 0)).push (.binary .mul 0 3) with deps := some [5, 5] }

/-- One sum and one product are left. -/
def turnedOnce : Tape Float :=
  { ((new 2 {}).push (.binary .add 0 1)).push (.binary .mul 3 0) with deps := some [4, 4] }

theorem deduplicate_idempotent_turnedRound : turnedRound.Reachable ∧
    (∀ u ∈ turnedRound.body.toList, ∀ family, u.kind ≠ .foreign family) ∧
    turnedRound.deduplicate {} = .ok turnedOnce ∧ turnedOnce.deduplicate {} = .ok turnedOnce ∧
    turnedOnce.mergeEqual = .ok turnedOnce := by
  have hreachable : turnedRound.Reachable :=
    ((((Reachable.new 2 {}).push (by decide)).push (by decide)).push (by decide)).push
      (by decide) |>.withDependents rfl (by decide)
  have hforeign : ∀ u ∈ turnedRound.body.toList, ∀ family, u.kind ≠ .foreign family := by
    simp [turnedRound, new, Usage.kind]
  have hmerge : turnedRound.mergeEqual = .ok turnedAlike := by with_unfolding_all rfl
  have hdrop : turnedAlike.dropDead {} = .ok turnedOnce := by with_unfolding_all rfl
  have hfirst : turnedRound.deduplicate {} = .ok turnedOnce :=
    deduplicate_eq_ok_iff.mpr ⟨turnedAlike, hmerge, hdrop⟩
  obtain ⟨t', hdedup, hagain, hsame, -⟩ := deduplicate_idempotent hreachable {} hforeign
  obtain rfl := Except.ok.inj (hfirst.symm.trans hdedup)
  exact ⟨hreachable, hforeign, hfirst, hagain, hsame⟩

end Tape

end OpTape
