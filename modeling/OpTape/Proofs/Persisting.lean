import OpTape.Proofs.Folded
/-
  What stays folded. On a tape that is left of a folded one, no new name is a constant that the old
  value was not (`IsNeededPart.holdsConstant`), so a usage that was folded is folded there. A result
  of a registered function that is read there was read before, and was needed; the answer for all
  needed results marks what the answer for this one does (`Registry.JoinsAnswers`), so the input
  that is not constant is not bound to zero. Merging equal usages keeps constants apart from other
  values (`Merges.holdsConstant`), so it keeps a tape folded as well.
-/
namespace OpTape

variable {V : Type}

theorem exists_of_forall₂ {α β : Type} {R : α → β → Prop} {xs : List α} {ys : List β} {y : β}
    (h : List.Forall₂ R xs ys) (hy : y ∈ ys) : ∃ x ∈ xs, R x y := by
  induction h with
  | nil => cases hy
  | cons hR _ ih =>
    rcases List.mem_cons.mp hy with rfl | hy
    · exact ⟨_, List.mem_cons_self, hR⟩
    · obtain ⟨x, hx, hxy⟩ := ih hy
      exact ⟨x, List.mem_cons_of_mem _ hx, hxy⟩

namespace Tape

variable [Scalar V] {t t' : Tape V} {r : Registry V} {needed usage : Nat → Bool}
  {value vector : Nat → Option Nat} {i j k : Nat} {p : Place} {u : Usage V} {v : V}

/-! ## Dropping dead code -/

namespace IsNeededPart

/-- Every usage of the new tape is left of a needed one. -/
theorem source (h : t.IsNeededPart r needed usage t' value vector)
    (hk : t'.placed[k]? = some (p, u)) : ∃ (l : Nat) (q : Place) (w : Usage V),
      t.placed[l]? = some (q, w) ∧ usage l = true ∧
      w.Carried r needed t.zeroIndex value vector q.first u ∧
      ∀ j < w.resultCount, value (q.first + j) = some (p.first + j) := by
  obtain ⟨⟨⟨q, w⟩, l⟩, hmem, hcarried, hvalue, -⟩ :=
    exists_of_forall₂ h.usages (List.mem_of_getElem? hk)
  obtain ⟨hl, husage⟩ := mem_neededAt.mp hmem
  exact ⟨l, q, w, hl, husage, hcarried, hvalue⟩

variable (h : t.IsNeededPart r needed usage t' value vector)
  (hinj : InjectiveBelow value t.valueCount)
include h hinj

/-- A new name is a constant only where the old value was. -/
theorem holdsConstant (hi : i < t.valueCount) (hij : value i = some j)
    (hj : t'.HoldsConstant j v) : t.HoldsConstant i v := by
  obtain ⟨k, p, hk, rfl⟩ := hj
  obtain ⟨l, q, w, hl, -, hcarried, hvalue⟩ := h.source hk
  cases hcarried with
  | renamed hkind hw =>
    cases hw
    have hle := results_le hl
    have hfirst := hvalue 0 Nat.one_pos
    exact ⟨l, q, hl, hinj (Nat.lt_of_lt_of_le (Nat.lt_succ_self _) hle) hi hfirst hij⟩

variable (ht : t.WellFormed) (hsol : t.LiveEquations r needed usage)
include ht hsol

omit hinj in
/-- What is read on the new tape, apart from zero, was needed and read. -/
theorem needed_of_isRead (hj : t'.IsRead j) (hne : j ≠ t.zeroIndex) :
    ∃ i < t.valueCount, value i = some j ∧ needed i = true ∧ t.IsRead i := by
  rcases hj with hdep | ⟨u, hu, hmem⟩
  · obtain ⟨ds, hds, hdeps⟩ := h.dependents
    rw [Tape.dependents, hdeps] at hdep
    obtain ⟨i, hi, hij⟩ := exists_of_mem_mapM hds hdep
    have hlt := ht.dependents i hi
    exact ⟨i, hlt, hij, (hsol.values i hlt).mpr (.inl hi), .inl hi⟩
  · obtain ⟨k, p, hp⟩ := exists_placed_of_mem hu
    obtain ⟨l, q, w, hl, husage, hcarried, -⟩ := h.source hp
    have hw : w ∈ t.usages := mem_usages_of_placed hl
    have hneeds (i : Nat) (hi : i ∈ w.needs r needed q.first) (hij : value i = some j) :
        ∃ i < t.valueCount, value i = some j ∧ needed i = true ∧ t.IsRead i := by
      have hread := Usage.mem_reads_of_mem_needs hi
      exact ⟨i, (ht.fits_of_mem hw).1 i hread, hij, hsol.value_of_needs ht hl husage hi,
        .inr ⟨w, hw, hread⟩⟩
    cases hcarried with
    | renamed hkind hrenames =>
      obtain ⟨i, hi, hij⟩ := hrenames.exists_of_mem_reads hmem
      exact hneeds i (by rwa [Usage.needs_eq_reads r needed q.first hkind]) hij
    | @rebound family id callId n inputs inputs' answer hanswer hinputs =>
      have hmem' : j ∈ inputs' := by
        simpa [Usage.reads, Usage.args, Usage.initials] using hmem
      obtain ⟨⟨isRead, i⟩, hzip, hij⟩ := exists_of_mem_mapM hinputs hmem'
      cases isRead with
      | false => exact absurd (Option.some.inj hij).symm hne
      | true =>
        obtain ⟨m, hm⟩ := List.mem_iff_getElem?.mp hzip
        obtain ⟨hflag, hinput⟩ := List.getElem?_zip_eq_some.mp hm
        refine hneeds i ?_ hij
        rw [Usage.needs, Registry.marks_of_dependence hanswer]
        exact Live.mem_marked.mpr ⟨m, hinput, hflag⟩

/-- The needed part of a folded tape is folded, where answers for several results are joint ones. -/
theorem folded (hr : r.JoinsAnswers) (hfolded : t.Folded r) : t'.Folded r := by
  refine ⟨fun u hu => ?_, fun {k p u j} hk hj hread => ?_⟩
  · obtain ⟨k, p, hp⟩ := exists_placed_of_mem hu
    obtain ⟨l, q, w, hl, -, hcarried, -⟩ := h.source hp
    have hw : w ∈ t.usages := mem_usages_of_placed hl
    cases hcarried with
    | renamed _ hrenames =>
      exact (hfolded.usages w hw).renamed hrenames fun i hi j hij v hv =>
        h.holdsConstant hinj ((ht.fits_of_mem hw).1 i hi) hij hv
    | rebound => exact fun hplain => by cases hplain
  · obtain ⟨l, q, w, hl, husage, hcarried, hvalue⟩ := h.source hk
    cases hcarried with
    | renamed hkind hrenames =>
      rw [← hrenames.kind_eq] at hkind
      cases u with
      | foreign => cases hkind
      | _ => trivial
    | @rebound family id callId n inputs inputs' answer hanswer hinputs =>
      have hne : p.first + j ≠ t.zeroIndex := by
        intro heq
        have hzero : p.first + j = t'.zeroPlace.first + 0 := heq.trans h.indCount_eq.symm
        obtain ⟨rfl, -⟩ := Usage.eq_of_results hk t'.placed_zero hj Nat.one_pos hzero
        cases hk
      obtain ⟨i, hi, hij, hneeded, hreadOld⟩ := h.needed_of_isRead ht hsol hread hne
      have hle := results_le hl
      obtain rfl : i = q.first + j :=
        hinj hi (Nat.lt_of_lt_of_le (Nat.add_lt_add_left hj _) hle) hij (hvalue j hj)
      obtain ⟨m, i, hmark, hinput, hnot⟩ := hfolded.results hl hj hreadOld
      -- the answer for all needed results marks what the one for this result marks
      have hmarked : answer.toList[m]? = some true := by
        refine (hr hanswer m).mpr ⟨j, getElem?_map_range'.mpr ⟨hj, hneeded⟩, ?_⟩
        rwa [List.length_map, List.length_range']
      have hzip : (answer.toList.zip inputs)[m]? = some (true, i) :=
        List.getElem?_zip_eq_some.mpr ⟨hmarked, hinput⟩
      have hname := congrArg (·[m]?) (mapM_eq_some_iff.mp hinputs)
      simp only [List.getElem?_map, hzip, Option.map_some, if_true] at hname
      obtain ⟨i', hi', hii'⟩ := Option.map_eq_some_iff.mp hname.symm
      have hlength : inputs'.length = inputs.length := by
        simpa using length_of_mapM_some hinputs
      refine ⟨m, i', by rwa [hlength], hi', fun v hv => hnot v ?_⟩
      have hlt : i < t.valueCount := (ht.fits_of_mem (List.mem_of_getElem?
        (Usage.getElem?_of_placed hl))).1 i (List.mem_append_left _ (List.mem_of_getElem? hinput))
      exact h.holdsConstant hinj hlt hii'.symm hv

end IsNeededPart

/-- Dropping dead code leaves a folded tape folded. -/
theorem Folded.dropDead (hfolded : t.Folded r) (ht : t.WellFormed) (hr : r.JoinsAnswers)
    (h : t.dropDead r = .ok t') : t'.Folded r := by
  obtain ⟨live, actions, hlive, hrebuild⟩ := dropDead_eq_ok h
  obtain ⟨value, vector, hselection⟩ := selection_of_rebuild hlive hrebuild
  exact (hselection.isNeededPart ht hlive).folded hselection.value_injective ht
    (ht.liveEquations hlive) hr hfolded

/-! ## Merging equal usages -/

namespace Merges

variable (h : t.Merges t' value)
include h

/-- A new name is a constant only where the old value was. -/
theorem holdsConstant (hij : value i = some j) (hj : t'.HoldsConstant j v) :
    t.HoldsConstant i v := by
  obtain ⟨k, p, hk, rfl⟩ := hj
  obtain ⟨l, q, w, hl, hfrom, rfl⟩ := h.source hk Nat.one_pos hij
  obtain ⟨w₀, hl₀, hw⟩ := h.placed hl
  rcases Usage.ordered_eq_iff.mp (hfrom.ordered_eq hk hl) with rfl | ⟨_, _, _, _, hbinary, _⟩
  · cases hw
    exact ⟨l, q, hl₀, rfl⟩
  · cases hbinary

/-- What is read on the new tape stands for something that was read. -/
theorem exists_isRead (hj : t'.IsRead j) : ∃ i, value i = some j ∧ t.IsRead i := by
  rcases hj with hdep | ⟨u, hu, hmem⟩
  · obtain ⟨i, hi, hij⟩ := exists_of_mem_mapM h.dependents hdep
    exact ⟨i, hij, .inl hi⟩
  · obtain ⟨u₀, hu₀, hrenames⟩ := exists_of_forall₂ h.usages hu
    obtain ⟨i, hi, hij⟩ := hrenames.exists_of_mem_reads hmem
    exact ⟨i, hij, .inr ⟨u₀, hu₀, hi⟩⟩

/-- Merging equal usages leaves a folded tape folded. -/
theorem folded (hfolded : t.Folded r) : t'.Folded r := by
  refine ⟨fun u hu => ?_, fun {k p u j} hk hj hread => ?_⟩
  · obtain ⟨u₀, hu₀, hrenames⟩ := exists_of_forall₂ h.usages hu
    exact (hfolded.usages u₀ hu₀).renamed hrenames fun i _ j hij v hv => h.holdsConstant hij hv
  · cases u with
    | foreign =>
      -- the copy that the result is read from is read itself
      obtain ⟨i, hij, hreadOld⟩ := h.exists_isRead hread
      obtain ⟨l, q, w, hl, hfrom, rfl⟩ := h.source hk hj hij
      obtain rfl := hfrom.eq_of_foreign hk hl
      obtain ⟨w₀, hl₀, hw⟩ := h.placed hl
      have hopen := hfolded.results hl₀ (hw.resultCount_eq ▸ hj) hreadOld
      exact hopen.renamed hw fun i _ j hij v hv => h.holdsConstant hij hv
    | _ => trivial

end Merges

end Tape

end OpTape
