import Mathlib.Data.List.Forall2
import OpTape.Merging
import OpTape.Packed
import OpTape.Proofs.Renaming
import OpTape.Proofs.WellFormed
/-
  The walk that merges equal usages, without what it means. `Walk` relates the usages to those
  that read merged operands, one rule for each step. What a step looks up is there
  (`Merge.Ordered`), so on a tape in order the walk cannot fail (`WellFormed.exists_mergeEqual`),
  and the merged tape is in order again. Entries of the table stay, so every usage reads what the
  table says at the end (`Walk.renames`).
-/
namespace OpTape

variable {V : Type}

namespace Usage

theorem mem_reads_ordered {u : Usage V} {i : Nat} : i ∈ u.ordered.reads ↔ i ∈ u.reads := by
  cases u with
  | binary op x y =>
    simp only [ordered]
    split
    · simp [reads, args, initials, or_comm]
    · rfl
  | _ => rfl

theorem resultCount_ordered (u : Usage V) : u.ordered.resultCount = u.resultCount := by
  cases u with
  | binary op x y =>
    simp only [ordered]
    split <;> rfl
  | _ => rfl

end Usage

namespace Merge

/-- A value is equal to none after it, and what was seen is on the tape. -/
structure Ordered (m : Merge V) : Prop where
  size : m.equal.size = m.tape.valueCount
  le : ∀ {i j}, m.value? i = some j → j ≤ i
  seen : ∀ {v first}, (v, first) ∈ m.seen → first + v.resultCount ≤ m.tape.valueCount ∧
    ∀ i ∈ v.reads, i < m.tape.valueCount

/-- Merged operands are on the tape. -/
theorem Ordered.lt_of_renames {m : Merge V} (hm : m.Ordered) {u u' : Usage V}
    (hu : Usage.Renames m.value? some u u') {j : Nat} (hj : j ∈ u'.reads) :
    j < m.tape.valueCount := by
  obtain ⟨i, -, hij⟩ := hu.exists_of_mem_reads hj
  have hlt : i < m.equal.size := (Array.getElem?_eq_some_iff.mp hij).1
  have hle := hm.le hij
  have hsize := hm.size
  omega

theorem value?_start [Scalar V] (t : Tape V) {i j : Nat} :
    (start t).value? i = some j ↔ i < t.indCount + 1 ∧ i = j := by
  simp [start, value?, Array.getElem?_eq_some_iff]

theorem ordered_start [Scalar V] (t : Tape V) : (start t).Ordered where
  size := by
    show (Array.range (t.indCount + 1)).size = t.indCount + 1
    exact Array.size_range
  le h := by
    obtain ⟨-, rfl⟩ := (value?_start t).mp h
    exact Nat.le_refl _
  seen {v first} h := by
    obtain ⟨rfl, rfl⟩ : v = .constant Scalar.zero ∧ first = t.indCount := by
      simpa [start, Tape.zeroIndex] using h
    refine ⟨Nat.le_refl _, fun i hi => ?_⟩
    simp [Usage.reads, Usage.args, Usage.initials] at hi

variable [DecidableEq V]

/-- The walk behind a usage that stands with its operands merged. -/
def record (m : Merge V) (u : Usage V) : Merge V :=
  { tape := m.tape.push u
    equal := m.equal ++ List.range' (m.source u) u.resultCount
    seen := if u.isMergeable && m.source u == m.tape.valueCount then
        (u.ordered, m.source u) :: m.seen
      else m.seen }

@[simp] theorem tape_record (m : Merge V) (u : Usage V) :
    (m.record u).tape = m.tape.push u := rfl

theorem step?_eq_some_iff {m m' : Merge V} {u : Usage V} :
    m.step? u = some m' ↔ ∃ u', Usage.Renames m.value? some u u' ∧ m.record u' = m' := by
  simp only [step?, Option.bind_eq_bind, Option.bind_eq_some_iff, Usage.rename?_eq_some_iff,
    Option.pure_def, Option.some.injEq]
  rfl

/-- The results of a usage are the last values, or those of a usage that was seen. -/
theorem source_cases (m : Merge V) (u : Usage V) :
    m.source u = m.tape.valueCount ∨ u.isMergeable ∧ (u.ordered, m.source u) ∈ m.seen := by
  unfold source
  split
  · rename_i hmerge
    cases hlookup : m.seen.lookup u.ordered with
    | none => exact Or.inl rfl
    | some first =>
      obtain ⟨before, after, heq, -⟩ := List.lookup_eq_some_iff.mp hlookup
      refine Or.inr ⟨hmerge, ?_⟩
      simp [heq]
  · exact Or.inl rfl

/-- What the new list of equals says of a value: what it said before, or where the result of
the usage has its source. -/
theorem value?_record_cases {m : Merge V} {u : Usage V} {i j : Nat}
    (h : (m.record u).value? i = some j) : m.value? i = some j ∨
      ∃ k < u.resultCount, i = m.equal.size + k ∧ j = m.source u + k := by
  simp only [value?, record, append_list_eq] at h
  rw [Array.getElem?_append] at h
  split at h
  · exact Or.inl h
  · rename_i hge
    right
    rw [List.getElem?_toArray] at h
    obtain ⟨hlt, heq⟩ : i - m.equal.size < u.resultCount ∧ m.source u + (i - m.equal.size) = j := by
      simpa [List.getElem?_eq_some_iff] using h
    exact ⟨i - m.equal.size, hlt, by omega, heq.symm⟩

theorem value?_record_of_value? {m : Merge V} {i j : Nat} (h : m.value? i = some j) (u : Usage V) :
    (m.record u).value? i = some j := by
  have hlt : i < m.equal.size := (Array.getElem?_eq_some_iff.mp h).1
  unfold value? record at *
  dsimp only
  rw [append_list_eq, Array.getElem?_append_left hlt]
  exact h

/-- What the list of seen usages gained. -/
theorem mem_seen_record {m : Merge V} {u v : Usage V} {first : Nat}
    (h : (v, first) ∈ (m.record u).seen) : (v, first) ∈ m.seen ∨
      u.isMergeable ∧ v = u.ordered ∧ first = m.tape.valueCount := by
  simp only [record] at h
  split at h
  · rename_i hnew
    simp only [Bool.and_eq_true, beq_iff_eq] at hnew
    rcases List.mem_cons.mp h with h | h
    · obtain ⟨rfl, rfl⟩ := Prod.mk.inj h
      exact Or.inr ⟨hnew.1, rfl, hnew.2⟩
    · exact Or.inl h
  · exact Or.inl h

theorem Ordered.source_le {m : Merge V} (hm : m.Ordered) (u : Usage V) :
    m.source u ≤ m.tape.valueCount := by
  rcases m.source_cases u with heq | ⟨-, hseen⟩
  · omega
  · have := (hm.seen hseen).1
    omega

theorem Ordered.record {m : Merge V} (hm : m.Ordered) {u : Usage V}
    (hreads : ∀ i ∈ u.reads, i < m.tape.valueCount) : (m.record u).Ordered where
  size := by
    show (m.equal ++ List.range' (m.source u) u.resultCount).size = m.tape.valueCount + u.resultCount
    rw [append_list_eq, Array.size_append, hm.size]
    simp
  le h := by
    rcases value?_record_cases h with h | ⟨k, -, rfl, rfl⟩
    · exact hm.le h
    · have hsource := hm.source_le u
      have hsize := hm.size
      omega
  seen {v first} h := by
    show first + v.resultCount ≤ m.tape.valueCount + u.resultCount ∧
      ∀ i ∈ v.reads, i < m.tape.valueCount + u.resultCount
    rcases mem_seen_record h with h | ⟨-, rfl, rfl⟩
    · obtain ⟨hle, hlt⟩ := hm.seen h
      exact ⟨by omega, fun i hi => Nat.lt_of_lt_of_le (hlt i hi) (Nat.le_add_right _ _)⟩
    · refine ⟨Nat.le_of_eq (by rw [Usage.resultCount_ordered]), fun i hi => ?_⟩
      have hlt := hreads i (Usage.mem_reads_ordered.mp hi)
      omega

/-- The walk turns the usages `us` into `us'`. -/
inductive Walk : Merge V → List (Usage V) → List (Usage V) → Merge V → Prop
  | nil (m : Merge V) : Walk m [] [] m
  | cons {m m' : Merge V} {u u' : Usage V} {us us' : List (Usage V)}
      (hu : Usage.Renames m.value? some u u') (rest : Walk (m.record u') us us' m') :
      Walk m (u :: us) (u' :: us') m'

theorem foldlM_eq_some_iff {m m' : Merge V} {us : List (Usage V)} :
    us.foldlM step? m = some m' ↔ ∃ us', Walk m us us' m' := by
  induction us generalizing m with
  | nil =>
    constructor
    · intro h
      obtain rfl := Option.some.inj h
      exact ⟨[], .nil m⟩
    · rintro ⟨us', h⟩
      cases h
      rfl
  | cons u us ih =>
    simp only [List.foldlM_cons, Option.bind_eq_bind, Option.bind_eq_some_iff, step?_eq_some_iff]
    constructor
    · rintro ⟨_, ⟨u', hu', rfl⟩, h⟩
      obtain ⟨us', hus'⟩ := ih.mp h
      exact ⟨u' :: us', .cons hu' hus'⟩
    · rintro ⟨_, h⟩
      cases h with
      | cons hu rest => exact ⟨_, ⟨_, hu, rfl⟩, ih.mpr ⟨_, rest⟩⟩

namespace Walk

variable {m m' : Merge V} {us us' : List (Usage V)}

theorem body_eq (h : Walk m us us' m') : m'.tape.body.toList = m.tape.body.toList ++ us' := by
  induction h with
  | nil => simp
  | cons _ _ ih =>
    rw [ih, tape_record, Tape.body_push, Array.toList_push, List.append_assoc]
    rfl

/-- Entries of the table are never changed. -/
theorem value?_mono (h : Walk m us us' m') {i j : Nat} (hij : m.value? i = some j) :
    m'.value? i = some j := by
  induction h with
  | nil => exact hij
  | cons _ _ ih => exact ih (value?_record_of_value? hij _)

/-- Every usage reads what the final table says. -/
theorem renames (h : Walk m us us' m') :
    List.Forall₂ (Usage.Renames m'.value? some) us us' := by
  induction h with
  | nil => exact .nil
  | cons hu rest ih =>
    exact .cons (hu.mono fun hij => rest.value?_mono (value?_record_of_value? hij _)) ih

/-- The zero constant reads nothing, so this holds of all usages of a tape. -/
theorem renames_usages [Scalar V] {t : Tape V} (h : Walk (.start t) t.body.toList us' m') :
    List.Forall₂ (Usage.Renames m'.value? some) t.usages m'.tape.usages := by
  have hbody : m'.tape.body.toList = us' := h.body_eq
  rw [Tape.usages, Tape.usages, hbody]
  exact .cons (.constant _) h.renames

theorem map_kind_eq (h : Walk m us us' m') : us'.map Usage.kind = us.map Usage.kind := by
  induction h with
  | nil => rfl
  | cons hu _ ih => rw [List.map_cons, List.map_cons, hu.kind_eq, ih]

theorem inherits (h : Walk m us us' m') :
    m'.tape.indCount = m.tape.indCount ∧ m'.tape.options = m.tape.options := by
  induction h with
  | nil => exact ⟨rfl, rfl⟩
  | cons _ _ ih => exact ih

theorem valueCount_eq (h : Walk m us us' m') :
    m'.tape.valueCount = m.tape.valueCount + Usage.resultTotal us := by
  induction h with
  | nil => rfl
  | cons hu _ ih =>
    rw [ih, tape_record, Tape.valueCount_push, hu.resultCount_eq, Usage.resultTotal_cons]
    omega

theorem ordered (h : Walk m us us' m') (hm : m.Ordered) : m'.Ordered := by
  induction h with
  | nil => exact hm
  | cons hu _ ih => exact ih (hm.record fun _ hj => hm.lt_of_renames hu hj)

/-- The merged usages fit where the usages did. -/
theorem grows (h : Walk m us us' m') (hm : m.Ordered)
    (hfit : Usage.FitAll m.tape.valueCount m.tape.vectorCount us) : m.tape.Grows m'.tape := by
  induction h with
  | nil => exact .refl
  | @cons m m' u u' us us' hu _ ih =>
    obtain ⟨hfits, hrest⟩ := hfit
    have hadmits : m.tape.Admits u' := by
      refine ⟨fun j hj => hm.lt_of_renames hu hj, fun w hw => ?_⟩
      obtain ⟨w₀, hw₀, heq⟩ := hu.exists_of_mem_vector hw
      exact Option.some.inj heq ▸ hfits.2 w₀ hw₀
    have hgrows : m.tape.Grows (m.record u').tape := .push .refl hadmits
    refine hgrows.trans (ih (hm.record fun _ hj => hm.lt_of_renames hu hj) ?_)
    show Usage.FitAll (m.tape.valueCount + u'.resultCount)
      (m.tape.vectorCount + if u'.startsVector then 1 else 0) us
    rw [hu.resultCount_eq, hu.startsVector_eq]
    exact hrest

theorem exists_walk {us : List (Usage V)} {values vectors : Nat} (hm : m.Ordered)
    (hvalues : m.tape.valueCount = values) (hfit : Usage.FitAll values vectors us) :
    ∃ us' m', Walk m us us' m' := by
  induction us generalizing m values vectors with
  | nil => exact ⟨[], m, .nil m⟩
  | cons u us ih =>
    obtain ⟨hfits, hrest⟩ := hfit
    obtain ⟨u', hu'⟩ : ∃ u', Usage.Renames m.value? some u u' := by
      refine Usage.exists_renames (fun i hi => ?_) fun w _ => ⟨w, rfl⟩
      have hlt : i < m.equal.size := by
        rw [hm.size, hvalues]
        exact hfits.1 i hi
      exact ⟨m.equal[i], Array.getElem?_eq_getElem hlt⟩
    have hcount : (m.record u').tape.valueCount = values + u.resultCount := by
      rw [← hvalues, ← hu'.resultCount_eq]
      rfl
    obtain ⟨us', m', hwalk⟩ := ih (hm.record fun _ hj => hm.lt_of_renames hu' hj) hcount hrest
    exact ⟨u' :: us', m', .cons hu' hwalk⟩

end Walk

end Merge

namespace Tape

variable {t t' : Tape V}

/-- The dependents of a merged tape are the first of their equals. -/
theorem mapM_dependents {m : Merge V} {deps : Option (List Nat)}
    (h : t.deps.mapM (fun values => values.mapM m.value?) = some deps) :
    t.dependents.mapM m.value? = some (deps.getD []) := by
  unfold dependents
  cases hdeps : t.deps with
  | none =>
    rw [hdeps] at h
    obtain rfl : none = deps := by simpa using h
    rfl
  | some values =>
    rw [hdeps] at h
    obtain ⟨values', hvalues, rfl⟩ : ∃ values', values.mapM m.value? = some values' ∧
        some values' = deps := by simpa using h
    exact hvalues

variable [Scalar V] [DecidableEq V]

theorem mergeEqual_eq_ok_iff : t.mergeEqual = .ok t' ↔
    ∃ us' m deps, Merge.Walk (.start t) t.body.toList us' m ∧
      t.deps.mapM (fun values => values.mapM m.value?) = some deps ∧
      { m.tape with deps } = t' := by
  refine (result_eq_ok_iff _).trans ?_
  simp only [Option.bind_eq_bind, Option.bind_eq_some_iff, Merge.foldlM_eq_some_iff,
    Option.pure_def, Option.some.injEq]
  constructor
  · rintro ⟨m, ⟨us', hwalk⟩, deps, hdeps, rfl⟩
    exact ⟨us', m, deps, hwalk, hdeps, rfl⟩
  · rintro ⟨us', m, deps, hwalk, hdeps, rfl⟩
    exact ⟨m, ⟨us', hwalk⟩, deps, hdeps, rfl⟩

theorem valueCount_of_walk {us' : List (Usage V)} {m : Merge V}
    (h : Merge.Walk (.start t) t.body.toList us' m) : m.tape.valueCount = t.valueCount := by
  rw [h.valueCount_eq, t.valueCount_eq]
  rfl

theorem WellFormed.mergeEqual (ht : t.WellFormed) (h : t.mergeEqual = .ok t') :
    t'.WellFormed := by
  obtain ⟨us', m, deps, hwalk, hdeps, rfl⟩ := mergeEqual_eq_ok_iff.mp h
  have hm := hwalk.ordered (Merge.ordered_start t)
  have hgrows := hwalk.grows (Merge.ordered_start t) ht.body
  refine ⟨(hgrows.wellFormed (.new t.indCount t.options)).body, fun j hj => ?_⟩
  obtain ⟨i, -, hij⟩ := exists_of_mem_mapM (mapM_dependents hdeps) hj
  have hlt : i < m.equal.size := (Array.getElem?_eq_some_iff.mp hij).1
  exact Nat.lt_of_le_of_lt (hm.le hij) (hm.size ▸ hlt)

/-- Merging cannot fail on a tape in order. -/
theorem WellFormed.exists_mergeEqual (ht : t.WellFormed) : ∃ t', t.mergeEqual = .ok t' := by
  obtain ⟨us', m, hwalk⟩ := Merge.Walk.exists_walk (Merge.ordered_start t) rfl ht.body
  have hm := hwalk.ordered (Merge.ordered_start t)
  have hequal : ∀ i ∈ t.dependents, ∃ j, m.value? i = some j := by
    intro i hi
    have hlt : i < m.equal.size := by
      rw [hm.size, valueCount_of_walk hwalk]
      exact ht.dependents i hi
    exact ⟨m.equal[i], Array.getElem?_eq_getElem hlt⟩
  obtain ⟨values', hvalues⟩ := exists_mapM_some hequal
  have hdeps : ∃ deps, t.deps.mapM (fun values => values.mapM m.value?) = some deps := by
    cases hset : t.deps with
    | none => exact ⟨none, rfl⟩
    | some values =>
      rw [Tape.dependents, hset] at hvalues
      exact ⟨some values', by simpa using hvalues⟩
  obtain ⟨deps, hdeps⟩ := hdeps
  exact ⟨_, mergeEqual_eq_ok_iff.mpr ⟨us', m, deps, hwalk, hdeps, rfl⟩⟩

end Tape

end OpTape
