import OpTape.Proofs.Traversal
import OpTape.Tape
/-
  Tapes in order: each usage reads only values and vectors that existed when it was recorded,
  and the dependents exist. Recording, setting dependents and changing options keep a tape in
  order. `Grows` is the relation between a tape and what becomes of it by recording alone.
-/
namespace OpTape

variable {V : Type}

namespace Usage

/-- Each usage of a list fits behind the usages before it. -/
def FitAll : (values vectors : Nat) → List (Usage V) → Prop
  | _, _, [] => True
  | values, vectors, u :: rest =>
    u.Fits values vectors ∧
      FitAll (values + u.resultCount) (vectors + if u.startsVector then 1 else 0) rest

theorem fitAll_append {values vectors : Nat} {us vs : List (Usage V)} :
    FitAll values vectors (us ++ vs) ↔ FitAll values vectors us ∧
      FitAll (values + resultTotal us) (vectors + us.countP startsVector) vs := by
  induction us generalizing values vectors with
  | nil => simp [FitAll]
  | cons u us ih =>
    rw [List.cons_append, FitAll, FitAll, ih, and_assoc, resultTotal_cons, List.countP_cons]
    have hvalues : values + u.resultCount + resultTotal us
        = values + (u.resultCount + resultTotal us) := by omega
    have hvectors : (vectors + if u.startsVector then 1 else 0) + us.countP startsVector
        = vectors + (us.countP startsVector + if u.startsVector then 1 else 0) := by omega
    rw [hvalues, hvectors]

end Usage

namespace Tape

/-- A pass that has no result is at fault itself. -/
theorem result_eq_ok_iff {t' : Tape V} (result : Option (Tape V)) :
    (match result with | some new => Except.ok new | none => .error (Fault.contract : Fault V))
      = .ok t' ↔ result = some t' := by
  cases result <;> simp

/-- Everything that is read exists before it is read. -/
structure WellFormed (t : Tape V) : Prop where
  body : Usage.FitAll (t.indCount + 1) 0 t.body.toList
  dependents : ∀ i ∈ t.dependents, i < t.valueCount

theorem WellFormed.new (n : Nat) (options : Options) : (new n options : Tape V).WellFormed :=
  ⟨trivial, by simp [Tape.new, Tape.dependents]⟩

theorem WellFormed.push {t : Tape V} (ht : t.WellFormed) {u : Usage V} (hu : t.Admits u) :
    (t.push u).WellFormed := by
  constructor
  · have hvalues := t.valueCount_eq
    have hvectors := t.vectorCount_eq
    have hfits : u.Fits t.valueCount t.vectorCount := hu
    rw [hvalues, hvectors] at hfits
    rw [body_push, indCount_push, Array.toList_push, Usage.fitAll_append, Nat.zero_add]
    exact ⟨ht.body, hfits, trivial⟩
  · intro i hi
    have := ht.dependents i hi
    rw [valueCount_push]
    omega

theorem WellFormed.record {t t' : Tape V} (ht : t.WellFormed) {u : Usage V} {offer : Recorded}
    (h : t.record? u = some (offer, t')) : t'.WellFormed := by
  obtain ⟨tape, happend, heq⟩ := Option.map_eq_some_iff.mp h
  obtain ⟨hadmits, rfl⟩ := append?_eq_some_iff.mp happend
  rw [← (Prod.mk.inj heq).2]
  exact ht.push hadmits

theorem setDependents?_eq_some_iff {t t' : Tape V} {values : List Nat} :
    t.setDependents? values = some t' ↔
      (t.deps = none ∧ ∀ i ∈ values, i < t.valueCount) ∧ { t with deps := some values } = t' := by
  simp [setDependents?]

theorem WellFormed.setDependents {t t' : Tape V} (ht : t.WellFormed) {values : List Nat}
    (h : t.setDependents? values = some t') : t'.WellFormed := by
  obtain ⟨⟨-, hvalues⟩, rfl⟩ := setDependents?_eq_some_iff.mp h
  exact ⟨ht.body, hvalues⟩

theorem WellFormed.setOption {t t' : Tape V} {name value : String} (ht : t.WellFormed)
    (h : t.setOption name value = .ok t') : t'.WellFormed := by
  obtain ⟨options, -, heq⟩ := bind_eq_ok_iff.mp h
  obtain rfl := Except.ok.inj heq
  exact ⟨ht.body, ht.dependents⟩

/-- `t'` is `t` with further usages recorded on it. -/
inductive Grows (t : Tape V) : Tape V → Prop
  | refl : Grows t t
  | push {t' : Tape V} {u : Usage V} (h : Grows t t') (hu : t'.Admits u) : Grows t (t'.push u)

namespace Grows

variable {t t' t'' : Tape V}

theorem trans (h : Grows t t') (h' : Grows t' t'') : Grows t t'' := by
  induction h' with
  | refl => exact h
  | push _ hu ih => exact ih.push hu

theorem wellFormed (h : Grows t t') (ht : t.WellFormed) : t'.WellFormed := by
  induction h with
  | refl => exact ht
  | push _ hu ih => exact ih.push hu

theorem indCount_eq (h : Grows t t') : t'.indCount = t.indCount := by
  induction h with
  | refl => rfl
  | push _ _ ih => exact ih

theorem options_eq (h : Grows t t') : t'.options = t.options := by
  induction h with
  | refl => rfl
  | push _ _ ih => exact ih

theorem deps_eq (h : Grows t t') : t'.deps = t.deps := by
  induction h with
  | refl => rfl
  | push _ _ ih => exact ih

/-- Recording leaves the usages in place that were there before. -/
theorem body_eq (h : Grows t t') : ∃ us, t'.body.toList = t.body.toList ++ us := by
  induction h with
  | refl => exact ⟨[], by simp⟩
  | push _ _ ih =>
    obtain ⟨us, hus⟩ := ih
    exact ⟨us ++ [_], by rw [body_push, Array.toList_push, hus, List.append_assoc]⟩

end Grows

end Tape

end OpTape
