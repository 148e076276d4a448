import OpTape.Liveness
import OpTape.Packed
import OpTape.Proofs.WellFormed
import Mathlib.Algebra.GroupWithZero.Nat
import Mathlib.Data.List.Forall2
/-
  Where the usages of a tape stand. `Tape.placed` lists every usage, that of zero included, with
  the index of its first result and the number that the next vector gets. Results follow each
  other without gaps, so every value behind the independents is a result at one place
  (`exists_placed`), and on a tape in order a usage reads only what stands in front of its place
  (`fits_of_placed`).
-/
namespace OpTape

variable {V : Type}

namespace Usage

/-- The usages of a list with their places, the first at `p`. -/
def placed : Place → List (Usage V) → List (Place × Usage V)
  | _, [] => []
  | p, u :: rest => (p, u) :: placed (p.past u) rest

variable {p q q' : Place} {u u' : Usage V} {us : List (Usage V)} {k l : Nat}

theorem length_placed (p : Place) (us : List (Usage V)) : (placed p us).length = us.length := by
  induction us generalizing p with
  | nil => rfl
  | cons u us ih => rw [placed, List.length_cons, List.length_cons, ih]

theorem map_snd_placed (p : Place) (us : List (Usage V)) : (placed p us).map Prod.snd = us := by
  induction us generalizing p with
  | nil => rfl
  | cons u us ih => rw [placed, List.map_cons, ih]

theorem getElem?_of_placed (h : (placed p us)[k]? = some (q, u)) : us[k]? = some u := by
  rw [← map_snd_placed p us, List.getElem?_map, h]
  rfl

theorem exists_placed_of_getElem? (p : Place) (h : us[k]? = some u) :
    ∃ q, (placed p us)[k]? = some (q, u) := by
  rw [← map_snd_placed p us, List.getElem?_map, Option.map_eq_some_iff] at h
  obtain ⟨⟨q, v⟩, hq, rfl⟩ := h
  exact ⟨q, hq⟩

theorem placed_append (p : Place) (us vs : List (Usage V)) :
    placed p (us ++ vs) = placed p us ++ placed (us.foldl Place.past p) vs := by
  induction us generalizing p with
  | nil => rfl
  | cons u us ih => rw [List.cons_append, placed, ih, placed, List.foldl_cons, List.cons_append]

/-- The place behind a list of usages. -/
theorem foldl_past (p : Place) (us : List (Usage V)) :
    us.foldl Place.past p
      = { first := p.first + resultTotal us, vector := p.vector + us.countP startsVector } := by
  induction us generalizing p with
  | nil => rfl
  | cons u us ih =>
    rw [List.foldl_cons, ih, resultTotal_cons, List.countP_cons]
    simp only [Place.past, Place.mk.injEq]
    omega

theorem sum_map_resultCount (us : List (Usage V)) : (us.map resultCount).sum = resultTotal us := by
  induction us with
  | nil => rfl
  | cons u us ih => rw [List.map_cons, List.sum_cons, ih, resultTotal_cons]

theorem sum_map_startsVector (us : List (Usage V)) :
    (us.map fun u => if u.startsVector = true then 1 else 0).sum = us.countP startsVector := by
  induction us with
  | nil => rfl
  | cons u us ih => rw [List.map_cons, List.sum_cons, ih, List.countP_cons, Nat.add_comm]

theorem fits_of_placed (hfit : FitAll p.first p.vector us)
    (h : (placed p us)[k]? = some (q, u)) : u.Fits q.first q.vector := by
  induction us generalizing p k with
  | nil => cases h
  | cons v us ih =>
    cases k with
    | zero =>
      obtain ⟨rfl, rfl⟩ := Prod.mk.inj (Option.some.inj h)
      exact hfit.1
    | succ k => exact ih hfit.2 h

theorem Fits.mono {values values' vectors vectors' : Nat} (h : u.Fits values vectors)
    (hvalues : values ≤ values') (hvectors : vectors ≤ vectors') : u.Fits values' vectors' :=
  ⟨fun i hi => Nat.lt_of_lt_of_le (h.1 i hi) hvalues,
    fun w hw => Nat.lt_of_lt_of_le (h.2 w hw) hvectors⟩

/-- A usage of a list fits behind the whole list as well. -/
theorem FitAll.fits_of_mem {values vectors : Nat} (h : FitAll values vectors us) (hu : u ∈ us) :
    u.Fits (values + resultTotal us) (vectors + us.countP startsVector) := by
  induction us generalizing values vectors with
  | nil => cases hu
  | cons v us ih =>
    rw [resultTotal_cons, List.countP_cons]
    rcases List.mem_cons.mp hu with rfl | hu
    · exact h.1.mono (Nat.le_add_right _ _) (Nat.le_add_right _ _)
    · exact (ih h.2 hu).mono (by omega) (by omega)

theorem first_le_of_placed (h : (placed p us)[k]? = some (q, u)) : p.first ≤ q.first := by
  induction us generalizing p k with
  | nil => cases h
  | cons v us ih =>
    cases k with
    | zero =>
      obtain ⟨rfl, rfl⟩ := Prod.mk.inj (Option.some.inj h)
      exact Nat.le_refl _
    | succ k => exact Nat.le_trans (Nat.le_add_right _ _) (ih h)

/-- The results of a usage are values of the list. -/
theorem results_le_of_placed (h : (placed p us)[k]? = some (q, u)) :
    q.first + u.resultCount ≤ p.first + resultTotal us := by
  induction us generalizing p k with
  | nil => cases h
  | cons v us ih =>
    rw [resultTotal_cons]
    cases k with
    | zero =>
      obtain ⟨rfl, rfl⟩ := Prod.mk.inj (Option.some.inj h)
      omega
    | succ k =>
      have hrest : q.first + u.resultCount ≤ p.first + v.resultCount + resultTotal us := ih h
      omega

/-- The results of a usage stand in front of those of a later one. -/
theorem results_le_of_lt (hlt : k < l) (h : (placed p us)[k]? = some (q, u))
    (h' : (placed p us)[l]? = some (q', u')) : q.first + u.resultCount ≤ q'.first := by
  induction us generalizing p k l with
  | nil => cases h
  | cons v us ih =>
    cases l with
    | zero => exact absurd hlt (Nat.not_lt_zero k)
    | succ l =>
      cases k with
      | zero =>
        obtain ⟨rfl, rfl⟩ := Prod.mk.inj (Option.some.inj h)
        have hrest : (placed (p.past v) us)[l]? = some (q', u') := h'
        exact first_le_of_placed hrest
      | succ k => exact ih (Nat.lt_of_succ_lt_succ hlt) h h'

/-- A value belongs to one usage, at one position among its results. -/
theorem eq_of_results {j j' : Nat} (h : (placed p us)[k]? = some (q, u))
    (h' : (placed p us)[l]? = some (q', u')) (hj : j < u.resultCount) (hj' : j' < u'.resultCount)
    (heq : q.first + j = q'.first + j') : k = l ∧ j = j' := by
  rcases Nat.lt_trichotomy k l with hlt | rfl | hlt
  · have := results_le_of_lt hlt h h'
    omega
  · obtain ⟨rfl, rfl⟩ := Prod.mk.inj (Option.some.inj (h.symm.trans h'))
    exact ⟨rfl, Nat.add_left_cancel heq⟩
  · have := results_le_of_lt hlt h' h
    omega

/-- Every value of the list is a result of one of the usages. -/
theorem exists_placed {i : Nat} (hge : p.first ≤ i) (hlt : i < p.first + resultTotal us) :
    ∃ (k : Nat) (q : Place) (u : Usage V) (j : Nat),
      (placed p us)[k]? = some (q, u) ∧ j < u.resultCount ∧ i = q.first + j := by
  induction us generalizing p with
  | nil =>
    rw [resultTotal_nil] at hlt
    omega
  | cons v us ih =>
    rw [resultTotal_cons] at hlt
    by_cases hhere : i < p.first + v.resultCount
    · exact ⟨0, p, v, i - p.first, rfl, by omega, by omega⟩
    · have hrest : i < (p.past v).first + resultTotal us := by
        show i < p.first + v.resultCount + resultTotal us
        omega
      obtain ⟨k, q, u, j, hk, hj, heq⟩ := ih (Nat.le_of_not_lt hhere) hrest
      exact ⟨k + 1, q, u, j, hk, hj, heq⟩

/-- Usages that are renamed one by one stand at the same places. -/
theorem exists_placed_of_forall₂ {R : Usage V → Usage V → Prop} {us' : List (Usage V)}
    (h : List.Forall₂ R us us') (hcount : ∀ u u', R u u' → u'.resultCount = u.resultCount)
    (hstarts : ∀ u u', R u u' → u'.startsVector = u.startsVector)
    (hk : (placed p us')[k]? = some (q, u')) : ∃ u, (placed p us)[k]? = some (q, u) ∧ R u u' := by
  induction h generalizing p k with
  | nil => cases hk
  | @cons v v' us us' hv _ ih =>
    cases k with
    | zero =>
      obtain ⟨rfl, rfl⟩ := Prod.mk.inj (Option.some.inj hk)
      exact ⟨v, rfl, hv⟩
    | succ k =>
      have hpast : p.past v' = p.past v := by
        simp only [Place.past, hcount v v' hv, hstarts v v' hv]
      have hk' : (placed (p.past v') us')[k]? = some (q, u') := hk
      rw [hpast] at hk'
      exact ih hk'

end Usage

namespace Tape

variable [Scalar V] {t : Tape V}

/-- The place of the zero constant. -/
def zeroPlace (t : Tape V) : Place := { first := t.indCount, vector := 0 }

/-- All usages of a tape with their places. -/
def placed (t : Tape V) : List (Place × Usage V) := Usage.placed t.zeroPlace t.usages

theorem placed_zero (t : Tape V) : t.placed[0]? = some (t.zeroPlace, .constant Scalar.zero) := rfl

theorem length_placed (t : Tape V) : t.placed.length = t.body.size + 1 :=
  Usage.length_placed _ _

theorem mem_usages_of_placed {k : Nat} {p : Place} {u : Usage V} (h : t.placed[k]? = some (p, u)) :
    u ∈ t.usages := List.mem_of_getElem? (Usage.getElem?_of_placed h)

theorem exists_placed_of_mem {u : Usage V} (hu : u ∈ t.usages) :
    ∃ (k : Nat) (p : Place), t.placed[k]? = some (p, u) := by
  obtain ⟨k, hk⟩ := List.mem_iff_getElem?.mp hu
  obtain ⟨p, hp⟩ := Usage.exists_placed_of_getElem? t.zeroPlace hk
  exact ⟨k, p, hp⟩

omit [Scalar V] in
theorem zeroIndex_lt (t : Tape V) : t.zeroIndex < t.valueCount := by
  have hcount := t.valueCount_eq
  show t.indCount < t.valueCount
  omega

theorem first_add_resultTotal (t : Tape V) :
    t.zeroPlace.first + Usage.resultTotal t.usages = t.valueCount := by
  rw [t.valueCount_eq, Nat.add_assoc]
  rfl

/-- Every value behind the independents is a result of one of the usages. -/
theorem exists_placed {i : Nat} (hge : t.indCount ≤ i) (hi : i < t.valueCount) :
    ∃ (k : Nat) (p : Place) (u : Usage V) (j : Nat),
      t.placed[k]? = some (p, u) ∧ j < u.resultCount ∧ i = p.first + j :=
  Usage.exists_placed hge (t.first_add_resultTotal.symm ▸ hi)

theorem countP_startsVector_usages (t : Tape V) :
    t.usages.countP Usage.startsVector = t.vectorCount := by
  rw [t.vectorCount_eq, usages, List.countP_cons]
  rfl

/-- The place behind all usages of a tape. -/
theorem foldl_past_usages (t : Tape V) : t.usages.foldl Place.past t.zeroPlace
    = { first := t.valueCount, vector := t.vectorCount } := by
  rw [Usage.foldl_past, first_add_resultTotal, countP_startsVector_usages]
  exact congrArg (Place.mk _) (Nat.zero_add _)

theorem WellFormed.fitAll_placed (ht : t.WellFormed) :
    Usage.FitAll t.zeroPlace.first t.zeroPlace.vector t.usages :=
  ⟨by simp [Usage.Fits, Usage.reads, Usage.args, Usage.initials, Usage.vector?], ht.body⟩

theorem WellFormed.fits (ht : t.WellFormed) {k : Nat} {p : Place} {u : Usage V}
    (h : t.placed[k]? = some (p, u)) : u.Fits p.first p.vector :=
  Usage.fits_of_placed ht.fitAll_placed h

theorem WellFormed.fits_of_mem (ht : t.WellFormed) {u : Usage V} (hu : u ∈ t.usages) :
    u.Fits t.valueCount t.vectorCount := by
  have hfits := ht.fitAll_placed.fits_of_mem hu
  rw [first_add_resultTotal, countP_startsVector_usages] at hfits
  exact hfits.mono (Nat.le_refl _) (Nat.le_of_eq (Nat.zero_add _))

theorem results_le {k : Nat} {p : Place} {u : Usage V} (h : t.placed[k]? = some (p, u)) :
    p.first + u.resultCount ≤ t.valueCount :=
  t.first_add_resultTotal ▸ Usage.results_le_of_placed h

theorem placed_push (t : Tape V) (u : Usage V) :
    (t.push u).placed = t.placed ++ [({ first := t.valueCount, vector := t.vectorCount }, u)] := by
  rw [placed, usages_push, Usage.placed_append]
  show t.placed ++ [(t.usages.foldl Place.past t.zeroPlace, u)] = _
  rw [foldl_past_usages]

theorem placed_push_last (t : Tape V) (u : Usage V) : (t.push u).placed[t.placed.length]?
    = some ({ first := t.valueCount, vector := t.vectorCount }, u) := by
  rw [placed_push, List.getElem?_concat_length]

/-- A usage of the longer tape was there before or is the new one. -/
theorem placed_push_cases {u w : Usage V} {k : Nat} {p : Place}
    (hk : (t.push u).placed[k]? = some (p, w)) : t.placed[k]? = some (p, w) ∨
      k = t.placed.length ∧ p = { first := t.valueCount, vector := t.vectorCount } ∧ w = u := by
  rw [placed_push] at hk
  rcases Nat.lt_or_ge k t.placed.length with hlt | hge
  · rw [List.getElem?_append_left hlt] at hk
    exact .inl hk
  · obtain ⟨rest, rfl⟩ := Nat.exists_eq_add_of_le hge
    rw [List.getElem?_append_right hge, Nat.add_sub_cancel_left] at hk
    cases rest with
    | zero => exact .inr ⟨rfl, Prod.mk.inj (Option.some.inj hk.symm)⟩
    | succ rest => cases hk

theorem mem_usages_push {u w : Usage V} : w ∈ (t.push u).usages ↔ w ∈ t.usages ∨ w = u := by
  rw [usages_push, List.mem_append, List.mem_singleton]

end Tape

end OpTape
