import OpTape.Proofs.Rebuilding
/-
  Passes that drop no value and no vector. `Total` says that every old value has a new one, and
  `KeepsVectors` that every vector is on the new tape under its old number; then whatever the
  old tape read can be carried over.
-/
namespace OpTape

variable {V : Type}

namespace Rebuild

/-- Every value of the old tape has one on the new tape that stands for it. -/
def Total (s : Rebuild V) : Prop := ∀ i < s.values.size, ∃ j, s.value? i = some j

/-- Every vector is carried over, under the number it had. -/
def KeepsVectors (s : Rebuild V) : Prop := s.vectors = (Array.range s.tape.vectorCount).map some

theorem total_start (t : Tape V) : (start t).Total := by
  intro i hi
  exact ⟨i, value?_start.mpr ⟨by simpa [start] using hi, rfl⟩⟩

theorem exists_of_mem_constantIndices {first next : Nat} {values : List (Option V)}
    {o : Option Nat} (h : o ∈ constantIndices first next values) : ∃ j, o = some j := by
  induction values generalizing first next with
  | nil => simp [constantIndices] at h
  | cons v rest ih =>
    cases v with
    | none =>
      rcases List.mem_cons.mp h with rfl | h
      · exact ⟨first, rfl⟩
      · exact ih h
    | some v =>
      rcases List.mem_cons.mp h with rfl | h
      · exact ⟨next, rfl⟩
      · exact ih h

theorem keepsVectors_start (t : Tape V) : (start t).KeepsVectors := by
  simp [start, KeepsVectors, Tape.new]

theorem KeepsVectors.vector?_eq_some_iff {s : Rebuild V} (h : s.KeepsVectors) {w w' : Nat} :
    s.vector? w = some w' ↔ w < s.tape.vectorCount ∧ w = w' := by
  unfold vector?
  rw [h, Option.join_eq_some_iff]
  simp [Array.getElem?_eq_some_iff]

theorem KeepsVectors.replaced {s : Rebuild V} (h : s.KeepsVectors) {u new : Usage V}
    (hstarts : new.startsVector = u.startsVector) : (s.replaced u new).KeepsVectors := by
  have htable : (s.replaced u new).vectors
      = if u.startsVector then s.vectors.push (some s.tape.vectorCount) else s.vectors := by
    rw [Rebuild.replaced, vectors_enter, vectors_pushed, vectors_enterVector]
  have hcount : (s.replaced u new).tape.vectorCount
      = s.tape.vectorCount + if u.startsVector then 1 else 0 := by
    rw [replaced_eq, tape_enter, tape_enterVector, ← hstarts]
    rfl
  unfold KeepsVectors
  rw [htable, hcount, h]
  cases u.startsVector <;> simp [Array.range_succ]

theorem vectorCount_withConstants (s : Rebuild V) (values : List (Option V)) :
    (s.withConstants values).tape.vectorCount = s.tape.vectorCount := by
  induction values generalizing s with
  | nil => rfl
  | cons v rest ih =>
    cases v with
    | none => exact ih s
    | some v => exact (ih _).trans rfl

/-- A vector that is started must be copied; no other action touches the vectors. -/
theorem Step.keepsVectors {s s' : Rebuild V} {u : Usage V} {action : Action V}
    (h : Step s u action s') (hs : s.KeepsVectors)
    (hu : u.startsVector = true → action = .copy) : s'.KeepsVectors := by
  have hsame {s₁ : Rebuild V} (hvectors : s₁.vectors = s.vectors)
      (hcount : s₁.tape.vectorCount = s.tape.vectorCount) : s₁.KeepsVectors := by
    unfold KeepsVectors
    rw [hvectors, hcount, hs]
  have hplain (hne : action ≠ .copy) : u.startsVector = false := by
    cases hstarts : u.startsVector with
    | false => rfl
    | true => exact absurd (hu hstarts) hne
  cases h with
  | drop =>
    rw [enterVector_of_false s (hplain (by simp))]
    exact hsame rfl rfl
  | copy hnew _ => exact hs.replaced hnew.startsVector_eq
  | rebind hnew _ => exact hs.replaced (carryNeeded?_counts hnew).2
  | constants =>
    exact hsame (vectors_withConstants s _) (vectorCount_withConstants s _)
  | @foldResults values new hlength hnew hadmits =>
    refine hsame (vectors_withConstants (s.pushed new) _) ?_
    rw [tape_enter, vectorCount_withConstants]
    show s.tape.vectorCount + (if new.startsVector then 1 else 0) = _
    rw [hnew.startsVector_eq, hplain (by simp)]
    rfl
  | reuse => exact hsame rfl rfl
  | sum => exact hsame rfl rfl

/-- A step enters what stands for the results and leaves the table before them alone. Only a drop
of results can leave one of them without a new value. -/
theorem Step.exists_entered {s s' : Rebuild V} {u : Usage V} {action : Action V}
    (h : Step s u action s') :
    ∃ (s₁ : Rebuild V) (rs : List (Option Nat)), s' = s₁.enter rs ∧ s₁.values = s.values ∧
      ((action = .drop → u.resultCount = 0) → ∀ o ∈ rs, ∃ j, o = some j) := by
  have hreplaced (new : Usage V) :
      ∃ (s₁ : Rebuild V) (rs : List (Option Nat)), s.replaced u new = s₁.enter rs ∧
        s₁.values = s.values ∧
        ((action = .drop → u.resultCount = 0) → ∀ o ∈ rs, ∃ j, o = some j) := by
    refine ⟨_, _, rfl, by simp, fun _ o ho => ?_⟩
    obtain ⟨j, -, rfl⟩ := List.mem_map.mp ho
    exact ⟨j, rfl⟩
  cases h with
  | drop =>
    refine ⟨_, _, rfl, values_enterVector s u none, fun hu o ho => ?_⟩
    rw [hu rfl] at ho
    cases ho
  | copy => exact hreplaced _
  | rebind => exact hreplaced _
  | constants =>
    exact ⟨_, _, rfl, values_withConstants s _, fun _ o ho => exists_of_mem_constantIndices ho⟩
  | foldResults =>
    exact ⟨_, _, rfl, values_withConstants (s.pushed _) _,
      fun _ o ho => exists_of_mem_constantIndices ho⟩
  | @reuse target j hj => exact ⟨_, _, rfl, rfl, fun _ o ho => ⟨j, List.mem_singleton.mp ho⟩⟩
  | sum => exact ⟨_, _, rfl, rfl, fun _ o ho => ⟨s.tape.valueCount, List.mem_singleton.mp ho⟩⟩

theorem Step.value?_of_lt {s s' : Rebuild V} {u : Usage V} {action : Action V}
    (h : Step s u action s') {i : Nat} (hi : i < s.values.size) : s'.value? i = s.value? i := by
  obtain ⟨s₁, rs, rfl, hvalues, -⟩ := h.exists_entered
  rw [value?_enter_of_lt (hvalues ▸ hi), value?, hvalues]
  rfl

theorem Step.exists_value? {s s' : Rebuild V} {u : Usage V} {action : Action V}
    (h : Step s u action s') (hu : action = .drop → u.resultCount = 0) {i : Nat}
    (hge : s.values.size ≤ i) (hlt : i < s'.values.size) : ∃ j, s'.value? i = some j := by
  obtain ⟨s₁, rs, rfl, hvalues, hrs⟩ := h.exists_entered
  obtain ⟨k, rfl⟩ : ∃ k, i = s₁.values.size + k := ⟨i - s₁.values.size, by rw [hvalues]; omega⟩
  have hk : k < rs.length := by
    have hlt' : s₁.values.size + k < s₁.values.size + rs.length := by simpa using hlt
    omega
  obtain ⟨j, hj⟩ := hrs hu rs[k] (List.getElem_mem hk)
  refine ⟨j, ?_⟩
  rw [value?_enter_add, List.getElem?_eq_getElem hk, hj]
  rfl

/-- Only a drop can leave an old value without a new one. -/
theorem Step.total {s s' : Rebuild V} {u : Usage V} {action : Action V}
    (h : Step s u action s') (hs : s.Total) (hu : action = .drop → u.resultCount = 0) :
    s'.Total := by
  intro i hi
  by_cases hlt : i < s.values.size
  · rw [h.value?_of_lt hlt]
    exact hs i hlt
  · exact h.exists_value? hu (Nat.le_of_not_lt hlt) hi

end Rebuild

/-- The action leaves vectors in place and has as many results as the usage. -/
structure Action.Suits (action : Action V) (u : Usage V) : Prop where
  vector : u.startsVector = true → action = .copy
  reuse : ∀ target, action = .reuse target → u.resultCount = 1
  sum : ∀ add sub, action = .sum add sub → u.resultCount = 1

namespace Rebuild

theorem Step.size_values {s s' : Rebuild V} {u : Usage V} {action : Action V}
    (h : Step s u action s') (hu : action.Suits u) :
    s'.values.size = s.values.size + u.resultCount := by
  cases h with
  | drop => simp
  | copy => simp [replaced]
  | rebind => simp [replaced]
  | constants hlength => simp [values_withConstants, length_constantIndices, hlength]
  | foldResults hlength => simp [values_withConstants, length_constantIndices, hlength]
  | reuse => simp [hu.reuse _ rfl]
  | sum => simp [hu.sum _ _ rfl]

theorem Step.size_vectors {s s' : Rebuild V} {u : Usage V} {action : Action V}
    (h : Step s u action s') (hu : action.Suits u) :
    s'.vectors.size = s.vectors.size + if u.startsVector then 1 else 0 := by
  cases hstarts : u.startsVector with
  | true =>
    obtain rfl := hu.vector hstarts
    cases h with
    | copy => simp [replaced, hstarts]
  | false =>
    cases h with
    | drop => simp [hstarts]
    | copy => simp [replaced, hstarts]
    | rebind => simp [replaced, hstarts]
    | constants => simp [vectors_withConstants]
    | foldResults => simp [vectors_withConstants]
    | reuse => simp
    | sum => simp

/-- The usages that are left of a tape with `count` values fit behind those that were rebuilt,
and find their vectors. -/
structure Ready (count : Nat) (s : Rebuild V) (us : List (Usage V)) : Prop where
  size : s.values.size + Usage.resultTotal us = count
  fit : Usage.FitAll s.values.size s.vectors.size us
  keeps : s.KeepsVectors

theorem Ready.step {count : Nat} {s s' : Rebuild V} {u : Usage V} {us : List (Usage V)}
    {action : Action V} (h : Ready count s (u :: us)) (hstep : Step s u action s')
    (hu : action.Suits u) : Ready count s' us where
  size := by
    have hsize := h.size
    rw [Usage.resultTotal_cons] at hsize
    rw [hstep.size_values hu]
    omega
  fit := by
    rw [hstep.size_values hu, hstep.size_vectors hu]
    exact h.fit.2
  keeps := hstep.keepsVectors h.keeps hu.vector

theorem Ready.vector {count : Nat} {s : Rebuild V} {u : Usage V} {us : List (Usage V)}
    (h : Ready count s (u :: us)) {w : Nat} (hw : w ∈ u.vector?) :
    ∃ w', s.vector? w = some w' := by
  have hlt := h.fit.1.2 w hw
  rw [h.keeps, Array.size_map, Array.size_range] at hlt
  exact ⟨w, h.keeps.vector?_eq_some_iff.mpr ⟨hlt, rfl⟩⟩

theorem ready_start {t : Tape V} (ht : t.WellFormed) :
    Ready t.valueCount (start t) t.body.toList := by
  have hvalues : (start t).values.size = t.indCount + 1 := by simp [start]
  refine ⟨?_, ?_, keepsVectors_start t⟩
  · rw [hvalues, t.valueCount_eq]
  · rw [hvalues]
    exact ht.body

end Rebuild

end OpTape
