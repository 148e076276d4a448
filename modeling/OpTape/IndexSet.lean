/-
  Sets of indices, kept as one flag per index. The set grows as needed, so its laws hold
  without bounds.
-/
namespace OpTape

structure IndexSet where
  flags : Array Bool := #[]

namespace IndexSet

def contains (s : IndexSet) (i : Nat) : Bool := s.flags[i]?.getD false

def insert (s : IndexSet) (i : Nat) : IndexSet :=
  if i < s.flags.size then ⟨s.flags.setIfInBounds i true⟩
  else ⟨(s.flags ++ Array.replicate (i - s.flags.size) false).push true⟩

/-- Adds every index of a list. -/
def insertAll (s : IndexSet) (indices : List Nat) : IndexSet := indices.foldl insert s

theorem contains_empty (i : Nat) : ({} : IndexSet).contains i = false := by
  simp [contains]

theorem contains_insert_of_lt (s : IndexSet) {i : Nat} (h : i < s.flags.size) (j : Nat) :
    (⟨s.flags.setIfInBounds i true⟩ : IndexSet).contains j = (i == j || s.contains j) := by
  by_cases hij : i = j
  · subst hij
    simp [contains, h]
  · simp [contains, hij, Array.getElem?_setIfInBounds_ne]

/-- The flags with `false` added up to index `i`. -/
theorem getElem?_pad (flags : Array Bool) (n j : Nat) :
    (flags ++ Array.replicate n false)[j]?.getD false = flags[j]?.getD false := by
  rcases Nat.lt_or_ge j flags.size with h | h
  · rw [Array.getElem?_append_left h]
  · rw [Array.getElem?_append_right h, Array.getElem?_replicate, Array.getElem?_eq_none h]
    split <;> rfl

theorem contains_insert_of_le (s : IndexSet) {i : Nat} (h : s.flags.size ≤ i) (j : Nat) :
    (⟨(s.flags ++ Array.replicate (i - s.flags.size) false).push true⟩ : IndexSet).contains j
      = (i == j || s.contains j) := by
  have size : (s.flags ++ Array.replicate (i - s.flags.size) false).size = i := by
    rw [Array.size_append, Array.size_replicate]
    omega
  unfold contains
  rw [Array.getElem?_push, size]
  by_cases hij : j = i
  · subst hij
    simp
  · rw [if_neg hij, getElem?_pad]
    simp [Ne.symm hij]

@[simp] theorem contains_insert (s : IndexSet) (i j : Nat) :
    (s.insert i).contains j = (i == j || s.contains j) := by
  unfold insert
  split
  · rename_i h
    exact contains_insert_of_lt s h j
  · rename_i h
    exact contains_insert_of_le s (Nat.le_of_not_lt h) j

@[simp] theorem contains_insertAll (s : IndexSet) (indices : List Nat) (j : Nat) :
    (s.insertAll indices).contains j = (indices.contains j || s.contains j) := by
  unfold insertAll
  induction indices generalizing s with
  | nil => simp
  | cons i rest ih =>
    rw [List.foldl_cons, ih, contains_insert, List.contains_cons, ← Bool.or_assoc,
      Bool.or_comm (rest.contains j) (i == j), Bool.beq_comm (a := i)]

end IndexSet

end OpTape
