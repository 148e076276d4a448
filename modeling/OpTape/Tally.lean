/-
  Counting how often each index occurs in a list.
-/
namespace OpTape

/-- Entry `i` is the number of times that index `i` was counted. -/
structure Tally where
  counts : Array Nat

namespace Tally

def count (t : Tally) (i : Nat) : Nat := t.counts[i]?.getD 0

def add (t : Tally) (i : Nat) : Tally := ⟨t.counts.modify i (· + 1)⟩

/-- The tally of a list of indices below `size`. -/
def ofList (size : Nat) (indices : List Nat) : Tally :=
  indices.foldl add ⟨Array.replicate size 0⟩

theorem size_add (t : Tally) (i : Nat) : (t.add i).counts.size = t.counts.size := by
  simp [add]

theorem count_add (t : Tally) (i j : Nat) (h : j < t.counts.size) :
    (t.add i).count j = t.count j + if i = j then 1 else 0 := by
  simp only [count, add, Array.getElem?_modify]
  split <;> simp [h]

theorem count_foldl_add (indices : List Nat) (t : Tally) (j : Nat) (h : j < t.counts.size) :
    (indices.foldl add t).count j = t.count j + indices.count j := by
  induction indices generalizing t with
  | nil => simp
  | cons i rest ih =>
    rw [List.foldl_cons, ih _ (by rw [size_add]; exact h), count_add _ _ _ h, List.count_cons]
    simp only [beq_iff_eq]
    omega

theorem count_ofList {size j : Nat} (indices : List Nat) (h : j < size) :
    (ofList size indices).count j = indices.count j := by
  rw [ofList, count_foldl_add _ _ _ (by simpa using h)]
  simp [count, h]

end Tally

end OpTape
