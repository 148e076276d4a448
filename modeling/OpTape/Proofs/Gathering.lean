import Mathlib.Algebra.BigOperators.Group.List.Basic
import Mathlib.Tactic.Abel
import OpTape.Proofs.Traversal
import OpTape.SumFusion
/-
  Gathering the operands of a sum. An operand that is pending gives way to its terms, with
  changed signs if it is subtracted. The gathered terms have the value of the sum
  (`value_gatherAll`), nothing of what was pending is lost but the operands themselves
  (`terms?_gatherAll`), and the gathered terms are operands or terms of pending operands
  (`mem_gatherAll`), all of them (`mem_gatherAll_of_mem`).
-/
namespace OpTape

namespace Terms

/-- All values that occur, the added ones first. -/
def all (t : Terms) : List Nat := t.add ++ t.sub

/-- The values with their signs, `true` standing for minus. -/
def signed (t : Terms) : List (Bool × Nat) :=
  t.add.map (false, ·) ++ t.sub.map (true, ·)

theorem map_snd_signed (t : Terms) : t.signed.map Prod.snd = t.all := by
  simp [signed, all]

theorem mem_all_append {s t : Terms} {k : Nat} : k ∈ (s.append t).all ↔ k ∈ s.all ∨ k ∈ t.all := by
  simp only [append, all, List.mem_append]
  tauto

theorem mem_all_negate {t : Terms} {k : Nat} : k ∈ t.negate.all ↔ k ∈ t.all := by
  simp only [negate, all, List.mem_append]
  tauto

section

variable {V : Type} [AddCommGroup V]

/-- What the terms sum up to on the given values. -/
def value (t : Terms) (values : Nat → V) : V :=
  (t.add.map values).sum - (t.sub.map values).sum

theorem value_append (s t : Terms) (values : Nat → V) :
    (s.append t).value values = s.value values + t.value values := by
  simp only [value, append, List.map_append, List.sum_append]
  abel

theorem value_negate (t : Terms) (values : Nat → V) : t.negate.value values = -t.value values := by
  simp only [value, negate]
  abel

theorem value_congr (t : Terms) {values values' : Nat → V} (h : ∀ k ∈ t.all, values' k = values k) :
    t.value values' = t.value values := by
  have hadd : t.add.map values' = t.add.map values :=
    List.map_congr_left fun k hk => h k (List.mem_append_left _ hk)
  have hsub : t.sub.map values' = t.sub.map values :=
    List.map_congr_left fun k hk => h k (List.mem_append_right _ hk)
  rw [value, value, hadd, hsub]

/-- The sum of signed values. -/
def signedSum (l : List (Bool × Nat)) (values : Nat → V) : V :=
  (l.map fun p => if p.1 then -values p.2 else values p.2).sum

theorem signedSum_signed (t : Terms) (values : Nat → V) :
    signedSum t.signed values = t.value values := by
  have hneg (l : List Nat) : (l.map fun i => -values i).sum = -(l.map values).sum := by
    induction l with
    | nil => simp
    | cons i l ih => rw [List.map_cons, List.sum_cons, ih, List.map_cons, List.sum_cons]; abel
  rw [signedSum, signed, List.map_append, List.sum_append, List.map_map, List.map_map, value,
    sub_eq_add_neg, ← hneg]
  rfl

end

end Terms

namespace Pending

/-- The terms of a value that is pending. -/
def terms? (p : Pending) (i : Nat) : Option Terms := p[i]?.join

theorem lt_of_terms? {p : Pending} {i : Nat} {t : Terms} (h : p.terms? i = some t) : i < p.size :=
  (Array.getElem?_eq_some_iff.mp (Option.join_eq_some_iff.mp h)).1

theorem terms?_replicate_none_ne (n i : Nat) (t : Terms) :
    Pending.terms? (Array.replicate n none) i ≠ some t := by
  rw [terms?, Array.getElem?_replicate]
  split <;> simp

theorem terms?_set_none (p : Pending) (i j : Nat) :
    Pending.terms? (p.setIfInBounds i none) j = if j = i then none else p.terms? j := by
  unfold terms?
  by_cases hij : j = i
  · subst hij
    rw [if_pos rfl, Array.getElem?_setIfInBounds_self]
    split <;> rfl
  · rw [if_neg hij, Array.getElem?_setIfInBounds_ne (Ne.symm hij)]

theorem terms?_push (p : Pending) (o : Option Terms) (i : Nat) :
    Pending.terms? (p.push o) i = if i = p.size then o else p.terms? i := by
  unfold terms?
  rw [Array.getElem?_push]
  split <;> rfl

theorem terms?_append_none (p : Pending) (n i : Nat) :
    Pending.terms? (p ++ List.replicate n (none : Option Terms)) i = p.terms? i := by
  unfold terms?
  rw [append_list_eq, Array.getElem?_append]
  split
  · rfl
  · rename_i hge
    rw [Array.getElem?_eq_none (Nat.le_of_not_lt hge), List.getElem?_toArray,
      List.getElem?_replicate]
    split <;> rfl

namespace Gathered

/-- Adds several signed values in turn. -/
def gatherList (g : Gathered) (l : List (Bool × Nat)) : Gathered :=
  l.foldl (fun g p => g.gather p.1 p.2) g

theorem gatherAll_eq (p : Pending) (t : Terms) :
    gatherAll p t = gatherList { pending := p } t.signed := by
  rw [gatherList, Terms.signed, List.foldl_append, List.foldl_map, List.foldl_map]
  rfl

/-- Both cases of adding one value. -/
theorem gather_cases (g : Gathered) (negated : Bool) (i : Nat) :
    (∃ inner, g.pending.terms? i = some inner ∧ g.gather negated i =
      { pending := g.pending.setIfInBounds i none
        terms := g.terms.append (if negated then inner.negate else inner)
        absorbed := true }) ∨
    (g.pending.terms? i = none ∧ g.gather negated i =
      { g with terms := g.terms.append (if negated then Terms.negate ⟨[i], []⟩ else ⟨[i], []⟩) }) := by
  unfold gather terms?
  cases g.pending[i]?.join with
  | some inner => exact Or.inl ⟨inner, rfl, rfl⟩
  | none => exact Or.inr ⟨rfl, rfl⟩

theorem size_gather (g : Gathered) (negated : Bool) (i : Nat) :
    (g.gather negated i).pending.size = g.pending.size := by
  rcases g.gather_cases negated i with ⟨inner, -, h⟩ | ⟨-, h⟩ <;> simp [h]

theorem terms?_gather (g : Gathered) (negated : Bool) (i j : Nat) :
    (g.gather negated i).pending.terms? j = if j = i then none else g.pending.terms? j := by
  rcases g.gather_cases negated i with ⟨inner, -, h⟩ | ⟨hnone, h⟩
  · rw [h, terms?_set_none]
  · rw [h]
    by_cases hji : j = i
    · rw [if_pos hji, hji]
      exact hnone
    · rw [if_neg hji]

theorem size_gatherList (g : Gathered) (l : List (Bool × Nat)) :
    (g.gatherList l).pending.size = g.pending.size := by
  induction l generalizing g with
  | nil => rfl
  | cons p l ih => exact (ih (g.gather p.1 p.2)).trans (size_gather g p.1 p.2)

/-- What was gathered is pending no longer; nothing else changes. -/
theorem terms?_gatherList (g : Gathered) (l : List (Bool × Nat)) (j : Nat) :
    (g.gatherList l).pending.terms? j
      = if j ∈ l.map Prod.snd then none else g.pending.terms? j := by
  induction l generalizing g with
  | nil => simp [gatherList]
  | cons p l ih =>
    show ((g.gather p.1 p.2).gatherList l).pending.terms? j = _
    rw [ih, terms?_gather]
    by_cases hj : j = p.2
    · simp [hj]
    · simp [hj]

/-- Unless something was absorbed, no operand was pending. -/
theorem terms?_of_absorbed_eq_false {g : Gathered} {l : List (Bool × Nat)}
    (h : (g.gatherList l).absorbed = false) :
    g.absorbed = false ∧ ∀ i ∈ l.map Prod.snd, g.pending.terms? i = none := by
  induction l generalizing g with
  | nil => exact ⟨h, by simp⟩
  | cons p l ih =>
    obtain ⟨hgather, hrest⟩ := ih (g := g.gather p.1 p.2) h
    rcases g.gather_cases p.1 p.2 with ⟨inner, -, heq⟩ | ⟨hnone, heq⟩
    · rw [heq] at hgather
      cases hgather
    · rw [heq] at hgather hrest
      refine ⟨hgather, fun i hi => ?_⟩
      rcases List.mem_cons.mp hi with rfl | hi
      · exact hnone
      · exact hrest i hi

/-- A property that the terms have so far, and that each operand has itself or has for its terms
while it waits for this one reader, is a property of all gathered terms. -/
theorem mem_gatherList {P : Nat → Prop} {g : Gathered} {l : List (Bool × Nat)}
    (hterms : ∀ k ∈ g.terms.all, P k)
    (hpending : ∀ {i t}, g.pending.terms? i = some t → ∀ k ∈ t.all, P k)
    (hl : ∀ i ∈ l.map Prod.snd,
      P i ∨ (g.pending.terms? i).isSome ∧ (l.map Prod.snd).count i = 1) :
    ∀ k ∈ (g.gatherList l).terms.all, P k := by
  induction l generalizing g with
  | nil => exact hterms
  | cons p l ih =>
    refine ih (g := g.gather p.1 p.2) (fun k hk => ?_) (fun {i t} hi k hk => ?_) fun i hi => ?_
    · rcases g.gather_cases p.1 p.2 with ⟨inner, hinner, heq⟩ | ⟨hnone, heq⟩
      · rw [heq] at hk
        rcases Terms.mem_all_append.mp hk with hk | hk
        · exact hterms k hk
        · refine hpending hinner k ?_
          split at hk
          · exact Terms.mem_all_negate.mp hk
          · exact hk
      · rw [heq] at hk
        rcases Terms.mem_all_append.mp hk with hk | hk
        · exact hterms k hk
        · obtain rfl : k = p.2 := by
            split at hk <;> simpa [Terms.all, Terms.negate] using hk
          rcases hl p.2 (by simp) with hp | ⟨hsome, -⟩
          · exact hp
          · simp [hnone] at hsome
    · rw [terms?_gather] at hi
      split at hi
      · cases hi
      · exact hpending hi k hk
    · rcases hl i (by simp [hi]) with hp | ⟨hsome, hcount⟩
      · exact Or.inl hp
      · -- the operand stands once in the list, so it is not the one that was taken off
        rw [List.map_cons, List.count_cons] at hcount
        have hpos := List.count_pos_iff.mpr hi
        have hne : i ≠ p.2 := by
          rintro rfl
          simp at hcount
          omega
        right
        rw [terms?_gather, if_neg hne]
        refine ⟨hsome, ?_⟩
        simpa [Ne.symm hne] using hcount

theorem mem_terms_gatherList {g : Gathered} {l : List (Bool × Nat)} {k : Nat}
    (hk : k ∈ g.terms.all) : k ∈ (g.gatherList l).terms.all := by
  induction l generalizing g with
  | nil => exact hk
  | cons p l ih =>
    refine ih (g := g.gather p.1 p.2) ?_
    rcases g.gather_cases p.1 p.2 with ⟨inner, -, heq⟩ | ⟨-, heq⟩ <;> rw [heq] <;>
      exact Terms.mem_all_append.mpr (.inl hk)

/-- Every operand is gathered, or its terms are. -/
theorem mem_gatherList_of_mem {g : Gathered} {l : List (Bool × Nat)} {i k : Nat}
    (hi : i ∈ l.map Prod.snd) (hk : k ∈ ((g.pending.terms? i).map Terms.all).getD [i]) :
    k ∈ (g.gatherList l).terms.all := by
  induction l generalizing g with
  | nil => cases hi
  | cons p l ih =>
    by_cases hip : i = p.2
    · subst hip
      refine mem_terms_gatherList (g := g.gather p.1 p.2) ?_
      rcases g.gather_cases p.1 p.2 with ⟨inner, hinner, heq⟩ | ⟨hnone, heq⟩
      · rw [hinner] at hk
        rw [heq]
        refine Terms.mem_all_append.mpr (.inr ?_)
        split
        · exact Terms.mem_all_negate.mpr hk
        · exact hk
      · rw [hnone] at hk
        obtain rfl := List.mem_singleton.mp hk
        rw [heq]
        refine Terms.mem_all_append.mpr (.inr ?_)
        split <;> simp [Terms.all, Terms.negate]
    · refine ih (g := g.gather p.1 p.2) ?_ ?_
      · exact (List.mem_cons.mp hi).resolve_left hip
      · rwa [terms?_gather, if_neg hip]

section

variable {V : Type} [AddCommGroup V]

/-- Gathering adds the signed values up, where a pending value is the sum of its terms. -/
theorem value_gatherList {values : Nat → V} {g : Gathered} {l : List (Bool × Nat)}
    (hpending : ∀ {i t}, g.pending.terms? i = some t → values i = t.value values) :
    (g.gatherList l).terms.value values
      = g.terms.value values + Terms.signedSum l values := by
  induction l generalizing g with
  | nil => simp [gatherList, Terms.signedSum]
  | cons p l ih =>
    have hrest : ∀ {i t}, (g.gather p.1 p.2).pending.terms? i = some t →
        values i = t.value values := by
      intro i t hi
      rw [terms?_gather] at hi
      split at hi
      · cases hi
      · exact hpending hi
    have hone : (g.gather p.1 p.2).terms.value values
        = g.terms.value values + if p.1 then -values p.2 else values p.2 := by
      rcases g.gather_cases p.1 p.2 with ⟨inner, hinner, heq⟩ | ⟨-, heq⟩
      · rw [heq, Terms.value_append, hpending hinner]
        split <;> simp [Terms.value_negate]
      · rw [heq, Terms.value_append]
        split <;> simp [Terms.value, Terms.negate]
    show ((g.gather p.1 p.2).gatherList l).terms.value values = _
    rw [ih hrest, hone, Terms.signedSum, Terms.signedSum, List.map_cons, List.sum_cons, add_assoc]

end

end Gathered

theorem size_gatherAll (p : Pending) (t : Terms) : (p.gatherAll t).pending.size = p.size := by
  rw [Gathered.gatherAll_eq, Gathered.size_gatherList]

theorem terms?_gatherAll (p : Pending) (t : Terms) (j : Nat) :
    (p.gatherAll t).pending.terms? j = if j ∈ t.all then none else p.terms? j := by
  rw [Gathered.gatherAll_eq, Gathered.terms?_gatherList, Terms.map_snd_signed]

theorem terms?_of_not_absorbed {p : Pending} {t : Terms} (h : (p.gatherAll t).absorbed = false) :
    ∀ i ∈ t.all, p.terms? i = none := by
  rw [Gathered.gatherAll_eq] at h
  have hnone := (Gathered.terms?_of_absorbed_eq_false h).2
  rwa [Terms.map_snd_signed] at hnone

theorem mem_gatherAll {P : Nat → Prop} {p : Pending} {t : Terms}
    (hpending : ∀ {i s}, p.terms? i = some s → ∀ k ∈ s.all, P k)
    (ht : ∀ i ∈ t.all, P i ∨ (p.terms? i).isSome ∧ t.all.count i = 1) :
    ∀ k ∈ (p.gatherAll t).terms.all, P k := by
  rw [Gathered.gatherAll_eq]
  refine Gathered.mem_gatherList (by simp [Terms.all]) hpending ?_
  rw [Terms.map_snd_signed]
  exact ht

theorem mem_gatherAll_of_mem {p : Pending} {t : Terms} {i k : Nat} (hi : i ∈ t.all)
    (hk : k ∈ ((p.terms? i).map Terms.all).getD [i]) : k ∈ (p.gatherAll t).terms.all := by
  rw [Gathered.gatherAll_eq]
  exact Gathered.mem_gatherList_of_mem (by rwa [Terms.map_snd_signed]) hk

theorem value_gatherAll {V : Type} [AddCommGroup V] {values : Nat → V} {p : Pending} {t : Terms}
    (hpending : ∀ {i s}, p.terms? i = some s → values i = s.value values) :
    (p.gatherAll t).terms.value values = t.value values := by
  rw [Gathered.gatherAll_eq, Gathered.value_gatherList hpending, Terms.signedSum_signed]
  simp [Terms.value]

end Pending

end OpTape
