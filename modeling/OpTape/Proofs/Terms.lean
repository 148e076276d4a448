import OpTape.Packed
import OpTape.Proofs.MergeWalk
import Mathlib.Data.List.Forall2
/-
  Values as terms. The term of a value unfolds all that it is computed from, down to independents,
  loads and constants (`Tape.terms`). Two terms are the same up to the order of the operands of
  sums and products, at every depth (`Term.Same`). Merging does not look into terms: it compares
  single usages whose operands stand for their terms. `Keyed.same_iff` says that this comes to the
  same, as soon as the operands are told apart correctly.
-/
namespace OpTape

/-- A value with all that it is computed from. -/
inductive Term (V : Type)
  /-- A value that stands for itself: an independent, or what was loaded from a vector. -/
  | leaf (value : Nat)
  /-- Constants count by identity, not as numbers: zeros of opposite sign are two. -/
  | constant (value : V)
  /-- One of the results of a usage. -/
  | result (kind : Kind) (header : List Nat) (operands : List (Term V)) (position : Nat)

variable {V : Type}

namespace Term

/-- Equal but for the order of the two operands of commutative operators, at every depth. -/
inductive Same : Term V → Term V → Prop
  | leaf (i : Nat) : Same (.leaf i) (.leaf i)
  | constant (v : V) : Same (.constant v) (.constant v)
  | result {kind : Kind} {header : List Nat} {xs ys : List (Term V)} {k : Nat}
      (h : List.Forall₂ Same xs ys) : Same (.result kind header xs k) (.result kind header ys k)
  | swapped {op : BinaryOp} {header : List Nat} {x y x' y' : Term V} {k : Nat}
      (hop : op.isCommutative = true) (hx : Same x y') (hy : Same y x') :
      Same (.result (.binary op) header [x, y] k) (.result (.binary op) header [x', y'] k)

/-- The term of a value in a table; a value beyond it is taken for a leaf. -/
def ofTable (terms : Array (Term V)) (i : Nat) : Term V := terms[i]?.getD (.leaf i)

theorem same_result_iff {kind kind' : Kind} {header header' : List Nat} {xs ys : List (Term V)}
    {k k' : Nat} : Same (.result kind header xs k) (.result kind' header' ys k') ↔
      kind = kind' ∧ header = header' ∧ k = k' ∧ (List.Forall₂ Same xs ys ∨
        ∃ op x y x' y', op.isCommutative = true ∧ kind = .binary op ∧ xs = [x, y] ∧
          ys = [x', y'] ∧ Same x y' ∧ Same y x') := by
  constructor
  · intro h
    cases h with
    | result h => exact ⟨rfl, rfl, rfl, Or.inl h⟩
    | swapped hop hx hy =>
      exact ⟨rfl, rfl, rfl, Or.inr ⟨_, _, _, _, _, hop, rfl, rfl, rfl, hx, hy⟩⟩
  · rintro ⟨rfl, rfl, rfl, h | ⟨op, x, y, x', y', hop, rfl, rfl, rfl, hx, hy⟩⟩
    · exact .result h
    · exact .swapped hop hx hy

theorem not_same_constant {kind : Kind} {header : List Nat} {xs : List (Term V)} {k : Nat} {v : V} :
    ¬ Same (.result kind header xs k) (.constant v) := by
  rintro ⟨⟩

/-- Operands that are told apart by their values are told apart by their terms. -/
theorem forall₂_same_iff {value : Nat → Option Nat} {term : Nat → Term V} {xs ys : List Nat}
    (h : ∀ i ∈ xs, ∀ j ∈ ys, (value i = value j ↔ (term i).Same (term j))) :
    List.Forall₂ Same (xs.map term) (ys.map term) ↔ xs.map value = ys.map value := by
  induction xs generalizing ys with
  | nil => cases ys <;> simp
  | cons x xs ih =>
    cases ys with
    | nil => simp
    | cons y ys =>
      have hrest := ih fun i hi j hj =>
        h i (List.mem_cons_of_mem x hi) j (List.mem_cons_of_mem y hj)
      have hhead := h x List.mem_cons_self y List.mem_cons_self
      rw [List.map_cons, List.map_cons, List.map_cons, List.map_cons, List.forall₂_cons, hrest,
        List.cons.injEq, hhead]

end Term

/-! ## What a usage contributes -/

namespace Usage

/-- The slots in front of the operands in the argument slice of a usage. -/
def header (u : Usage V) : List Nat := (({} : Packed V).slice u).take u.kind.headerSize

/-- The term of result `k`, from the terms of the operands. -/
def resultTerm (operand : Nat → Term V) (k : Nat) : Usage V → Term V
  | .constant v => .constant v
  | u => .result u.kind u.header (u.args.map operand) k

/-- The terms of the results of the next usage. What is loaded depends on what its vector holds
by then, so it is a leaf. -/
def resultTerms (terms : Array (Term V)) (u : Usage V) : List (Term V) :=
  match u with
  | .load _ _ => [.leaf terms.size]
  | u => (List.range u.resultCount).map fun k => u.resultTerm (Term.ofTable terms) k

/-- The terms with those of one more usage. -/
def unfold (terms : Array (Term V)) (u : Usage V) : Array (Term V) := terms ++ u.resultTerms terms

/-- Where usages can be merged, the slots in front do not depend on what was packed before;
those of a constant are not compared. -/
theorem header_eq (p : Packed V) {u : Usage V} (hu : u.isMergeable) (hne : u.kind ≠ .constant) :
    (p.slice u).take u.kind.headerSize = u.header := by
  cases u with
  | constant v => exact absurd rfl hne
  | compare | vector | store | print | load => cases hu
  | unary | binary | discrete | select | sum | foreign => rfl

theorem resultTerm_of_ne {u : Usage V} (hne : u.kind ≠ .constant) (operand : Nat → Term V)
    (k : Nat) : u.resultTerm operand k = .result u.kind u.header (u.args.map operand) k := by
  cases u with
  | constant v => exact absurd rfl hne
  | _ => rfl

theorem eq_constant_of_kind {u : Usage V} (h : u.kind = .constant) : ∃ v, u = .constant v := by
  cases u with
  | constant v => exact ⟨v, rfl⟩
  | _ => cases h

theorem resultTerm_congr {term term' : Nat → Term V} {u : Usage V}
    (h : ∀ i ∈ u.args, term i = term' i) (k : Nat) :
    u.resultTerm term k = u.resultTerm term' k := by
  cases u with
  | constant v => rfl
  | _ => exact congrArg (Term.result _ _ · k) (List.map_congr_left h)

/-- A usage that can be merged, a constant apart, is given by its kind and its slots. -/
theorem eq_of_shape {u w : Usage V} (hu : u.isMergeable) (hne : u.kind ≠ .constant)
    (hkind : u.kind = w.kind) (hheader : u.header = w.header) (hargs : u.args = w.args) :
    u = w := by
  cases u with
  | constant v => exact absurd rfl hne
  | compare | vector | store | print | load => cases hu
  | unary op x =>
    cases w <;> cases hkind
    obtain rfl : x = _ := by simpa [args] using hargs
    rfl
  | binary op x y =>
    cases w <;> cases hkind
    obtain ⟨rfl, rfl⟩ : x = _ ∧ y = _ := by simpa [args] using hargs
    rfl
  | discrete id x =>
    cases w <;> cases hkind
    obtain rfl : x = _ := by simpa [args] using hargs
    obtain rfl : id = _ := by simpa [header, Packed.slice, kind, Kind.headerSize] using hheader
    rfl
  | select cmp x y a b =>
    cases w <;> cases hkind
    obtain ⟨rfl, rfl, rfl, rfl⟩ : x = _ ∧ y = _ ∧ a = _ ∧ b = _ := by simpa [args] using hargs
    rw [Comparison.code_injective (List.cons.inj hheader).1]
  | sum add sub =>
    cases w <;> cases hkind
    obtain ⟨rfl, rfl⟩ := List.append_inj hargs (List.cons.inj hheader).1
    rfl
  | foreign family id callId n inputs =>
    cases w <;> cases hkind
    obtain rfl : inputs = _ := hargs
    obtain ⟨rfl, rfl, rfl⟩ : n = _ ∧ id = _ ∧ callId = _ := by
      simpa [header, Packed.slice, kind, Kind.headerSize] using hheader
    rfl

/-! ## Renaming and ordering keep the shape -/

section

variable {value vector : Nat → Option Nat} {u u' : Usage V}

theorem Renames.isMergeable_eq (h : Renames value vector u u') :
    u'.isMergeable = u.isMergeable := by
  cases h <;> rfl

theorem Renames.header_eq (h : Renames value some u u') : u'.header = u.header := by
  cases h with
  | sum hadd hsub =>
    simp [header, Packed.slice, kind, Kind.headerSize, length_of_mapM_some hadd,
      length_of_mapM_some hsub]
  | foreign h => simp [header, Packed.slice, kind, Kind.headerSize, length_of_mapM_some h]
  | load hw _ | store hw _ _ =>
    obtain rfl := Option.some.inj hw
    rfl
  | _ => rfl

end

theorem kind_ordered (u : Usage V) : u.ordered.kind = u.kind := by
  cases u with
  | binary op x y =>
    simp only [ordered]
    split <;> rfl
  | _ => rfl

theorem ordered_binary_eq_iff {op : BinaryOp} {x y x' y' : Nat} :
    (binary op x y : Usage V).ordered = (binary op x' y').ordered ↔
      x = x' ∧ y = y' ∨ op.isCommutative = true ∧ x = y' ∧ y = x' := by
  cases hop : op.isCommutative with
  | false => simp [ordered, hop]
  | true =>
    simp only [ordered, hop, Bool.true_and, decide_eq_true_eq]
    split <;> split <;> simp only [binary.injEq, true_and] <;> omega

/-- Two usages count as one when they are equal, or once their two operands are exchanged. -/
theorem ordered_eq_iff {u w : Usage V} : u.ordered = w.ordered ↔ u = w ∨
    ∃ op x y, op.isCommutative = true ∧ u = .binary op x y ∧ w = .binary op y x := by
  constructor
  · intro h
    have hkind : u.kind = w.kind := by rw [← kind_ordered u, h, kind_ordered]
    cases u with
    | binary op x y =>
      cases w <;> cases hkind
      rcases ordered_binary_eq_iff.mp h with ⟨rfl, rfl⟩ | ⟨hop, rfl, rfl⟩
      · exact Or.inl rfl
      · exact Or.inr ⟨op, x, y, hop, rfl, rfl⟩
    | _ =>
      cases w <;> cases hkind
      exact Or.inl h
  · rintro (rfl | ⟨op, x, y, hop, rfl, rfl⟩)
    · rfl
    · exact ordered_binary_eq_iff.mpr (Or.inr ⟨hop, rfl, rfl⟩)

end Usage

/-! ## Terms and merged usages -/

/-- Below `n`, values stand for one value exactly when their terms are the same. -/
def Numbers (value : Nat → Option Nat) (term : Nat → Term V) (n : Nat) : Prop :=
  ∀ i < n, ∀ j < n, (value i = value j ↔ (term i).Same (term j))

/-- The term is result `k` of a usage that reads operands below `n` and counts as `w` once these
are merged. -/
inductive Keyed (value : Nat → Option Nat) (term : Nat → Term V) (n : Nat) :
    Term V → Usage V → Nat → Prop
  | intro {u u' : Usage V} {k : Nat} (hu : u.isMergeable = true) (hargs : ∀ i ∈ u.args, i < n)
      (hu' : Usage.Renames value some u u') (hk : k < u.resultCount) :
      Keyed value term n (u.resultTerm term k) u'.ordered k

namespace Keyed

variable {value : Nat → Option Nat} {term : Nat → Term V} {n : Nat} {T T' : Term V}
  {w w' : Usage V} {k k' : Nat}

theorem mono {n' : Nat} (h : Keyed value term n T w k) (hn : n ≤ n') :
    Keyed value term n' T w k := by
  cases h with
  | intro hu hargs hu' hk => exact .intro hu (fun i hi => Nat.lt_of_lt_of_le (hargs i hi) hn) hu' hk

theorem not_same_leaf (h : Keyed value term n T w k) (i : Nat) : ¬ (Term.leaf i).Same T := by
  cases h with
  | @intro u =>
    intro hsame
    cases u <;> cases hsame

theorem not_leaf_same (h : Keyed value term n T w k) (i : Nat) : ¬ T.Same (.leaf i) := by
  cases h with
  | @intro u =>
    intro hsame
    cases u <;> cases hsame

theorem not_leaf {i : Nat} (h : Keyed value term n (.leaf i) w k) : False :=
  h.not_same_leaf i (.leaf i)

section

variable {u u₁ v v₁ : Usage V}

theorem args_eq_iff (hu₁ : Usage.Renames value some u u₁) (hv₁ : Usage.Renames value some v v₁) :
    u.args.map value = v.args.map value ↔ u₁.args = v₁.args := by
  rw [hu₁.map_args, hv₁.map_args]
  exact List.map_inj_right fun _ _ => Option.some.inj

/-- Operand by operand, the same terms are equal usages. -/
theorem forall₂_iff (hnumbers : Numbers value term n) (hargs : ∀ i ∈ u.args, i < n)
    (hargs' : ∀ i ∈ v.args, i < n) (hu₁ : Usage.Renames value some u u₁)
    (hv₁ : Usage.Renames value some v v₁) (hu : u.isMergeable = true) (hne : u.kind ≠ .constant) :
    (u.kind = v.kind ∧ u.header = v.header ∧
      List.Forall₂ Term.Same (u.args.map term) (v.args.map term)) ↔ u₁ = v₁ := by
  rw [Term.forall₂_same_iff fun i hi j hj => hnumbers i (hargs i hi) j (hargs' j hj),
    args_eq_iff hu₁ hv₁]
  constructor
  · rintro ⟨hkind, hheader, hsame⟩
    refine Usage.eq_of_shape (hu₁.isMergeable_eq.trans hu) ?_ ?_ ?_ hsame
    · rwa [hu₁.kind_eq]
    · rwa [hu₁.kind_eq, hv₁.kind_eq]
    · rwa [hu₁.header_eq, hv₁.header_eq]
  · rintro rfl
    exact ⟨hu₁.kind_eq.symm.trans hv₁.kind_eq, hu₁.header_eq.symm.trans hv₁.header_eq, rfl⟩

/-- Crosswise, the same terms are the same operands the other way round. -/
theorem swapped_iff (hnumbers : Numbers value term n) (hargs : ∀ i ∈ u.args, i < n)
    (hargs' : ∀ i ∈ v.args, i < n) (hu₁ : Usage.Renames value some u u₁)
    (hv₁ : Usage.Renames value some v v₁) :
    (u.kind = v.kind ∧ ∃ op x y x' y', op.isCommutative = true ∧ u.kind = .binary op ∧
      u.args.map term = [x, y] ∧ v.args.map term = [x', y'] ∧ x.Same y' ∧ y.Same x') ↔
      ∃ op a b, op.isCommutative = true ∧ u₁ = .binary op a b ∧ v₁ = .binary op b a := by
  constructor
  · rintro ⟨hkind, op, x, y, x', y', hop, hbinary, hxs, hys, hx, hy⟩
    cases u <;> cases hbinary
    cases v <;> cases hkind
    rename_i i j i' j'
    simp only [Usage.args, List.map_cons, List.map_nil, List.cons.injEq, and_true] at hxs hys
    obtain ⟨rfl, rfl⟩ := hxs
    obtain ⟨rfl, rfl⟩ := hys
    simp only [Usage.args, List.mem_cons, List.not_mem_nil, or_false, forall_eq_or_imp,
      forall_eq] at hargs hargs'
    cases hu₁ with
    | @binary _ _ _ a b hi hj =>
    cases hv₁ with
    | @binary _ _ _ a' b' hi' hj' =>
    have hfirst : value i = value j' := (hnumbers i hargs.1 j' hargs'.2).mpr hx
    have hsecond : value j = value i' := (hnumbers j hargs.2 i' hargs'.1).mpr hy
    rw [hi, hj'] at hfirst
    rw [hj, hi'] at hsecond
    obtain rfl := Option.some.inj hfirst
    obtain rfl := Option.some.inj hsecond
    exact ⟨op, a, b, hop, rfl, rfl⟩
  · rintro ⟨op, a, b, hop, rfl, rfl⟩
    cases hu₁ with
    | @binary _ i j _ _ hi hj =>
    cases hv₁ with
    | @binary _ i' j' _ _ hi' hj' =>
    simp only [Usage.args, List.mem_cons, List.not_mem_nil, or_false, forall_eq_or_imp,
      forall_eq] at hargs hargs'
    refine ⟨rfl, op, _, _, _, _, hop, rfl, rfl, rfl, ?_, ?_⟩
    · exact (hnumbers i hargs.1 j' hargs'.2).mp (hi.trans hj'.symm)
    · exact (hnumbers j hargs.2 i' hargs'.1).mp (hj.trans hi'.symm)

end

/-- The terms of two results are the same exactly when their usages count as one and they are at
the same position, given that this is known of the operands. Each way of two terms to be the same
meets one way of two usages to count as one: operand by operand, or crosswise. -/
theorem same_iff (hnumbers : Numbers value term n) (h : Keyed value term n T w k)
    (h' : Keyed value term n T' w' k') : T.Same T' ↔ w = w' ∧ k = k' := by
  cases h with
  | @intro u u₁ _ hu hargs hu₁ hk =>
  cases h' with
  | @intro v v₁ _ hv hargs' hv₁ hk' =>
  have hkind : u₁.ordered = v₁.ordered → u.kind = v.kind := by
    intro heq
    rw [← hu₁.kind_eq, ← hv₁.kind_eq, ← Usage.kind_ordered, heq, Usage.kind_ordered]
  by_cases hne : u.kind = .constant
  · obtain ⟨c, rfl⟩ := Usage.eq_constant_of_kind hne
    obtain rfl : k = 0 := Nat.lt_one_iff.mp hk
    cases hu₁
    constructor
    · intro hsame
      cases v <;> cases hsame
      cases hv₁
      exact ⟨rfl, (Nat.lt_one_iff.mp hk').symm⟩
    · rintro ⟨hsame, rfl⟩
      obtain ⟨c', rfl⟩ := Usage.eq_constant_of_kind (hkind hsame).symm
      cases hv₁
      cases hsame
      exact .constant c
  · by_cases hne' : v.kind = .constant
    · obtain ⟨c, rfl⟩ := Usage.eq_constant_of_kind hne'
      rw [Usage.resultTerm_of_ne hne]
      exact ⟨fun hsame => absurd hsame Term.not_same_constant,
        fun hsame => absurd (hkind hsame.1) hne⟩
    · rw [Usage.resultTerm_of_ne hne, Usage.resultTerm_of_ne hne', Term.same_result_iff,
        Usage.ordered_eq_iff, ← forall₂_iff hnumbers hargs hargs' hu₁ hv₁ hu hne,
        ← swapped_iff hnumbers hargs hargs' hu₁ hv₁]
      constructor
      · rintro ⟨hkind, hheader, rfl, hall | hswapped⟩
        · exact ⟨Or.inl ⟨hkind, hheader, hall⟩, rfl⟩
        · exact ⟨Or.inr ⟨hkind, hswapped⟩, rfl⟩
      · rintro ⟨⟨hkind, hheader, hall⟩ | ⟨hkind, hswapped⟩, rfl⟩
        · exact ⟨hkind, hheader, rfl, Or.inl hall⟩
        · refine ⟨hkind, ?_, rfl, Or.inr hswapped⟩
          obtain ⟨op, _, _, _, _, -, hbinary, -⟩ := hswapped
          unfold Usage.header
          rw [← hkind, hbinary]
          rfl

end Keyed

end OpTape
