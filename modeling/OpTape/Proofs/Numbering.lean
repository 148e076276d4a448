import OpTape.Proofs.Doubles
import OpTape.Proofs.Reachable
import OpTape.Proofs.Terms
import Mathlib.Order.Bounds.Basic
/-
  Merging is exact value numbering. Each value is redirected to the first one with the same term,
  however deep the terms are equal and however their sums and products are turned round
  (`mergeEqual_numbers`). The walk keeps an index (`Indexed`): every value is a leaf, or it stands
  for a result of the usage that is on record for its key. A key determines the term and the other
  way round, given that this is so for the operands (`Keyed.same_iff`), so the index tells the
  values apart that their terms tell apart (`Indexed.numbers`). The table of the whole walk serves
  for every step of it, because entries are never changed.
-/
namespace OpTape

variable {V : Type}

/-! ## The index -/

section

variable {value : Nat → Option Nat} {term : Nat → Term V}

/-- What is on record for the values below `count`, whose operands are below `n`: leaves stand for
themselves, any other value stands for a result of the usage that was first seen with its key. -/
structure Indexed [DecidableEq V] (value : Nat → Option Nat) (term : Nat → Term V) (n count : Nat)
    (seen : List (Usage V × Nat)) : Prop where
  values : ∀ i < count, value i = some i ∧ term i = .leaf i ∨ ∃ w first k, (w, first) ∈ seen ∧
    k < w.resultCount ∧ value i = some (first + k) ∧ Keyed value term n (term i) w k
  firsts : ∀ {w first k}, (w, first) ∈ seen → k < w.resultCount →
    value (first + k) = some (first + k) ∧ Keyed value term n (term (first + k)) w k
  lookup : ∀ {w first}, (w, first) ∈ seen → seen.lookup w = some first

variable [DecidableEq V] {n count : Nat} {seen : List (Usage V × Nat)}

theorem Indexed.mono {n' : Nat} (h : Indexed value term n count seen) (hn : n ≤ n') :
    Indexed value term n' count seen where
  values i hi := by
    rcases h.values i hi with hleaf | ⟨w, first, k, hseen, hk, hvalue, hkeyed⟩
    · exact Or.inl hleaf
    · exact Or.inr ⟨w, first, k, hseen, hk, hvalue, hkeyed.mono hn⟩
  firsts hseen hk := ⟨(h.firsts hseen hk).1, (h.firsts hseen hk).2.mono hn⟩
  lookup := h.lookup

/-- A usage goes on record with a key that was not seen before. -/
theorem Indexed.enter (h : Indexed value term n count seen) {w : Usage V} {first : Nat}
    (hnone : seen.lookup w = none) (hfirst : ∀ k < w.resultCount,
      value (first + k) = some (first + k) ∧ Keyed value term n (term (first + k)) w k) :
    Indexed value term n count ((w, first) :: seen) where
  values i hi := by
    rcases h.values i hi with hleaf | ⟨w', first', k, hseen, hold⟩
    · exact Or.inl hleaf
    · exact Or.inr ⟨w', first', k, List.mem_cons_of_mem _ hseen, hold⟩
  firsts {w' first' k} hseen hk := by
    rcases List.mem_cons.mp hseen with heq | hold
    · obtain ⟨rfl, rfl⟩ := Prod.mk.inj heq
      exact hfirst k hk
    · exact h.firsts hold hk
  lookup {w' first'} hseen := by
    rcases List.mem_cons.mp hseen with heq | hold
    · obtain ⟨rfl, rfl⟩ := Prod.mk.inj heq
      exact List.lookup_cons_self
    · have hlookup := h.lookup hold
      have hne : (w' == w) = false := by
        rw [beq_eq_false_iff_ne]
        rintro rfl
        cases hnone.symm.trans hlookup
      rw [List.lookup_cons, hne]
      exact hlookup

/-- Further values stand for themselves as leaves, or for results that are on record. -/
theorem Indexed.extend (h : Indexed value term n count seen) {more : Nat}
    (hmore : ∀ k < more, value (count + k) = some (count + k) ∧
        term (count + k) = .leaf (count + k) ∨
      ∃ w first, (w, first) ∈ seen ∧ k < w.resultCount ∧ value (count + k) = some (first + k) ∧
        Keyed value term n (term (count + k)) w k) :
    Indexed value term n (count + more) seen where
  values i hi := by
    rcases Nat.lt_or_ge i count with hlt | hge
    · exact h.values i hlt
    · obtain ⟨k, rfl⟩ := Nat.exists_eq_add_of_le hge
      rcases hmore k (by omega) with hleaf | ⟨w, first, hfound⟩
      · exact Or.inl hleaf
      · exact Or.inr ⟨w, first, k, hfound⟩
  firsts := h.firsts
  lookup := h.lookup

/-- A leaf stands for no other value, and none stands for it. -/
theorem Indexed.ne_of_leaf (h : Indexed value term n count seen) {i : Nat}
    (hterm : term i = .leaf i) {w : Usage V} {first k : Nat} (hseen : (w, first) ∈ seen)
    (hk : k < w.resultCount) : i ≠ first + k := by
  rintro rfl
  exact (hterm ▸ (h.firsts hseen hk).2).not_leaf

/-- Values are told apart as their terms are, once this is known of the operands. -/
theorem Indexed.numbers (h : Indexed value term n count seen) (hnumbers : Numbers value term n) :
    Numbers value term count := by
  intro i hi j hj
  rcases h.values i hi with ⟨hvi, hti⟩ | ⟨w, first, k, hseen, hk, hvi, hkeyed⟩
  · rcases h.values j hj with ⟨hvj, htj⟩ | ⟨w', first', k', hseen', hk', hvj, hkeyed'⟩
    · rw [hvi, hvj, hti, htj, Option.some.injEq]
      constructor
      · rintro rfl
        exact .leaf i
      · rintro ⟨⟩
        rfl
    · rw [hvi, hvj, hti, Option.some.injEq]
      exact iff_of_false (h.ne_of_leaf hti hseen' hk') (hkeyed'.not_same_leaf i)
  · rcases h.values j hj with ⟨hvj, htj⟩ | ⟨w', first', k', hseen', hk', hvj, hkeyed'⟩
    · rw [hvi, hvj, htj, Option.some.injEq]
      exact iff_of_false (Ne.symm (h.ne_of_leaf htj hseen hk)) (hkeyed.not_leaf_same j)
    · rw [hvi, hvj, Option.some.injEq, hkeyed.same_iff hnumbers hkeyed']
      constructor
      · intro heq
        -- one value cannot be the result of two usages on record
        have hsame := (h.firsts hseen hk).2
        rw [heq] at hsame
        have hself := ((h.firsts hseen' hk').2.same_iff hnumbers (h.firsts hseen' hk').2).mpr
          ⟨rfl, rfl⟩
        exact (hsame.same_iff hnumbers (h.firsts hseen' hk').2).mp hself
      · rintro ⟨rfl, rfl⟩
        have hfirst := (h.lookup hseen).symm.trans (h.lookup hseen')
        rw [Option.some.inj hfirst]

/-- What stands for a value stands for itself. -/
theorem Indexed.value_value (h : Indexed value term n count seen) {i j : Nat} (hi : i < count)
    (hij : value i = some j) : value j = some j := by
  rcases h.values i hi with ⟨hvi, -⟩ | ⟨w, first, k, hseen, hk, hvi, -⟩
  · obtain rfl := Option.some.inj (hvi.symm.trans hij)
    exact hij
  · obtain rfl := Option.some.inj (hvi.symm.trans hij)
    exact (h.firsts hseen hk).1

end

/-! ## Terms of a growing tape -/

namespace Usage

variable {terms : Array (Term V)} {u : Usage V}

theorem resultTerms_of_isMergeable (hu : u.isMergeable = true) {k : Nat}
    (hk : k < u.resultCount) :
    (u.resultTerms terms)[k]? = some (u.resultTerm (Term.ofTable terms) k) := by
  have hall : u.resultTerms terms
      = (List.range u.resultCount).map fun k => u.resultTerm (Term.ofTable terms) k := by
    cases u with
    | load => cases hu
    | _ => rfl
  rw [hall, List.getElem?_map, List.getElem?_range hk, Option.map_some]

theorem resultCount_pos (hu : u.isMergeable = true) : 0 < u.resultCount := by
  cases u with
  | compare | vector | load | store | print => cases hu
  | foreign family id callId n inputs =>
    exact Nat.pos_of_ne_zero (bne_iff_ne.mp hu)
  | _ => exact Nat.one_pos

/-- Of the usages that cannot be merged only a load has a result. -/
theorem resultTerms_of_not_isMergeable (hu : u.isMergeable = false) {k : Nat}
    (hk : k < u.resultCount) : (u.resultTerms terms)[k]? = some (.leaf (terms.size + k)) := by
  cases u with
  | load =>
    obtain rfl : k = 0 := Nat.lt_one_iff.mp hk
    rfl
  | compare | vector | store | print => cases hk
  | foreign family id callId n inputs =>
    obtain rfl : n = 0 := by simpa [isMergeable, resultCount] using hu
    cases hk
  | _ => cases hu

theorem length_resultTerms (terms : Array (Term V)) (u : Usage V) :
    (u.resultTerms terms).length = u.resultCount := by
  cases u <;> simp [resultTerms, resultCount]

theorem size_unfold (terms : Array (Term V)) (u : Usage V) :
    (u.unfold terms).size = terms.size + u.resultCount := by
  rw [unfold, append_list_eq, Array.size_append]
  exact congrArg (terms.size + ·) (length_resultTerms terms u)

theorem ofTable_unfold_of_lt (u : Usage V) {i : Nat} (h : i < terms.size) :
    Term.ofTable (u.unfold terms) i = Term.ofTable terms i := by
  unfold Term.ofTable Usage.unfold
  rw [append_list_eq, Array.getElem?_append_left h]

theorem ofTable_unfold_add {k : Nat} {T : Term V} (h : (u.resultTerms terms)[k]? = some T) :
    Term.ofTable (u.unfold terms) (terms.size + k) = T := by
  unfold Term.ofTable Usage.unfold
  rw [append_list_eq, Array.getElem?_append_right (Nat.le_add_right _ _), Nat.add_sub_cancel_left,
    List.getElem?_toArray, h]
  rfl

/-- The terms of a list of usages leave those before them alone. -/
theorem ofTable_foldl_of_lt (us : List (Usage V)) {i : Nat} (h : i < terms.size) :
    Term.ofTable (us.foldl unfold terms) i = Term.ofTable terms i := by
  induction us generalizing terms with
  | nil => rfl
  | cons u us ih =>
    have hlt : i < (u.unfold terms).size := by
      rw [size_unfold]
      omega
    rw [List.foldl_cons, ih hlt, ofTable_unfold_of_lt u h]

end Usage

/-! ## The walk -/

namespace Merge

variable {m m' : Merge V} {u u' : Usage V} {i j : Nat}

/-- Operands that were found in the table are on the tape. -/
theorem Ordered.args_lt (hm : m.Ordered) (hu : Usage.Renames m.value? some u u') :
    ∀ i ∈ u.args, i < m.tape.valueCount := by
  intro i hi
  have hmem : m.value? i ∈ u'.args.map some := hu.map_args ▸ List.mem_map_of_mem hi
  obtain ⟨j, -, hj⟩ := List.mem_map.mp hmem
  have hlt : i < m.equal.size := (Array.getElem?_eq_some_iff.mp hj.symm).1
  rwa [hm.size] at hlt

variable [DecidableEq V]

theorem value?_record_add (hm : m.Ordered) {k : Nat} (hk : k < u.resultCount) :
    (m.record u).value? (m.tape.valueCount + k) = some (m.source u + k) := by
  unfold value? record
  dsimp only
  rw [append_list_eq, ← hm.size, Array.getElem?_append_right (Nat.le_add_right _ _),
    Nat.add_sub_cancel_left, List.getElem?_toArray, List.getElem?_range' hk, Nat.one_mul]

theorem seen_record_of_not (hu : u.isMergeable = false) : (m.record u).seen = m.seen := by
  unfold record
  rw [hu, Bool.false_and, if_neg Bool.false_ne_true]

/-- A usage is put on record, or one with its key is there already. -/
theorem seen_record_cases (hm : m.Ordered) (hu : u.isMergeable = true) :
    (m.seen.lookup u.ordered = none ∧ m.source u = m.tape.valueCount ∧
      (m.record u).seen = (u.ordered, m.source u) :: m.seen) ∨
    (u.ordered, m.source u) ∈ m.seen ∧ (m.record u).seen = m.seen := by
  have hsource : m.source u = (m.seen.lookup u.ordered).getD m.tape.valueCount := by
    rw [source, if_pos hu]
  cases hlookup : m.seen.lookup u.ordered with
  | none =>
    rw [hlookup, Option.getD_none] at hsource
    refine Or.inl ⟨rfl, hsource, ?_⟩
    unfold record
    rw [hu, Bool.true_and, if_pos (beq_iff_eq.mpr hsource)]
  | some first =>
    rw [hlookup, Option.getD_some] at hsource
    obtain ⟨before, after, heq, -⟩ := List.lookup_eq_some_iff.mp hlookup
    have hmem : (u.ordered, first) ∈ m.seen := by simp [heq]
    have hbefore := (hm.seen hmem).1
    rw [Usage.resultCount_ordered] at hbefore
    have hpos := Usage.resultCount_pos hu
    refine Or.inr ⟨hsource ▸ hmem, ?_⟩
    unfold record
    rw [hu, Bool.true_and, if_neg]
    rw [beq_iff_eq]
    omega

variable {value : Nat → Option Nat} {term : Nat → Term V}

/-- The index takes the results of one more usage. -/
theorem Ordered.indexed_record (hm : m.Ordered)
    (h : Indexed value term m.tape.valueCount m.tape.valueCount m.seen)
    (hu : Usage.Renames value some u u') (hargs : ∀ i ∈ u.args, i < m.tape.valueCount)
    (hvalue : ∀ k < u.resultCount, value (m.tape.valueCount + k) = some (m.source u' + k))
    (hleaf : u.isMergeable = false → ∀ k < u.resultCount,
      term (m.tape.valueCount + k) = .leaf (m.tape.valueCount + k))
    (hresult : u.isMergeable = true → ∀ k < u.resultCount,
      term (m.tape.valueCount + k) = u.resultTerm term k) :
    Indexed value term m.tape.valueCount (m.tape.valueCount + u.resultCount)
      (m.record u').seen := by
  have hcount : u'.ordered.resultCount = u.resultCount := by
    rw [Usage.resultCount_ordered, hu.resultCount_eq]
  cases hmerge : u.isMergeable with
  | false =>
    have hmerge' : u'.isMergeable = false := hu.isMergeable_eq.trans hmerge
    have hsource : m.source u' = m.tape.valueCount := by
      rw [source, hmerge', if_neg Bool.false_ne_true]
    rw [seen_record_of_not hmerge']
    exact h.extend fun k hk => Or.inl ⟨hsource ▸ hvalue k hk, hleaf hmerge k hk⟩
  | true =>
    have hkeyed (k : Nat) (hk : k < u.resultCount) :
        Keyed value term m.tape.valueCount (term (m.tape.valueCount + k)) u'.ordered k :=
      hresult hmerge k hk ▸ .intro hmerge hargs hu hk
    rcases seen_record_cases hm (hu.isMergeable_eq.trans hmerge) with
      ⟨hnone, hsource, hseen⟩ | ⟨hmem, hseen⟩
    · rw [hseen, hsource]
      rw [hsource] at hvalue
      have hentered := h.enter hnone fun k hk =>
        ⟨hvalue k (hcount ▸ hk), hkeyed k (hcount ▸ hk)⟩
      exact hentered.extend fun k hk =>
        Or.inr ⟨_, _, List.mem_cons_self, hcount.symm ▸ hk, hvalue k hk, hkeyed k hk⟩
    · rw [hseen]
      exact h.extend fun k hk =>
        Or.inr ⟨_, _, hmem, hcount.symm ▸ hk, hvalue k hk, hkeyed k hk⟩

/-- The values so far are on record, and told apart as their terms are. -/
structure Numbered (value : Nat → Option Nat) (term : Nat → Term V) (m : Merge V) : Prop where
  indexed : Indexed value term m.tape.valueCount m.tape.valueCount m.seen
  numbers : Numbers value term m.tape.valueCount

/-- The walk numbers its values. The table and the terms are those at the end of the walk, which
say of the values so far what was said of them before. -/
theorem Walk.numbered {us us' : List (Usage V)} {terms : Array (Term V)} (h : Walk m us us' m')
    (hm : m.Ordered) (hterms : terms.size = m.tape.valueCount)
    (hstart : m.Numbered m'.value? (Term.ofTable (us.foldl Usage.unfold terms))) :
    m'.Numbered m'.value? (Term.ofTable (us.foldl Usage.unfold terms)) := by
  induction h generalizing terms with
  | nil => exact hstart
  | @cons m m' u u' us us' hu rest ih =>
    rw [List.foldl_cons] at hstart ⊢
    have hargs := hm.args_lt hu
    have hnext := hm.record fun j hj => hm.lt_of_renames hu hj
    have hsize : (u.unfold terms).size = m.tape.valueCount + u.resultCount := by
      rw [Usage.size_unfold, hterms]
    have hbelow {i : Nat} (hi : i < m.tape.valueCount) :
        Term.ofTable (us.foldl Usage.unfold (u.unfold terms)) i = Term.ofTable terms i := by
      rw [Usage.ofTable_foldl_of_lt us (by omega), Usage.ofTable_unfold_of_lt u (by omega)]
    have hadded {k : Nat} (hk : k < u.resultCount) {T : Term V}
        (hT : (u.resultTerms terms)[k]? = some T) :
        Term.ofTable (us.foldl Usage.unfold (u.unfold terms)) (m.tape.valueCount + k) = T := by
      rw [Usage.ofTable_foldl_of_lt us (by omega), ← hterms, Usage.ofTable_unfold_add hT]
    have hindexed := hm.indexed_record hstart.indexed
      (hu.mono fun hij => rest.value?_mono (value?_record_of_value? hij u')) hargs
      (fun k hk => rest.value?_mono (value?_record_add hm (hu.resultCount_eq.symm ▸ hk)))
      (fun hmerge k hk => by
        rw [hadded hk (Usage.resultTerms_of_not_isMergeable hmerge hk), hterms])
      (fun hmerge k hk => by
        rw [hadded hk (Usage.resultTerms_of_isMergeable hmerge hk)]
        exact Usage.resultTerm_congr (fun i hi => (hbelow (hargs i hi)).symm) k)
    have hcount : (m.record u').tape.valueCount = m.tape.valueCount + u.resultCount := by
      rw [tape_record, Tape.valueCount_push, hu.resultCount_eq]
    refine ih hnext (hsize.trans hcount.symm) ⟨?_, ?_⟩
    · rw [hcount]
      exact hindexed.mono (Nat.le_add_right _ _)
    · rw [hcount]
      exact hindexed.numbers hstart.numbers

end Merge

namespace Tape

variable [Scalar V]

/-- The terms of all values of a tape. -/
def terms (t : Tape V) : Array (Term V) :=
  t.usages.foldl Usage.unfold ((Array.range t.indCount).map .leaf)

/-- The term of a value. -/
def term (t : Tape V) (i : Nat) : Term V := .ofTable t.terms i

/-- The terms of the independents and of zero. -/
def firstTerms (t : Tape V) : Array (Term V) :=
  Usage.unfold ((Array.range t.indCount).map .leaf) (.constant Scalar.zero)

theorem size_firstTerms (t : Tape V) : t.firstTerms.size = t.indCount + 1 := by
  rw [firstTerms, Usage.size_unfold, Array.size_map, Array.size_range]
  rfl

theorem term_firstTerms (t : Tape V) {i : Nat} (hi : i < t.indCount + 1) :
    t.term i = .ofTable t.firstTerms i :=
  Usage.ofTable_foldl_of_lt t.body.toList (t.size_firstTerms.symm ▸ hi)

theorem terms_push (t : Tape V) (u : Usage V) : (t.push u).terms = u.unfold t.terms := by
  unfold terms usages
  rw [body_push, Array.toList_push, ← List.cons_append, List.foldl_append]
  rfl

theorem size_terms (t : Tape V) : t.terms.size = t.valueCount := by
  have hsize (terms : Array (Term V)) (us : List (Usage V)) :
      (us.foldl Usage.unfold terms).size = terms.size + Usage.resultTotal us := by
    induction us generalizing terms with
    | nil => rfl
    | cons u us ih =>
      rw [List.foldl_cons, ih, Usage.size_unfold, Usage.resultTotal_cons, Nat.add_assoc]
  have hcount := hsize t.firstTerms t.body.toList
  rw [size_firstTerms, ← t.valueCount_eq] at hcount
  exact hcount

theorem term_of_lt (t : Tape V) {i : Nat} (hi : i < t.indCount) : t.term i = .leaf i := by
  rw [term_firstTerms t (Nat.lt_succ_of_lt hi), firstTerms,
    Usage.ofTable_unfold_of_lt _ (by simpa using hi)]
  simp [Term.ofTable, hi]

theorem term_zeroIndex (t : Tape V) : t.term t.zeroIndex = .constant Scalar.zero := by
  have hsize : ((Array.range t.indCount).map (Term.leaf (V := V))).size = t.indCount := by
    rw [Array.size_map, Array.size_range]
  refine (term_firstTerms t (Nat.lt_succ_self _)).trans ?_
  rw [← hsize]
  exact Usage.ofTable_unfold_add (k := 0) rfl

variable [DecidableEq V]

/-- The value that is read instead of a value once equal usages are merged. -/
def firstEqual (t : Tape V) (i : Nat) : Nat :=
  ((t.body.toList.foldlM Merge.step? (Merge.start t)).bind (·.value? i)).getD i

theorem numbered_start (t : Tape V) {value : Nat → Option Nat}
    (hvalue : ∀ i < t.indCount + 1, value i = some i) :
    (Merge.start t).Numbered value t.term := by
  let zero : Usage V := .constant Scalar.zero
  have hempty : Indexed value t.term 0 0 [] :=
    { values := fun i hi => absurd hi (Nat.not_lt_zero i)
      firsts := fun h => absurd h List.not_mem_nil
      lookup := fun h => absurd h List.not_mem_nil }
  have hleaves : Indexed value t.term 0 (0 + t.indCount) [] := hempty.extend fun k hk => by
    rw [Nat.zero_add]
    exact Or.inl ⟨hvalue k (Nat.lt_succ_of_lt hk), t.term_of_lt hk⟩
  rw [Nat.zero_add] at hleaves
  have hzero (k : Nat) (hk : k < zero.resultCount) :
      value (t.zeroIndex + k) = some (t.zeroIndex + k) ∧
        Keyed value t.term 0 (t.term (t.zeroIndex + k)) zero k := by
    obtain rfl : k = 0 := Nat.lt_one_iff.mp hk
    refine ⟨hvalue _ (Nat.lt_succ_self _), ?_⟩
    rw [Nat.add_zero, term_zeroIndex]
    exact .intro (u := zero) rfl (fun i hi => absurd hi List.not_mem_nil) (.constant _) Nat.one_pos
  have hindexed : Indexed value t.term 0 (t.indCount + 1) [(zero, t.zeroIndex)] :=
    (hleaves.enter rfl hzero).extend fun k hk =>
      Or.inr ⟨zero, t.zeroIndex, List.mem_singleton.mpr rfl, hk, hzero k hk⟩
  exact ⟨hindexed.mono (Nat.zero_le _), hindexed.numbers fun i hi => absurd hi (Nat.not_lt_zero i)⟩

section

variable {t : Tape V} {us' : List (Usage V)} {m : Merge V}

theorem firstEqual_eq (h : Merge.Walk (.start t) t.body.toList us' m) {i j : Nat}
    (hij : m.value? i = some j) : t.firstEqual i = j := by
  rw [firstEqual, Merge.foldlM_eq_some_iff.mpr ⟨us', h⟩, Option.bind_some, hij, Option.getD_some]

theorem value?_eq_firstEqual (h : Merge.Walk (.start t) t.body.toList us' m) {i : Nat}
    (hi : i < t.valueCount) : m.value? i = some (t.firstEqual i) := by
  have hlt : i < m.equal.size := by
    rwa [(h.ordered (Merge.ordered_start t)).size, valueCount_of_walk h]
  have hfound : m.value? i = some m.equal[i] := Array.getElem?_eq_getElem hlt
  rw [hfound, firstEqual_eq h hfound]

theorem renames_firstEqual (h : Merge.Walk (.start t) t.body.toList us' m) :
    List.Forall₂ (Usage.Renames (fun i => some (t.firstEqual i)) some) t.usages m.tape.usages :=
  h.renames_usages.imp fun _ _ hu => hu.mono fun hij => congrArg some (firstEqual_eq h hij)

/-- Set dependents are replaced by their first equals. -/
theorem deps_eq_of_walk (h : Merge.Walk (.start t) t.body.toList us' m)
    {deps : Option (List Nat)}
    (hdeps : t.deps.mapM (fun values => values.mapM m.value?) = some deps) :
    deps = t.deps.map (·.map t.firstEqual) := by
  cases hset : t.deps with
  | none =>
    rw [hset] at hdeps
    exact (Option.some.inj hdeps).symm
  | some values =>
    rw [hset] at hdeps
    obtain ⟨values', hvalues, rfl⟩ : ∃ values', values.mapM m.value? = some values' ∧
        some values' = deps := by simpa using hdeps
    have hmap : values'.map id = values.map t.firstEqual :=
      map_congr_of_mapM hvalues fun i _ j hij => (firstEqual_eq h hij).symm
    rw [List.map_id] at hmap
    exact congrArg some hmap

theorem numbered_of_walk (h : Merge.Walk (.start t) t.body.toList us' m) :
    m.Numbered m.value? t.term := by
  have hstart (i : Nat) (hi : i < t.indCount + 1) : m.value? i = some i :=
    h.value?_mono ((Merge.value?_start t).mpr ⟨hi, rfl⟩)
  exact h.numbered (Merge.ordered_start t) t.size_firstTerms (t.numbered_start hstart)

/-- First equals are told apart as terms are. -/
theorem firstEqual_eq_iff (h : Merge.Walk (.start t) t.body.toList us' m) {v w : Nat}
    (hv : v < t.valueCount) (hw : w < t.valueCount) :
    t.firstEqual v = t.firstEqual w ↔ (t.term v).Same (t.term w) := by
  have hcount := valueCount_of_walk h
  rw [← (numbered_of_walk h).numbers v (by omega) w (by omega), value?_eq_firstEqual h hv,
    value?_eq_firstEqual h hw, Option.some.injEq]

/-- A first equal is its own first equal, and it stands before all that it is equal to. -/
theorem isLeast_firstEqual (h : Merge.Walk (.start t) t.body.toList us' m) {v : Nat}
    (hv : v < t.valueCount) :
    IsLeast {w | w < t.valueCount ∧ (t.term v).Same (t.term w)} (t.firstEqual v) := by
  have hm := h.ordered (Merge.ordered_start t)
  have hcount := valueCount_of_walk h
  have hvalue := value?_eq_firstEqual h hv
  have hlt : t.firstEqual v < t.valueCount := Nat.lt_of_le_of_lt (hm.le hvalue) hv
  have hself : m.value? (t.firstEqual v) = some (t.firstEqual v) :=
    (numbered_of_walk h).indexed.value_value (by omega) hvalue
  refine ⟨⟨hlt, ?_⟩, fun w ⟨hw, hsame⟩ => ?_⟩
  · rw [← firstEqual_eq_iff h hv hlt]
    exact (firstEqual_eq h hself).symm
  · rw [← firstEqual_eq_iff h hv hw] at hsame
    rw [hsame]
    exact hm.le (value?_eq_firstEqual h hw)

end

/-- Merging is exact value numbering. Everything that reads a value reads its first equal instead,
usages and dependents alike. Two values have the same first equal exactly when their terms are the
same up to the order of the operands of sums and products, and the first equal is the smallest
value with such a term. -/
theorem mergeEqual_numbers {t : Tape V} (ht : t.Reachable) :
    ∃ t', t.mergeEqual = .ok t' ∧
      List.Forall₂ (Usage.Renames (fun i => some (t.firstEqual i)) some)
        t.body.toList t'.body.toList ∧
      t'.deps = t.deps.map (·.map t.firstEqual) ∧
      ∀ v < t.valueCount,
        (∀ w < t.valueCount, t.firstEqual v = t.firstEqual w ↔ (t.term v).Same (t.term w)) ∧
        IsLeast {w | w < t.valueCount ∧ (t.term v).Same (t.term w)} (t.firstEqual v) := by
  obtain ⟨t', h⟩ := ht.wellFormed.exists_mergeEqual
  obtain ⟨us', m, deps, hwalk, hdeps, rfl⟩ := mergeEqual_eq_ok_iff.mp h
  exact ⟨_, h, (List.forall₂_cons.mp (renames_firstEqual hwalk)).2, deps_eq_of_walk hwalk hdeps,
    fun v hv => ⟨fun w hw => firstEqual_eq_iff hwalk hv hw, isLeast_firstEqual hwalk hv⟩⟩

/-- A sum times one of its operands, and the same product turned round throughout. -/
def turnedRound : Tape Float :=
  let sums := ((new 2 {}).push (.binary .add 0 1)).push (.binary .add 1 0)
  { (sums.push (.binary .mul 3 0)).push (.binary .mul 0 4) with deps := some [5, 6] }

theorem mergeEqual_numbers_turnedRound : turnedRound.Reachable ∧
    (turnedRound.term 5).Same (turnedRound.term 6) ∧
    ∃ t', turnedRound.mergeEqual = .ok t' ∧ t'.deps = some [5, 5] := by
  have hreachable : turnedRound.Reachable :=
    ((((Reachable.new 2 {}).push (by decide)).push (by decide)).push (by decide)).push
      (by decide) |>.withDependents rfl (by decide)
  have hfive : turnedRound.firstEqual 5 = 5 := by with_unfolding_all rfl
  have hsix : turnedRound.firstEqual 6 = 5 := by with_unfolding_all rfl
  obtain ⟨t', h, -, hdeps, hall⟩ := mergeEqual_numbers hreachable
  have hsame := ((hall 5 (by decide)).1 6 (by decide)).mp (hfive.trans hsix.symm)
  refine ⟨hreachable, hsame, t', h, hdeps.trans ?_⟩
  show some [turnedRound.firstEqual 5, turnedRound.firstEqual 6] = some [5, 5]
  rw [hfive, hsix]

end Tape

end OpTape
