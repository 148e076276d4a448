import OpTape.Proofs.Footprints
import OpTape.Proofs.Repetition
import OpTape.Proofs.SingleReader
/-
  Fusing sums is done after one run. The readers are counted once, on the old tape, while the run
  moves reads about: a sum that is absorbed hands its operands on to its reader. `Pending.Balanced`
  is the invariant that settles it. What is read of a value by the new tape so far, by the pending
  terms and by the usages to come adds up to the count on the old tape, and so do the reads by
  usages that add. At the end nothing is pending, so every value that is left has the readers it had
  (`WellFormed.counts_of_fuseSums`), and where no sum can be absorbed, fusing hands the tape back
  (`WellFormed.fuseSums_of_none`).
-/
namespace OpTape

variable {V : Type}

/-! ## Usages that add -/

namespace Usage

/-- The result is a sum of values less a sum of values. -/
def isAdditive (u : Usage V) : Bool := (Terms.ofUsage? u).isSome

variable {u u' : Usage V} {value vector : Nat → Option Nat}

theorem isAdditive_iff : u.isAdditive = true ↔ ∃ t, Terms.ofUsage? u = some t :=
  Option.isSome_iff_exists

theorem Renames.isAdditive_eq (h : Renames value vector u u') : u'.isAdditive = u.isAdditive := by
  cases h with
  | @unary op => cases op <;> rfl
  | @binary op => cases op <;> rfl
  | _ => rfl

theorem adds_of_isAdditive (h : u.isAdditive = true) : u.adds = u.reads := by
  obtain ⟨t, ht⟩ := isAdditive_iff.mp h
  rw [adds_of_ofUsage? ht, (Terms.reads_of_ofUsage? ht).1]

theorem adds_of_not_isAdditive (h : u.isAdditive = false) : u.adds = [] := by
  rw [adds, Option.isSome_eq_false_iff.mp h |> Option.isNone_iff_eq_none.mp]

theorem Renames.map_adds (h : Renames value vector u u') : u.adds.map value = u'.adds.map some := by
  cases hu : u.isAdditive with
  | true => rw [adds_of_isAdditive hu, adds_of_isAdditive (h.isAdditive_eq.trans hu), h.map_reads]
  | false =>
    rw [adds_of_not_isAdditive hu, adds_of_not_isAdditive (h.isAdditive_eq.trans hu)]
    rfl

end Usage

/-- An entry has on the list of new names the count that it had on the list of entries. -/
theorem count_of_map_eq {value : Nat → Option Nat} {xs ys : List Nat} {i j : Nat}
    (h : xs.map value = ys.map some) (hij : value i = some j)
    (honly : ∀ i' ∈ xs, value i' = some j → i' = i) : ys.count j = xs.count i := by
  induction xs generalizing ys with
  | nil =>
    obtain rfl := List.map_eq_nil_iff.mp h.symm
    rfl
  | cons x xs ih =>
    cases ys with
    | nil => cases h
    | cons y ys =>
      obtain ⟨hxy, hrest⟩ := List.cons.inj h
      rw [List.forall_mem_cons] at honly
      have hsame : (y == j) = (x == i) := by
        rw [Bool.eq_iff_iff, beq_iff_eq, beq_iff_eq]
        constructor
        · rintro rfl
          exact honly.1 hxy
        · rintro rfl
          exact Option.some.inj (hxy.symm.trans hij)
      rw [List.count_cons, List.count_cons, ih hrest honly.2, hsame]

namespace Tape

variable [Scalar V]

/-- How often usages and dependents read the value. -/
def readCount (t : Tape V) (i : Nat) : Nat := (Usage.readsFrom t.dependents t.usages).count i

/-- How often usages that add read the value. -/
def addCount (t : Tape V) (i : Nat) : Nat := (Usage.addsFrom t.usages).count i

/-- The usages that add and whose result is read only once, by another of them. -/
def absorbable (t : Tape V) : List (Place × Usage V) :=
  t.placed.filter fun (p, u) =>
    u.isAdditive && (t.readCount p.first == 1 && t.addCount p.first == 1)

/-- A usage that is recorded adds what it reads. -/
theorem count_usages_push (t : Tape V) (u : Usage V) (j : Nat) :
    (Usage.readsFrom [] (t.push u).usages).count j
        = (Usage.readsFrom [] t.usages).count j + u.reads.count j ∧
      (Usage.addsFrom (t.push u).usages).count j
        = (Usage.addsFrom t.usages).count j + u.adds.count j := by
  simp [Usage.readsFrom, Usage.addsFrom, usages_push]

/-- Nothing reads what is not there. -/
theorem WellFormed.count_usages_of_ge {t : Tape V} (ht : t.WellFormed) {j : Nat}
    (hj : t.valueCount ≤ j) : (Usage.readsFrom [] t.usages).count j = 0 ∧
      (Usage.addsFrom t.usages).count j = 0 := by
  have hreads : (Usage.readsFrom [] t.usages).count j = 0 := by
    refine List.count_eq_zero.mpr fun hmem => ?_
    rw [Usage.readsFrom, List.append_nil] at hmem
    obtain ⟨u, hu, hread⟩ := List.mem_flatMap.mp hmem
    exact absurd ((ht.fits_of_mem hu).1 j hread) (Nat.not_lt_of_le hj)
  have hle := Usage.count_addsFrom_le [] t.usages j
  exact ⟨hreads, by omega⟩

end Tape

/-! ## Gathering moves terms -/

namespace Pending

/-- All terms that are pending. -/
def all (p : Pending) : List Nat := p.toList.flatMap fun o => (o.map Terms.all).getD []

theorem all_push (p : Pending) (o : Option Terms) :
    Pending.all (p.push o) = p.all ++ (o.map Terms.all).getD [] := by
  simp [all]

theorem all_append_none (p : Pending) (n : Nat) :
    Pending.all (p ++ List.replicate n (none : Option Terms)) = p.all := by
  rw [append_list_eq]
  simp [all, List.flatMap_eq_nil_iff]

theorem count_set {l : List (Option Terms)} {i : Nat} {t : Terms} (h : l[i]? = some (some t))
    (k : Nat) : ((l.set i none).flatMap fun o => (o.map Terms.all).getD []).count k + t.all.count k
      = (l.flatMap fun o => (o.map Terms.all).getD []).count k := by
  induction l generalizing i with
  | nil => cases h
  | cons o l ih =>
    cases i with
    | zero =>
      obtain rfl := Option.some.inj h
      simp [Nat.add_comm]
    | succ i =>
      have hrest := ih (i := i) h
      simp only [List.set_cons_succ, List.flatMap_cons, List.count_append]
      omega

theorem count_all_set {p : Pending} {i : Nat} {t : Terms} (h : p.terms? i = some t) (k : Nat) :
    (Pending.all (p.setIfInBounds i none)).count k + t.all.count k = p.all.count k := by
  have hentry : p.toList[i]? = some (some t) := by
    rw [Array.getElem?_toList]
    exact Option.join_eq_some_iff.mp h
  rw [all, Array.toList_setIfInBounds]
  exact count_set hentry k

theorem all_eq_nil {p : Pending} (h : ∀ i, p.terms? i = none) : p.all = [] := by
  refine List.flatMap_eq_nil_iff.mpr fun o ho => ?_
  obtain ⟨i, hi⟩ := List.mem_iff_getElem?.mp ho
  cases o with
  | none => rfl
  | some t =>
    have hsome : p.terms? i = some t := by
      rw [terms?, ← Array.getElem?_toList, hi]
      rfl
    cases hsome.symm.trans (h i)

end Pending

namespace Terms

theorem count_all_append (s t : Terms) (k : Nat) :
    (s.append t).all.count k = s.all.count k + t.all.count k := by
  simp only [append, all, List.count_append]
  omega

theorem count_all_negate (t : Terms) (k : Nat) : t.negate.all.count k = t.all.count k := by
  simp only [negate, all, List.count_append]
  omega

end Terms

namespace Pending

/-- Gathering keeps the number of times that a value occurs which is not pending itself. -/
theorem Gathered.count_gatherList {g : Gathered} {l : List (Bool × Nat)} {k : Nat}
    (hk : g.pending.terms? k = none) :
    (g.gatherList l).terms.all.count k + (g.gatherList l).pending.all.count k
      = g.terms.all.count k + g.pending.all.count k + (l.map Prod.snd).count k := by
  induction l generalizing g with
  | nil => rfl
  | cons p l ih =>
    have hrest : (g.gather p.1 p.2).pending.terms? k = none := by
      rw [terms?_gather]
      split
      · rfl
      · exact hk
    have hone : (g.gather p.1 p.2).terms.all.count k + (g.gather p.1 p.2).pending.all.count k
        = g.terms.all.count k + g.pending.all.count k + if p.2 == k then 1 else 0 := by
      rcases g.gather_cases p.1 p.2 with ⟨inner, hinner, heq⟩ | ⟨-, heq⟩
      · have hne : (p.2 == k) = false := by
          rw [beq_eq_false_iff_ne]
          rintro rfl
          cases hk.symm.trans hinner
        have hset := count_all_set hinner k
        have hsided : (if p.1 then inner.negate else inner).all.count k = inner.all.count k := by
          split
          · exact Terms.count_all_negate inner k
          · rfl
        rw [heq, Terms.count_all_append, hsided, hne]
        simp only [Bool.false_eq_true, if_false]
        omega
      · have hsided : (if p.1 then Terms.negate ⟨[p.2], []⟩ else ⟨[p.2], []⟩ : Terms).all.count k
            = if p.2 == k then 1 else 0 := by
          split <;> simp [Terms.all, Terms.negate, List.count_singleton]
        rw [heq]
        show (g.terms.append _).all.count k + g.pending.all.count k = _
        rw [Terms.count_all_append, hsided]
        omega
    have hall := ih hrest
    show ((g.gather p.1 p.2).gatherList l).terms.all.count k
      + ((g.gather p.1 p.2).gatherList l).pending.all.count k = _
    rw [hall, hone, List.map_cons, List.count_cons]
    omega

theorem count_gatherAll {p : Pending} {t : Terms} {k : Nat} (hk : p.terms? k = none) :
    (p.gatherAll t).terms.all.count k + (p.gatherAll t).pending.all.count k
      = t.all.count k + p.all.count k := by
  have hcount := Gathered.count_gatherList (g := { pending := p }) (l := t.signed) hk
  rw [← Gathered.gatherAll_eq, Terms.map_snd_signed] at hcount
  have hstart : ({ pending := p } : Gathered).terms.all.count k
      + ({ pending := p } : Gathered).pending.all.count k = p.all.count k := Nat.zero_add _
  rw [hcount, hstart, Nat.add_comm]

/-- Where no operand is pending, there is nothing to gather but the operands. -/
theorem gatherAll_of_none {p : Pending} {t : Terms} (h : ∀ i ∈ t.all, p.terms? i = none) :
    (p.gatherAll t).pending = p ∧ (p.gatherAll t).absorbed = false := by
  have hlist {g : Gathered} {l : List (Bool × Nat)}
      (hl : ∀ i ∈ l.map Prod.snd, g.pending.terms? i = none) :
      (g.gatherList l).pending = g.pending ∧ (g.gatherList l).absorbed = g.absorbed := by
    induction l generalizing g with
    | nil => exact ⟨rfl, rfl⟩
    | cons p l ih =>
      rw [List.map_cons, List.forall_mem_cons] at hl
      rcases g.gather_cases p.1 p.2 with ⟨inner, hinner, -⟩ | ⟨-, heq⟩
      · cases hl.1.symm.trans hinner
      · have hrest := ih (g := g.gather p.1 p.2) (by rw [heq]; exact hl.2)
        rw [heq] at hrest
        have hsame : g.gatherList (p :: l) = (g.gather p.1 p.2).gatherList l := rfl
        rw [hsame, heq]
        exact hrest
  rw [Gathered.gatherAll_eq]
  exact hlist (by rwa [Terms.map_snd_signed])

end Pending

/-! ## The walk -/

/-- The old values that the usage recorded for `u` reads. -/
def Action.recorded (u : Usage V) : Action V → List Nat
  | .drop => []
  | .sum add sub => add ++ sub
  | _ => u.reads

/-- The old values that it adds up. -/
def Action.recordedAdds (u : Usage V) : Action V → List Nat
  | .drop => []
  | .sum add sub => add ++ sub
  | _ => u.adds

namespace Pending

variable {readers : Readers} {pending pending' : Pending} {u : Usage V} {us : List (Usage V)}
  {action : Action V} {i : Nat}

/-- The walk takes a usage off the tape where it adds and its one reader does. -/
theorem visit_eq_drop_iff (h : pending.visit readers u = (pending', action)) :
    action = .drop ↔ u.isAdditive = true ∧ readers.absorbs pending.size = true := by
  unfold visit at h
  split at h
  · rename_i hu
    obtain ⟨-, rfl⟩ := Prod.mk.inj h
    simp [Usage.isAdditive, hu]
  · rename_i t hu
    simp only at h
    split at h
    · rename_i habsorbs
      obtain ⟨-, rfl⟩ := Prod.mk.inj h
      simp [Usage.isAdditive, hu, habsorbs]
    · rename_i habsorbs
      obtain ⟨-, rfl⟩ := Prod.mk.inj h
      have hkept {add sub : List Nat} :
          (if (pending.gatherAll t).absorbed then .sum add sub else .copy : Action V) ≠ .drop := by
        split <;> simp
      exact iff_of_false hkept fun h => habsorbs h.2

/-- What is recorded and what goes on pending reads what the usage read and what was pending. -/
theorem Visited.count_eq (hv : Visited readers pending u pending' action)
    (hi : pending.terms? i = none) :
    (action.recorded u).count i + pending'.all.count i = u.reads.count i + pending.all.count i ∧
      (action.recordedAdds u).count i + pending'.all.count i
        = u.adds.count i + pending.all.count i := by
  cases hv with
  | copied =>
    rw [all_append_none]
    exact ⟨rfl, rfl⟩
  | @taken t hu =>
    have hcount := count_gatherAll (t := t) hi
    rw [Usage.adds_of_ofUsage? hu, (Terms.reads_of_ofUsage? hu).1, all_push, List.count_append]
    simp only [Action.recorded, Action.recordedAdds, List.count_nil, Option.map_some,
      Option.getD_some]
    omega
  | @fused t hu =>
    have hcount := count_gatherAll (t := t) hi
    rw [Usage.adds_of_ofUsage? hu, (Terms.reads_of_ofUsage? hu).1, all_push]
    simp only [Option.map_none, Option.getD_none, List.append_nil]
    exact ⟨hcount, hcount⟩
  | kept hu hnone =>
    rw [all_push, (gatherAll_of_none hnone).1]
    simp [Action.recorded, Action.recordedAdds]

/-- A usage that stays has no pending result. -/
theorem Visited.terms?_of_ge (hv : Visited readers pending u pending' action)
    (hne : action ≠ .drop) (hge : pending.size ≤ i) : pending'.terms? i = none := by
  cases hnew : pending'.terms? i with
  | none => rfl
  | some t =>
    rcases hv.terms?_cases hnew with ⟨hold, -⟩ | ⟨rfl, -⟩
    · exact absurd (lt_of_terms? hold) (Nat.not_lt_of_le hge)
    · cases hv with
      | copied =>
        rw [terms?_append_none] at hnew
        exact absurd (lt_of_terms? hnew) (Nat.lt_irrefl _)
      | taken => exact absurd rfl hne
      | fused | kept =>
        rw [terms?_push, if_pos (size_gatherAll _ _).symm] at hnew
        cases hnew

/-- What was left alone, and is not pending, is not pending behind a usage. -/
theorem Visited.terms?_of_none (hv : Visited readers pending u pending' action)
    (hi : pending.terms? i = none) (hlt : i < pending.size) : pending'.terms? i = none := by
  cases hnew : pending'.terms? i with
  | none => rfl
  | some t =>
    rcases hv.terms?_cases hnew with ⟨hold, -⟩ | ⟨rfl, -⟩
    · cases hi.symm.trans hold
    · exact absurd hlt (Nat.lt_irrefl _)

theorem mem_all {p : Pending} (h : i ∈ p.all) : ∃ k t, p.terms? k = some t ∧ i ∈ t.all := by
  obtain ⟨o, ho, hi⟩ := List.mem_flatMap.mp h
  obtain ⟨k, hk⟩ := List.mem_iff_getElem?.mp ho
  cases o with
  | none => cases hi
  | some t =>
    refine ⟨k, t, ?_, hi⟩
    rw [terms?, ← Array.getElem?_toList, hk]
    rfl

/-- The reads of the values that are left are all there: on the new tape, pending, or to come. -/
structure Balanced [Scalar V] (readers : Readers) (deps : List Nat) (pending : Pending)
    (us : List (Usage V)) (b : Rebuild V) : Prop where
  wellFormed : b.tape.WellFormed
  bounded : b.Bounded
  injective : ∀ {i i' j}, b.value? i = some j → b.value? i' = some j → i = i'
  settled : ∀ {i j}, b.value? i = some j → pending.terms? i = none
  reads : ∀ {i j}, b.value? i = some j → (Usage.readsFrom [] b.tape.usages).count j
    + pending.all.count i + (Usage.readsFrom deps us).count i = readers.all.count i
  adds : ∀ {i j}, b.value? i = some j → (Usage.addsFrom b.tape.usages).count j
    + pending.all.count i + (Usage.addsFrom us).count i = readers.additive.count i
  sums : ∀ {k : Nat} {p : Place} {new : Usage V}, b.tape.placed[k]? = some (p, new) →
    new.isAdditive = true → ∃ i, b.value? i = some p.first ∧ readers.absorbs i = false

namespace Balanced

variable [Scalar V] {deps : List Nat} {count : Nat} {b b' : Rebuild V} {new : Usage V}

/-- The reads of an old value are all there once its part in a usage is recorded or pending. -/
theorem reads_of_lt (h : Balanced readers deps pending (u :: us) b)
    (hv : Visited readers pending u pending' action) {j more moreAdds : Nat}
    (hij : b.value? i = some j) (hreads : more = (action.recorded u).count i)
    (hadds : moreAdds = (action.recordedAdds u).count i) :
    (Usage.readsFrom [] b.tape.usages).count j + more + pending'.all.count i
        + (Usage.readsFrom deps us).count i = readers.all.count i ∧
      (Usage.addsFrom b.tape.usages).count j + moreAdds + pending'.all.count i
        + (Usage.addsFrom us).count i = readers.additive.count i := by
  have hall := h.reads hij
  have hadditive := h.adds hij
  obtain ⟨hcount, hcountAdds⟩ := hv.count_eq (h.settled hij)
  rw [Usage.count_readsFrom_cons] at hall
  rw [Usage.count_addsFrom_cons] at hadditive
  omega

theorem dropped (h : Balanced readers deps pending (u :: us) b)
    (hsize : pending.size = b.values.size)
    (hv : Visited readers pending u pending' .drop) (hstep : Rebuild.Step b u .drop b') :
    Balanced readers deps pending' us b' := by
  have hbounded := hstep.bounded h.bounded
  cases hstep
  have htape : ((b.enterVector u none).enter (List.replicate u.resultCount none)).tape = b.tape :=
    Rebuild.tape_enterVector b u none
  have hold {i j : Nat} (hij : ((b.enterVector u none).enter
      (List.replicate u.resultCount none)).value? i = some j) : b.value? i = some j := by
    rcases Rebuild.value?_enter_cases hij with hij | ⟨k, -, hk⟩
    · exact (Rebuild.value?_enterVector b u none i).symm.trans hij
    · rw [List.getElem?_replicate] at hk
      split at hk <;> cases hk
  have hkeep {i j : Nat} (hij : b.value? i = some j) : ((b.enterVector u none).enter
      (List.replicate u.resultCount none)).value? i = some j := by
    have hlt := Rebuild.lt_of_value? hij
    rw [Rebuild.value?_enter_of_lt (by rwa [Rebuild.values_enterVector]),
      Rebuild.value?_enterVector, hij]
  refine ⟨htape ▸ h.wellFormed, hbounded, fun hij hi'j => h.injective (hold hij) (hold hi'j),
    fun hij => ?_, fun hij => ?_, fun hij => ?_, fun hk hnew => ?_⟩
  · exact hv.terms?_of_none (h.settled (hold hij)) (hsize ▸ Rebuild.lt_of_value? (hold hij))
  · rw [htape]
    exact (h.reads_of_lt hv (hold hij) rfl rfl).1
  · rw [htape]
    exact (h.reads_of_lt hv (hold hij) rfl rfl).2
  · obtain ⟨i, hi, habsorbs⟩ := h.sums (htape ▸ hk) hnew
    exact ⟨i, hkeep hi, habsorbs⟩

/-- The reads of a result are still to come. -/
theorem reads_of_ge (h : Balanced readers deps pending (u :: us) b)
    (hwaits : Waits readers deps count pending (u :: us) b)
    (hv : Visited readers pending u pending' action) (hadmits : b.tape.Admits new) {k : Nat}
    (hk : k < u.resultCount) :
    (Usage.readsFrom [] (b.tape.push new).usages).count (b.tape.valueCount + k)
        + pending'.all.count (b.values.size + k)
        + (Usage.readsFrom deps us).count (b.values.size + k)
        = readers.all.count (b.values.size + k) ∧
      (Usage.addsFrom (b.tape.push new).usages).count (b.tape.valueCount + k)
        + pending'.all.count (b.values.size + k) + (Usage.addsFrom us).count (b.values.size + k)
        = readers.additive.count (b.values.size + k) := by
  have hsize := hwaits.size
  have hready := hwaits.ready.size
  rw [Usage.resultTotal_cons] at hready
  have hnew : new.reads.count (b.tape.valueCount + k) = 0 := by
    refine List.count_eq_zero.mpr fun hmem => ?_
    have hlt := hadmits.1 _ hmem
    omega
  have hunread : u.reads.count (b.values.size + k) = 0 := by
    refine List.count_eq_zero.mpr fun hmem => ?_
    have hlt := hwaits.lt_of_mem_reads hmem
    omega
  have hwaiting : pending.all.count (b.values.size + k) = 0 := by
    refine List.count_eq_zero.mpr fun hmem => ?_
    obtain ⟨l, t, hl, hterm⟩ := mem_all hmem
    obtain ⟨j, hj⟩ := hwaits.terms hl _ hterm
    have hlt := Rebuild.lt_of_value? hj
    omega
  have hnone : pending.terms? (b.values.size + k) = none := by
    cases hold : pending.terms? (b.values.size + k) with
    | none => rfl
    | some t =>
      have hlt := lt_of_terms? hold
      omega
  have htape := h.wellFormed.count_usages_of_ge (Nat.le_add_right b.tape.valueCount k)
  obtain ⟨hmoved, hmovedAdds⟩ := hv.count_eq hnone
  obtain ⟨hall, hadditive⟩ := hwaits.single.counted (i := b.values.size + k) (by omega) (by omega)
  have hle := new.count_adds_le (b.tape.valueCount + k)
  have hle' := u.count_adds_le (b.values.size + k)
  rw [Usage.count_readsFrom_cons] at hall
  rw [Usage.count_addsFrom_cons] at hadditive
  rw [(b.tape.count_usages_push new _).1, (b.tape.count_usages_push new _).2]
  omega

/-- A usage that is recorded takes part of the reads of its usage with it. -/
theorem recorded (h : Balanced readers deps pending (u :: us) b)
    (hwaits : Waits readers deps count pending (u :: us) b)
    (hv : Visited readers pending u pending' action) (hstep : Rebuild.Step b u action b')
    (hne : action ≠ .drop) (habsorbs : u.isAdditive = true → readers.absorbs pending.size = false)
    (htape : b'.tape = b.tape.push new) (hadmits : b.tape.Admits new)
    (hadditive : new.isAdditive = u.isAdditive)
    (hreads : (action.recorded u).map b.value? = new.reads.map some)
    (hadds : (action.recordedAdds u).map b.value? = new.adds.map some)
    (hresults : ∀ k < u.resultCount,
      b'.value? (b.values.size + k) = some (b.tape.valueCount + k)) :
    Balanced readers deps pending' us b' := by
  have hgrown := hstep.size_values hv.suits
  have hcases {i j : Nat} (hij : b'.value? i = some j) : b.value? i = some j ∨
      ∃ k < u.resultCount, i = b.values.size + k ∧ j = b.tape.valueCount + k := by
    rcases Nat.lt_or_ge i b.values.size with hlt | hge
    · exact .inl ((hstep.value?_of_lt hlt).symm.trans hij)
    · obtain ⟨k, rfl⟩ := Nat.exists_eq_add_of_le hge
      have hlt := Rebuild.lt_of_value? hij
      have hk : k < u.resultCount := by omega
      exact .inr ⟨k, hk, rfl, Option.some.inj (hij.symm.trans (hresults k hk))⟩
  have hcounts {i j : Nat} (hij : b'.value? i = some j) :
      (Usage.readsFrom [] b'.tape.usages).count j + pending'.all.count i
          + (Usage.readsFrom deps us).count i = readers.all.count i ∧
        (Usage.addsFrom b'.tape.usages).count j + pending'.all.count i
          + (Usage.addsFrom us).count i = readers.additive.count i := by
    rw [htape]
    rcases hcases hij with hold | ⟨k, hk, rfl, rfl⟩
    · rw [(b.tape.count_usages_push new j).1, (b.tape.count_usages_push new j).2]
      exact h.reads_of_lt hv hold
        (count_of_map_eq hreads hold fun _ _ hi' => h.injective hi' hold)
        (count_of_map_eq hadds hold fun _ _ hi' => h.injective hi' hold)
    · exact h.reads_of_ge hwaits hv hadmits hk
  refine ⟨htape ▸ h.wellFormed.push hadmits, hstep.bounded h.bounded, fun hij hi'j => ?_,
    fun hij => ?_, fun hij => (hcounts hij).1, fun hij => (hcounts hij).2, fun hk hnew => ?_⟩
  · rcases hcases hij with hold | ⟨k, -, rfl, rfl⟩ <;>
      rcases hcases hi'j with hold' | ⟨k', -, rfl, heq⟩
    · exact h.injective hold hold'
    · have hlt := h.bounded.value hold
      omega
    · have hlt := h.bounded.value hold'
      omega
    · omega
  · rcases hcases hij with hold | ⟨k, -, rfl, -⟩
    · exact hv.terms?_of_none (h.settled hold) (hwaits.size ▸ Rebuild.lt_of_value? hold)
    · exact hv.terms?_of_ge hne (hwaits.size ▸ Nat.le_add_right _ _)
  · rw [htape] at hk
    rcases Tape.placed_push_cases hk with hk | ⟨-, rfl, rfl⟩
    · obtain ⟨i, hi, hnot⟩ := h.sums hk hnew
      exact ⟨i, (hstep.value?_of_lt (Rebuild.lt_of_value? hi)).trans hi, hnot⟩
    · have hadds := hadditive.symm.trans hnew
      obtain ⟨t, ht⟩ := Usage.isAdditive_iff.mp hadds
      have hone := (Terms.counts_of_ofUsage? ht).1
      exact ⟨b.values.size, hresults 0 (by omega), hwaits.size ▸ habsorbs hadds⟩

/-- No action of the walk loses a read. -/
theorem step (h : Balanced readers deps pending (u :: us) b)
    (hwaits : Waits readers deps count pending (u :: us) b)
    (hvisit : pending.visit readers u = (pending', action)) (hstep : Rebuild.Step b u action b') :
    Balanced readers deps pending' us b' := by
  have hv := visited_of_visit hvisit
  have habsorbs (hne : action ≠ .drop) (hu : u.isAdditive = true) :
      readers.absorbs pending.size = false :=
    Bool.eq_false_iff.mpr fun habsorbs => hne ((visit_eq_drop_iff hvisit).mpr ⟨hu, habsorbs⟩)
  have hcopied (hstep : Rebuild.Step b u .copy b') (hv : Visited readers pending u pending' .copy)
      (habsorbs : u.isAdditive = true → readers.absorbs pending.size = false) :
      Balanced readers deps pending' us b' := by
    have hstep' := hstep
    cases hstep with
    | @copy new hnew hadmits =>
      have htape : (b.replaced u new).tape = b.tape.push new := by
        rw [Rebuild.replaced_eq, Rebuild.tape_enter, Rebuild.tape_enterVector,
          Rebuild.tape_pushed]
      refine h.recorded hwaits hv hstep' (by simp) habsorbs htape hadmits hnew.isAdditive_eq
        hnew.map_reads hnew.map_adds fun k hk => ?_
      rw [(Rebuild.entered_replaced b u new).value?_add]
      simp [hk]
  cases hv with
  | taken => exact h.dropped hwaits.size (visited_of_visit hvisit) hstep
  | copied => exact hcopied hstep (visited_of_visit hvisit) (habsorbs (by simp))
  | kept => exact hcopied hstep (visited_of_visit hvisit) (habsorbs (by simp))
  | @fused t hu =>
    have hstep' := hstep
    cases hstep with
    | @sum _ _ add' sub' hadd hsub hadmits =>
      have hreads : ((pending.gatherAll t).terms.add
          ++ (pending.gatherAll t).terms.sub).map b.value? = (add' ++ sub').map some := by
        rw [List.map_append, List.map_append, mapM_eq_some_iff.mp hadd, mapM_eq_some_iff.mp hsub]
      refine h.recorded hwaits (visited_of_visit hvisit) hstep' (by simp) (habsorbs (by simp)) rfl
        hadmits (Usage.isAdditive_iff.mpr ⟨t, hu⟩).symm ?_ hreads fun k hk => ?_
      · simpa [Action.recorded, Usage.reads, Usage.args, Usage.initials] using hreads
      · rw [(Terms.counts_of_ofUsage? hu).1] at hk
        obtain rfl := Nat.lt_one_iff.mp hk
        exact Rebuild.value?_enter_add _ _ 0

/-- The reads are all to come before anything is rebuilt. -/
theorem start (t : Tape V) : Balanced (.ofTape t) t.dependents
    (Array.replicate (t.indCount + 1) none) t.body.toList (.start t) := by
  have hnone (i : Nat) : Pending.terms? (Array.replicate (t.indCount + 1) none) i = none :=
    Option.eq_none_iff_forall_not_mem.mpr fun s hs => terms?_replicate_none_ne _ _ _ hs
  have hself {i j : Nat} (hij : (Rebuild.start t).value? i = some j) :
      i = j ∧ i < t.indCount + 1 := (Rebuild.value?_start.mp hij).symm
  have hreaders {i j : Nat} (hij : (Rebuild.start t).value? i = some j) :=
    Readers.count_ofTape t (i := i) (Nat.lt_of_lt_of_le (hself hij).2 (by
      rw [t.valueCount_eq]
      exact Nat.le_add_right _ _))
  have hinj {i i' j : Nat} (hij : (Rebuild.start t).value? i = some j)
      (hi'j : (Rebuild.start t).value? i' = some j) : i = i' :=
    (hself hij).1.trans (hself hi'j).1.symm
  refine ⟨.new _ _, Rebuild.bounded_start t, hinj, fun _ => hnone _, fun hij => ?_,
    fun hij => ?_, fun {k p new} hk hnew => ?_⟩
  · rw [(hreaders hij).1, all_eq_nil hnone]
    simp [Rebuild.start, Tape.new, Tape.usages, Usage.readsFrom, Usage.reads, Usage.args,
      Usage.initials]
  · rw [(hreaders hij).2, all_eq_nil hnone]
    simp [Rebuild.start, Tape.new, Tape.usages, Usage.addsFrom, Usage.adds, Terms.ofUsage?]
  · obtain rfl := List.mem_singleton.mp (Tape.mem_usages_of_placed hk)
    cases hnew

end Balanced

/-- A usage that the walk leaves on the tape is recorded as one usage. -/
theorem size_body_of_step {b b' : Rebuild V} (hv : Visited readers pending u pending' action)
    (hstep : Rebuild.Step b u action b') :
    b'.tape.body.size = b.tape.body.size + if action.isKept then 1 else 0 := by
  have hcopied (hstep : Rebuild.Step b u .copy b') :
      b'.tape.body.size = b.tape.body.size + 1 := by
    cases hstep with
    | copy =>
      rw [Rebuild.replaced_eq, Rebuild.tape_enter, Rebuild.tape_enterVector, Rebuild.tape_pushed,
        Tape.body_push, Array.size_push]
  cases hv with
  | copied => exact hcopied hstep
  | kept => exact hcopied hstep
  | taken =>
    cases hstep
    rw [Rebuild.tape_enter, Rebuild.tape_enterVector]
    rfl
  | fused =>
    cases hstep
    exact Array.size_push _

/-- At the end of the walk the reads are on the new tape, and the usages that are missing there are
those that were absorbed. -/
theorem balanced_of_run [Scalar V] {deps : List Nat} {count : Nat} {b b' : Rebuild V} {p : Place}
    (hwaits : Waits readers deps count pending us b) (h : Balanced readers deps pending us b)
    (hplace : p.first = b.values.size)
    (hrun : b.run? (us.zip (walk readers pending us)) = some b') :
    ∃ pending', Waits readers deps count pending' [] b' ∧ Balanced readers deps pending' [] b' ∧
      b'.tape.body.size + ((Usage.placed p us).filter fun (p, u) =>
        u.isAdditive && readers.absorbs p.first).length = b.tape.body.size + us.length := by
  induction us generalizing pending b p with
  | nil =>
    obtain rfl := Option.some.inj hrun
    exact ⟨pending, hwaits, h, rfl⟩
  | cons u us ih =>
    obtain ⟨b₁, hstep, hrun⟩ := Rebuild.run?_cons_eq_some_iff.mp hrun
    have hvisit : pending.visit readers u
        = ((pending.visit readers u).1, (pending.visit readers u).2) := rfl
    have hv := visited_of_visit hvisit
    have hpast : (p.past u).first = b₁.values.size := by
      rw [hstep.size_values hv.suits, ← hplace]
      rfl
    obtain ⟨pending', hwaits', h', hsize⟩ :=
      ih (hwaits.step hv hstep) (h.step hwaits hvisit hstep) hpast hrun
    refine ⟨pending', hwaits', h', ?_⟩
    have hbody := size_body_of_step hv hstep
    have hdrop := visit_eq_drop_iff hvisit
    rw [hwaits.size, ← hplace, ← Bool.and_eq_true] at hdrop
    rw [Usage.placed, List.filter_cons, List.length_cons]
    by_cases htaken : (u.isAdditive && readers.absorbs p.first) = true
    · rw [hdrop.mpr htaken] at hbody
      simp only [Action.isKept, Bool.false_eq_true, if_false] at hbody
      rw [if_pos htaken, List.length_cons]
      omega
    · have hkept : (pending.visit readers u).2.isKept = true := by
        cases haction : (pending.visit readers u).2 with
        | drop => exact absurd (hdrop.mp haction) htaken
        | _ => rfl
      rw [hkept, if_pos rfl] at hbody
      rw [if_neg htaken]
      omega

/-- Where nothing is pending and nothing is absorbed, a usage is copied and nothing is pending. -/
theorem visit_of_none (hnone : ∀ i, pending.terms? i = none)
    (h : ¬ (u.isAdditive = true ∧ readers.absorbs pending.size = true)) :
    (pending.visit readers u).2 = .copy ∧ ∀ i, (pending.visit readers u).1.terms? i = none := by
  constructor
  · unfold visit
    split
    · rfl
    · rename_i t hu
      have hlonely : ¬ readers.absorbs pending.size = true := fun habsorbs =>
        h ⟨Usage.isAdditive_iff.mpr ⟨t, hu⟩, habsorbs⟩
      simp only [if_neg hlonely, (gatherAll_of_none fun i _ => hnone i).2]
      rfl
  · intro i
    have hv : Visited readers pending u (pending.visit readers u).1 (pending.visit readers u).2 :=
      visited_of_visit rfl
    refine Option.eq_none_iff_forall_not_mem.mpr fun s hs => ?_
    rcases hv.terms?_cases hs with ⟨hold, -⟩ | ⟨rfl, habsorbs, t, hu, -⟩
    · cases (hnone i).symm.trans hold
    · exact h ⟨Usage.isAdditive_iff.mpr ⟨t, hu⟩, habsorbs⟩

/-- Where nothing is absorbed, every usage is copied. -/
theorem walk_of_none {p : Place} (hnone : ∀ i, pending.terms? i = none)
    (hplace : p.first = pending.size)
    (h : ∀ x ∈ Usage.placed p us, ¬ (x.2.isAdditive && readers.absorbs x.1.first) = true) :
    walk readers pending us = us.map fun _ => .copy := by
  induction us generalizing pending p with
  | nil => rfl
  | cons u us ih =>
    rw [Usage.placed, List.forall_mem_cons, hplace, Bool.and_eq_true] at h
    obtain ⟨haction, hrest⟩ := visit_of_none hnone h.1
    have hv : Visited readers pending u (pending.visit readers u).1 (pending.visit readers u).2 :=
      visited_of_visit rfl
    have hpast : (p.past u).first = (pending.visit readers u).1.size := by
      rw [hv.size_eq, ← hplace]
      rfl
    show (pending.visit readers u).2 :: walk readers (pending.visit readers u).1 us = _
    rw [haction, ih hrest hpast h.2, List.map_cons]

end Pending

/-! ## The tape with sums fused -/

namespace Tape

variable [Scalar V] {t t' : Tape V}

theorem readers_eq (t : Tape V) {i : Nat} (hi : i < t.valueCount) :
    (Readers.ofTape t).all.count i = t.readCount i ∧
      (Readers.ofTape t).additive.count i = t.addCount i :=
  Readers.count_ofTape t hi

/-- A sum is absorbed where the counts of the tape say so. -/
theorem absorbs_ofTape (t : Tape V) {i : Nat} (hi : i < t.valueCount) :
    (Readers.ofTape t).absorbs i = (t.readCount i == 1 && t.addCount i == 1) := by
  rw [Readers.absorbs, (t.readers_eq hi).1, (t.readers_eq hi).2]

theorem mem_absorbable {p : Place} {u : Usage V} : (p, u) ∈ t.absorbable ↔
    (p, u) ∈ t.placed ∧ u.isAdditive = true ∧ (Readers.ofTape t).absorbs p.first = true := by
  rw [absorbable, List.mem_filter]
  refine and_congr_right fun hmem => ?_
  obtain ⟨k, hk⟩ := List.mem_iff_getElem?.mp hmem
  rw [Bool.and_eq_true]
  refine and_congr_right fun hu => ?_
  obtain ⟨s, hs⟩ := Usage.isAdditive_iff.mp hu
  have hle := results_le hk
  rw [(Terms.counts_of_ofUsage? hs).1] at hle
  rw [t.absorbs_ofTape (by omega)]

theorem absorbable_eq (t : Tape V) : t.absorbable = (Usage.placed
    { first := t.indCount + 1, vector := 0 } t.body.toList).filter fun (p, u) =>
      u.isAdditive && (Readers.ofTape t).absorbs p.first := by
  have hplaced : t.placed = (t.zeroPlace, .constant Scalar.zero)
      :: Usage.placed { first := t.indCount + 1, vector := 0 } t.body.toList := rfl
  have hall : t.absorbable = t.placed.filter fun (p, u) =>
      u.isAdditive && (Readers.ofTape t).absorbs p.first := by
    refine List.filter_congr fun (p, u) hmem => ?_
    have hsame := t.mem_absorbable (p := p) (u := u)
    rw [absorbable, List.mem_filter] at hsame
    rw [Bool.eq_iff_iff, Bool.and_eq_true (_ : Bool) (Readers.absorbs _ _)]
    exact (and_congr_right_iff.mp hsame) hmem
  rw [hall, hplaced, List.filter_cons_of_neg (by simp [Usage.isAdditive, Terms.ofUsage?])]

/-- What is left of a tape when its sums are fused: every value keeps the readers that it had, no
usage that adds stands for one that could be absorbed, and each of those is missing. -/
theorem WellFormed.counts_of_fuseSums (ht : t.WellFormed) (h : t.fuseSums = .ok t') :
    (∀ {k : Nat} {p : Place} {u : Usage V}, t'.placed[k]? = some (p, u) → u.isAdditive = true →
      ∃ i, t'.readCount p.first = t.readCount i ∧ t'.addCount p.first = t.addCount i ∧
        ¬ (t.readCount i = 1 ∧ t.addCount i = 1)) ∧
      t'.body.size + t.absorbable.length = t.body.size := by
  rw [fuseSums_eq] at h
  obtain ⟨-, b, hrun, hfinish⟩ := rebuild_eq_ok_iff.mp h
  obtain ⟨ds, hds, hset⟩ := Rebuild.finish?_eq_some_iff.mp hfinish
  obtain ⟨-, rfl⟩ := setDependents?_eq_some_iff.mp hset
  have hstart : t.indCount + 1 = (Rebuild.start t).values.size := by simp [Rebuild.start]
  obtain ⟨pending, hwaits, hbalanced, hsize⟩ := Pending.balanced_of_run
    (p := { first := t.indCount + 1, vector := 0 }) (.start ht) (.start t) hstart hrun
  rw [← absorbable_eq] at hsize
  refine ⟨fun {k p u} hk hu => ?_, hsize.trans (Nat.zero_add _)⟩
  have hnone : pending.all = [] := by
    refine Pending.all_eq_nil fun i => Option.eq_none_iff_forall_not_mem.mpr fun s hs => ?_
    -- nobody is left who could add a pending value up
    cases (hwaits.single.once hs).2
  have hk' : b.tape.placed[k]? = some (p, u) := hk
  obtain ⟨i, hi, habsorbs⟩ := hbalanced.sums hk' hu
  have hlt : i < t.valueCount := by
    have hlt := Rebuild.lt_of_value? hi
    have hready : b.values.size + 0 = t.valueCount := hwaits.ready.size
    omega
  have hreads := hbalanced.reads hi
  have hadds := hbalanced.adds hi
  rw [hnone] at hreads hadds
  have hdeps : ds.count p.first = t.dependents.count i :=
    count_of_map_eq (mapM_eq_some_iff.mp hds) hi fun _ _ hi' => hbalanced.injective hi' hi
  rw [t.absorbs_ofTape hlt, Bool.and_eq_false_iff] at habsorbs
  rw [(t.readers_eq hlt).1] at hreads
  rw [(t.readers_eq hlt).2] at hadds
  refine ⟨i, ?_, ?_, ?_⟩
  · rw [← hreads]
    show (Usage.readsFrom ds b.tape.usages).count p.first = _
    simp only [Usage.readsFrom, List.count_append, List.append_nil, List.count_nil, hdeps,
      List.flatMap_nil, List.nil_append, Nat.add_zero]
  · rw [← hadds]
    exact (Nat.add_zero _).symm
  · rintro ⟨hone, hone'⟩
    simp [hone, hone'] at habsorbs

/-- Where no sum can be absorbed, fusing sums gives the tape back. -/
theorem WellFormed.fuseSums_of_none (ht : t.WellFormed) {ds : List Nat} (hdeps : t.deps = some ds)
    (h : t.absorbable = []) : t.fuseSums = .ok t := by
  rw [fuseSums_eq]
  refine ht.rebuild_of_kept hdeps ?_
  rw [absorbable_eq, List.filter_eq_nil_iff] at h
  have hnone (i : Nat) : Pending.terms? (Array.replicate (t.indCount + 1) none) i = none :=
    Option.eq_none_iff_forall_not_mem.mpr fun s hs => Pending.terms?_replicate_none_ne _ _ _ hs
  rw [Pending.walk_of_none hnone Array.size_replicate.symm h, List.forall₂_map_right_iff,
    List.forall₂_same]
  exact fun u _ => .copy (.refl u)

/-- Fusing sums leaves no usage that adds and has another one as the one reader of its result. It
takes away as many usages as there were of them, and changes nothing when it is done again. -/
theorem fuseSums_absorbs_all [DecidableEq V] (ht : t.Reachable) :
    ∃ t', t.fuseSums = .ok t' ∧ t'.absorbable = [] ∧
      t.stats.ops = t'.stats.ops + t.absorbable.length ∧ t'.fuseSums = .ok t' := by
  obtain ⟨t', h⟩ := ht.wellFormed.exists_fuseSums
  obtain ⟨hleft, hsize⟩ := ht.wellFormed.counts_of_fuseSums h
  have hnone : t'.absorbable = [] := by
    refine List.eq_nil_iff_forall_not_mem.mpr fun (p, u) hmem => ?_
    obtain ⟨hplaced, hu, habsorbs⟩ := mem_absorbable.mp hmem
    obtain ⟨k, hk⟩ := List.mem_iff_getElem?.mp hplaced
    obtain ⟨i, hreads, hadds, hnot⟩ := hleft hk hu
    obtain ⟨s, hs⟩ := Usage.isAdditive_iff.mp hu
    have hle := results_le hk
    rw [(Terms.counts_of_ofUsage? hs).1] at hle
    rw [t'.absorbs_ofTape (by omega), hreads, hadds, Bool.and_eq_true, beq_iff_eq,
      beq_iff_eq] at habsorbs
    exact hnot habsorbs
  have hops (t : Tape V) : t.stats.ops = t.body.size + 1 := by
    rw [stats_ops, footprints_placed, List.length_map, length_placed]
  obtain ⟨ds, hds⟩ := rebuild_deps h
  refine ⟨t', h, hnone, ?_, (ht.fuseSums h).wellFormed.fuseSums_of_none hds hnone⟩
  rw [hops, hops]
  omega

/-- A sum is negated and becomes part of a difference, which is no operand of a sum. -/
def chainedSums : Tape Float :=
  { ((((new 2 {}).push (.binary .add 0 1)).push (.unary .neg 3)).push (.binary .sub 4 0)).push
      (.unary .exp 5) with deps := some [6] }

theorem fuseSums_absorbs_all_chainedSums : chainedSums.Reachable ∧
    chainedSums.absorbable.map Prod.snd = [.binary .add 0 1, .unary .neg 3] ∧
    ∃ t', chainedSums.fuseSums = .ok t' ∧ t'.absorbable = [] ∧
      chainedSums.stats.ops = t'.stats.ops + chainedSums.absorbable.length ∧
      t'.fuseSums = .ok t' := by
  have hreachable : chainedSums.Reachable :=
    (((((Reachable.new 2 {}).push (by decide)).push (by decide)).push (by decide)).push
      (by decide)).withDependents rfl (by decide)
  exact ⟨hreachable, by with_unfolding_all rfl, fuseSums_absorbs_all hreachable⟩

end Tape

end OpTape
