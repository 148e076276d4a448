import Mathlib.Algebra.Ring.Rat
import OpTape.Proofs.Following
import OpTape.Proofs.Reachable
import OpTape.Proofs.SingleReader
/-
  Fusing sums is exact up to reassociation. `Sound` is the invariant of the walk beside an
  evaluation: a pending value is the sum of its terms. In a commutative group this is all that
  the reader of a pending value needs, so a fused sum has the value of the sum that it stands
  for, and everything else is copied. Where arithmetic is rounded only the order of additions
  differs.
-/
namespace OpTape

variable {V : Type}

/-- Sums, differences and negation are those of a commutative group. -/
structure Scalar.IsExact (V : Type) [Scalar V] [AddCommGroup V] : Prop where
  zero : (Scalar.zero : V) = 0
  add : ∀ a b : V, Scalar.binary .add a b = a + b
  sub : ∀ a b : V, Scalar.binary .sub a b = a - b
  neg : ∀ a : V, Scalar.unary .neg a = -a

/-- Exact arithmetic. Zero stands for what need not be rational. -/
instance : Scalar Rat where
  zero := 0
  nan := 0
  unary
    | .neg, a => -a
    | .abs, a => if a < 0 then -a else a
    | .sign, a => if 0 < a then 1 else if a < 0 then -1 else 0
    | _, _ => 0
  binary
    | .add, a, b => a + b
    | .sub, a, b => a - b
    | .mul, a, b => a * b
    | .div, a, b => a / b
    | .pow, _, _ => 0
  eq a b := a == b
  lt a b := decide (a < b)
  le a b := decide (a ≤ b)
  subscript a :=
    match a.num.tdiv a.den with
    | .ofNat n => .cell n
    | .negSucc _ => .outside
  text := toString

theorem Scalar.isExact_rat : Scalar.IsExact Rat where
  zero := rfl
  add _ _ := rfl
  sub _ _ := rfl
  neg _ := rfl

section

variable [AddCommGroup V]

/-- The value at an index; zero where there is none. -/
def reading (values : Array V) (k : Nat) : V := values[k]?.getD 0

theorem entry_eq_reading {values : Array V} {k : Nat} (hk : k < values.size) :
    (entry values k : Except (Fault V) V) = .ok (reading values k) := by
  rw [entry_eq_ok_iff, reading, Array.getElem?_eq_getElem hk]
  rfl

theorem reading_append {values more : Array V} {k : Nat} (hk : k < values.size) :
    reading (values ++ more) k = reading values k := by
  rw [reading, reading, Array.getElem?_append_left hk]

theorem reading_append_singleton (values : Array V) (v : V) :
    reading (values ++ [v].toArray) values.size = v := by
  simp [reading]

/-- Terms that are carried over have the value that they had. -/
theorem Terms.value_of_mapM {t : Terms} {f : Nat → Option Nat} {add sub : List Nat}
    (hadd : t.add.mapM f = some add) (hsub : t.sub.mapM f = some sub) {values values' : Array V}
    (hvalues : ∀ {i j}, f i = some j → values'[j]? = values[i]?) :
    (Terms.mk add sub).value (reading values') = t.value (reading values) := by
  have hmap {l l' : List Nat} (h : l.mapM f = some l') :
      l'.map (reading values') = l.map (reading values) :=
    map_congr_of_mapM h fun i _ j hij => by rw [reading, reading, hvalues hij]
  rw [value, value, hmap hadd, hmap hsub]

namespace Pending

/-- A pending value is the sum of its terms, which are values that exist. -/
structure Sound (pending : Pending) (values : Array V) : Prop where
  size : pending.size = values.size
  lt : ∀ {i t}, pending.terms? i = some t → ∀ k ∈ t.all, k < values.size
  value : ∀ {i t}, pending.terms? i = some t → reading values i = t.value (reading values)

theorem Sound.lt_gathered {pending : Pending} {values : Array V} (h : pending.Sound values)
    {t : Terms} (ht : ∀ k ∈ t.all, k < values.size) :
    ∀ k ∈ (pending.gatherAll t).terms.all, k < values.size :=
  mem_gatherAll h.lt fun i hi => Or.inl (ht i hi)

end Pending

variable [Scalar V]

theorem foldlM_entry {values : Array V} {l : List Nat} (hl : ∀ k ∈ l, k < values.size)
    (op : BinaryOp) (c : V) :
    l.foldlM (fun s i => return Scalar.binary op s (← entry values i)) c
      = (.ok (l.foldl (fun s i => Scalar.binary op s (reading values i)) c) :
        Except (Fault V) V) := by
  induction l generalizing c with
  | nil => rfl
  | cons k l ih =>
    rw [List.foldlM_cons, entry_eq_reading (hl k List.mem_cons_self)]
    exact ih (fun i hi => hl i (List.mem_cons_of_mem k hi)) _

theorem Usage.total_eq (hexact : Scalar.IsExact V) {values : Array V} {t : Terms}
    (ht : ∀ k ∈ t.all, k < values.size) :
    Usage.total (entry values) t.add t.sub
      = (.ok (t.value (reading values)) : Except (Fault V) V) := by
  have hadd (l : List Nat) (c : V) :
      l.foldl (fun s i => Scalar.binary .add s (reading values i)) c
        = c + (l.map (reading values)).sum := by
    induction l generalizing c with
    | nil => simp
    | cons k l ih =>
      rw [List.foldl_cons, ih, hexact.add, List.map_cons, List.sum_cons, add_assoc]
  have hsub (l : List Nat) (c : V) :
      l.foldl (fun s i => Scalar.binary .sub s (reading values i)) c
        = c - (l.map (reading values)).sum := by
    induction l generalizing c with
    | nil => simp
    | cons k l ih =>
      rw [List.foldl_cons, ih, hexact.sub, List.map_cons, List.sum_cons, sub_sub]
  rw [Usage.total, foldlM_entry fun k hk => ht k (List.mem_append_left _ hk)]
  show t.sub.foldlM _ _ = _
  rw [foldlM_entry fun k hk => ht k (List.mem_append_right _ hk), hadd, hsub, hexact.zero,
    zero_add, Terms.value]

theorem Usage.effect_sum (hexact : Scalar.IsExact V) (r : Registry V) {values : Array V}
    {t : Terms} (ht : ∀ k ∈ t.all, k < values.size) (vectors : Array (Array V)) :
    (Usage.sum t.add t.sub).effect r values vectors
      = .ok (.results [t.value (reading values)]) := by
  simp only [effect, compute]
  rw [total_eq hexact ht]
  rfl

/-- A usage that adds gives the sum of its terms. -/
theorem Usage.effect_of_terms (hexact : Scalar.IsExact V) (r : Registry V) {u : Usage V}
    {t : Terms} (hu : Terms.ofUsage? u = some t) {values : Array V}
    (ht : ∀ k ∈ t.all, k < values.size) (vectors : Array (Array V)) :
    u.effect r values vectors = .ok (.results [t.value (reading values)]) := by
  unfold Terms.ofUsage? at hu
  split at hu
  · rename_i x y
    obtain rfl := Option.some.inj hu
    have hx := entry_eq_reading (ht x (by simp [Terms.all]))
    have hy := entry_eq_reading (ht y (by simp [Terms.all]))
    simp only [effect, compute, hx, hy]
    show Except.ok (Effect.results [_]) = _
    rw [hexact.add]
    simp [Terms.value]
  · rename_i x y
    obtain rfl := Option.some.inj hu
    have hx := entry_eq_reading (ht x (by simp [Terms.all]))
    have hy := entry_eq_reading (ht y (by simp [Terms.all]))
    simp only [effect, compute, hx, hy]
    show Except.ok (Effect.results [_]) = _
    rw [hexact.sub]
    simp [Terms.value]
  · rename_i x
    obtain rfl := Option.some.inj hu
    have hx := entry_eq_reading (ht x (by simp [Terms.all]))
    simp only [effect, compute, hx]
    show Except.ok (Effect.results [_]) = _
    rw [hexact.neg]
    simp [Terms.value]
  · obtain rfl := Option.some.inj hu
    exact effect_sum hexact r ht vectors
  · cases hu

namespace Pending

variable {r : Registry V} {readers : Readers} {pending pending' : Pending} {u : Usage V}
  {action : Action V}

/-- What a usage adds up is the sum of the terms that it gathers. -/
theorem Sound.effect_gathered (hexact : Scalar.IsExact V) (r : Registry V) {values : Array V}
    (h : pending.Sound values) {t : Terms} (hu : Terms.ofUsage? u = some t)
    (ht : ∀ k ∈ t.all, k < values.size) (vectors : Array (Array V)) :
    u.effect r values vectors
      = .ok (.results [(pending.gatherAll t).terms.value (reading values)]) := by
  rw [Usage.effect_of_terms hexact r hu ht vectors, value_gatherAll h.value]

theorem Visited.sound (hexact : Scalar.IsExact V) (hv : Visited readers pending u pending' action)
    {values : Array V} (h : pending.Sound values) (hreads : ∀ i ∈ u.reads, i < values.size)
    {vectors : Array (Array V)} {e : Effect V} (he : u.effect r values vectors = .ok e) :
    pending'.Sound (values ++ e.appended.toArray) := by
  have hcount := (Usage.isOf_of_effect he).counts.1
  have hle : values.size ≤ (values ++ e.appended.toArray).size := by
    rw [Array.size_append]
    omega
  -- terms that exist keep their value
  have hkeeps {t : Terms} (ht : ∀ k ∈ t.all, k < values.size) :
      t.value (reading (values ++ e.appended.toArray)) = t.value (reading values) :=
    t.value_congr fun k hk => reading_append (ht k hk)
  refine ⟨?_, fun {i s} hs k hk => ?_, fun {i s} hs => ?_⟩
  · rw [hv.size_eq, h.size, hcount, Array.size_append]
    rfl
  · rcases hv.terms?_cases hs with ⟨hold, -⟩ | ⟨-, -, t, hu, rfl⟩
    · exact Nat.lt_of_lt_of_le (h.lt hold k hk) hle
    · rw [(Terms.reads_of_ofUsage? hu).1] at hreads
      exact Nat.lt_of_lt_of_le (h.lt_gathered hreads k hk) hle
  · rcases hv.terms?_cases hs with ⟨hold, -⟩ | ⟨rfl, -, t, hu, rfl⟩
    · have hi : i < values.size := h.size ▸ lt_of_terms? hold
      rw [reading_append hi, h.value hold, hkeeps (h.lt hold)]
    · rw [(Terms.reads_of_ofUsage? hu).1] at hreads
      have heffect := h.effect_gathered hexact r hu hreads vectors
      obtain rfl := Except.ok.inj (heffect.symm.trans he)
      rw [hkeeps (h.lt_gathered hreads), h.size]
      exact reading_append_singleton _ _

/-- A sum that is carried over has the value of its old terms. -/
theorem effect_carried_sum (hexact : Scalar.IsExact V) (r : Registry V) {b : Rebuild V}
    {s s' : State V} (hsim : b.Sim .full s s') {t : Terms} {add sub : List Nat}
    (hadd : t.add.mapM b.value? = some add) (hsub : t.sub.mapM b.value? = some sub)
    (hadmits : b.tape.Admits (.sum add sub)) :
    (Usage.sum add sub).effect r s'.values s'.vectors
      = .ok (.results [t.value (reading s.values)]) := by
  have hlt : ∀ k ∈ (Terms.mk add sub).all, k < s'.values.size := by
    intro k hk
    rw [← hsim.valueCount]
    exact hadmits.1 k (List.mem_append_left _ hk)
  have hvalue : (Terms.mk add sub).value (reading s'.values) = t.value (reading s.values) :=
    Terms.value_of_mapM hadd hsub fun hij => hsim.value trivial hij
  rw [← hvalue]
  exact Usage.effect_sum hexact r hlt s'.vectors

/-- The invariant of fusing beside an old and a new evaluation. -/
def Fuses (readers : Readers) (count : Nat) (plan : List (Usage V × Action V)) (b : Rebuild V)
    (s s' : State V) : Prop :=
  ∃ pending : Pending, walk readers pending (plan.map Prod.fst) = plan.map Prod.snd ∧
    pending.Sound s.values ∧ b.Ready count (plan.map Prod.fst) ∧ b.Sim .full s s'

theorem Fuses.step (hexact : Scalar.IsExact V) {count : Nat} {plan : List (Usage V × Action V)}
    {b b' : Rebuild V} {s s' : State V} (h : Fuses readers count ((u, action) :: plan) b s s')
    (hb : b.Bounded) {x : List V} (hs' : b.runs r x = .ok s')
    (hstep : Rebuild.Step b u action b') :
    Follows SameFault (Fuses readers count plan b') (s.exec r u) (b'.runs r x) := by
  obtain ⟨pending, hwalk, hsound, hready, hsim⟩ := h
  obtain ⟨pending', hv, hrest⟩ := walk_cons_eq hwalk
  have hready' := hready.step hstep hv.suits
  have hreads : ∀ i ∈ u.reads, i < s.values.size := fun i hi =>
    hsim.size_values ▸ hready.fit.1.1 i hi
  have hrelated {e : Effect V} {s₁' : State V} (he : u.effect r s.values s.vectors = .ok e)
      (hsim' : b'.Sim .full (s.apply e) s₁') : Fuses readers count plan b' (s.apply e) s₁' := by
    refine ⟨pending', hrest, ?_, hready', hsim'⟩
    rw [State.values_apply]
    exact hv.sound hexact hsound hreads he
  cases hv with
  | copied | kept =>
    cases hstep with
    | copy hnew _ => exact Rebuild.follows_copied hsim hb hready.keeps hs' hnew hrelated
  | @taken t hu =>
    cases hstep with
    | drop =>
      rw [(Terms.reads_of_ofUsage? hu).1] at hreads
      have he := Usage.effect_of_terms hexact r hu hreads s.vectors
      have hrun : ((b.enterVector u none).enter (List.replicate u.resultCount none)).runs r x
          = .ok s' := by simpa using hs'
      exact Rebuild.follows_of_effect he hrun
        (hrelated he (hsim.dropped (.refl _ s) (Usage.isOf_of_effect he) trivial))
  | @fused t hu =>
    cases hstep with
    | @sum _ _ add sub hadd hsub hadmits =>
      rw [(Terms.reads_of_ofUsage? hu).1] at hreads
      have he := hsound.effect_gathered hexact r hu hreads s.vectors
      have he' := effect_carried_sum hexact r hsim hadd hsub hadmits
      exact Rebuild.follows_of_effect he (Rebuild.runs_pushed_of_effect hs' he')
        (hrelated he (hsim.pushedOne (.refl _ s) (Usage.isOf_of_effect he')))

end Pending

namespace Tape

variable {t t' : Tape V}

/-- Whatever the independents are, a tape with fused sums shows what the tape shows. -/
theorem WellFormed.observe_of_fuseSums (hexact : Scalar.IsExact V) (ht : t.WellFormed)
    (h : t.fuseSums = .ok t') (r : Registry V) (x : List V) :
    t'.observe r x = t.observe r x := by
  have hlength := Pending.length_walk (.ofTape t) (Array.replicate (t.indCount + 1) none)
    t.body.toList
  refine observe_eq_of_rebuild h (Pending.Fuses (.ofTape t) t.valueCount) (fun {x} hx => ?_)
    (fun hI hb hrun hstep => hI.step hexact hb hrun hstep) (fun hI => ?_) x
  · rw [Pending.Fuses, List.map_fst_zip (by omega), List.map_snd_zip (by omega)]
    refine ⟨_, rfl, ?_, Rebuild.ready_start ht, .start t .full hx⟩
    constructor
    · simp [State.start, hx]
    · intro i s hs
      exact absurd hs (Pending.terms?_replicate_none_ne _ i s)
    · intro i s hs
      exact absurd hs (Pending.terms?_replicate_none_ne _ i s)
  · obtain ⟨_, _, _, _, hsim⟩ := hI
    exact hsim

/-- In exact arithmetic fusing sums keeps what is observed: it cannot fail, and every evaluation
of the new tape shows what the old one shows, be it the same fault or the same dependents, and
the same text. -/
theorem fuseSums_preserves [DecidableEq V] (hexact : Scalar.IsExact V) (ht : t.Reachable) :
    ∃ t', t.fuseSums = .ok t' ∧ ∀ r x, t'.observe r x = t.observe r x := by
  obtain ⟨t', h⟩ := ht.wellFormed.exists_fuseSums
  exact ⟨t', h, fun r x => ht.wellFormed.observe_of_fuseSums hexact h r x⟩

/-- A value less a difference. -/
def nestedDifference : Tape Rat :=
  { ((new 3 {}).push (.binary .sub 1 2)).push (.binary .sub 0 4) with deps := some [5] }

theorem fuseSums_nestedDifference : Scalar.IsExact Rat ∧ nestedDifference.Reachable ∧
    ∃ t', nestedDifference.fuseSums = .ok t' ∧
      ∀ r x, t'.observe r x = nestedDifference.observe r x := by
  have hreachable : nestedDifference.Reachable :=
    (((Reachable.new 3 {}).push (by decide)).push (by decide)).withDependents rfl (by decide)
  obtain ⟨t', h, hobserve⟩ := fuseSums_preserves Scalar.isExact_rat hreachable
  exact ⟨Scalar.isExact_rat, hreachable, t', h, hobserve⟩

-- the operands of the inner difference change sides
example : nestedDifference.fuseSums
    = .ok { (new 3 {}).push (.sum [0, 2] [1]) with deps := some [4] } := by
  cbv

end Tape

end

end OpTape
