import OpTape.Proofs.Absorbing
import OpTape.Proofs.Persisting
/-
  What is left of a tape when its sums are fused. Every usage of the new tape stands for one that
  was not absorbed, and reads what that one read under new names, or it is the sum of the terms that
  were gathered for it (`Usage.FusedTo`). The old usages come in their order, so no two new ones
  stand for the same (`Tape.Fuses`). Gathered terms are values that the old tape reads, and if every
  usage that adds has an operand of some kind, so has every such list of terms (`Tape.Gathers`): a
  tape on which nothing is left to fold stays so (`Fuses.folded`).
-/
namespace OpTape

variable {V : Type}

/-! ## Gathered terms -/

namespace Tape

variable [Scalar V]

/-- Every usage that adds has an operand with the property. -/
def SumsHave (t : Tape V) (P : Nat → Prop) : Prop :=
  ∀ u ∈ t.usages, u.isAdditive = true → ∃ i ∈ u.adds, P i

/-- The terms are read on the tape, and one of them has what every usage that adds has an operand
with. -/
structure Gathers (t : Tape V) (s : Terms) : Prop where
  read : ∀ k ∈ s.all, t.IsRead k
  some : ∀ P, t.SumsHave P → ∃ k ∈ s.all, P k

end Tape

namespace Pending

variable [Scalar V] {t : Tape V} {readers : Readers} {pending pending' : Pending} {u : Usage V}
  {us : List (Usage V)} {action : Action V}

/-- The terms of the operands are terms of the tape if those of the pending ones are. -/
theorem gathers_gatherAll (hpending : ∀ {i s}, pending.terms? i = some s → t.Gathers s)
    (hmem : u ∈ t.usages) {s : Terms} (hu : Terms.ofUsage? u = some s) :
    t.Gathers (pending.gatherAll s).terms where
  read := by
    refine mem_gatherAll (fun hi k hk => (hpending hi).read k hk) fun i hi => .inl ?_
    exact .inr ⟨u, hmem, (Terms.reads_of_ofUsage? hu).1 ▸ hi⟩
  some P hP := by
    obtain ⟨i, hi, hPi⟩ := hP u hmem (Usage.isAdditive_iff.mpr ⟨s, hu⟩)
    rw [Usage.adds_of_ofUsage? hu] at hi
    cases hwaits : pending.terms? i with
    | none => exact ⟨i, mem_gatherAll_of_mem hi (by simp [hwaits]), hPi⟩
    | some inner =>
      obtain ⟨k, hk, hPk⟩ := (hpending hwaits).some P hP
      exact ⟨k, mem_gatherAll_of_mem hi (by simpa [hwaits] using hk), hPk⟩

theorem Visited.gathers (hv : Visited readers pending u pending' action) (hmem : u ∈ t.usages)
    (hpending : ∀ {i s}, pending.terms? i = some s → t.Gathers s) {i : Nat} {s : Terms}
    (hs : pending'.terms? i = some s) : t.Gathers s := by
  rcases hv.terms?_cases hs with ⟨hold, -⟩ | ⟨-, -, s', hu, rfl⟩
  · exact hpending hold
  · exact gathers_gatherAll hpending hmem hu

end Pending

/-! ## What stands for what -/

/-- The positions behind one more that keeps its own. -/
def behindFirst (positions : Nat → Nat) : Nat → Nat
  | 0 => 0
  | k + 1 => positions k + 1

theorem behindFirst_lt {positions : Nat → Nat}
    (h : ∀ {k l : Nat}, k < l → positions k < positions l) {k l : Nat} (hkl : k < l) :
    behindFirst positions k < behindFirst positions l := by
  cases l with
  | zero => cases hkl
  | succ l =>
    cases k with
    | zero => exact Nat.succ_pos _
    | succ k => exact Nat.succ_lt_succ (h (Nat.lt_of_succ_lt_succ hkl))

namespace Usage

variable [Scalar V] {t : Tape V} {value : Nat → Option Nat} {p p' q' : Place} {u u' : Usage V}
  {us us' : List (Usage V)}

/-- What is recorded for a usage: its renamed form, or the sum of the terms that were gathered for
it. -/
inductive FusedTo (t : Tape V) (value : Nat → Option Nat) (u : Usage V) : Usage V → Prop
  | renamed {u' : Usage V} (h : Renames value some u u') : FusedTo t value u u'
  | sum {s : Terms} {add sub : List Nat} (hu : u.isAdditive = true) (hs : t.Gathers s)
      (h : s.all.mapM value = some (add ++ sub)) : FusedTo t value u (.sum add sub)

theorem FusedTo.resultCount_eq (h : FusedTo t value u u') : u'.resultCount = u.resultCount := by
  cases h with
  | renamed h => exact h.resultCount_eq
  | sum hu =>
    obtain ⟨s, hs⟩ := isAdditive_iff.mp hu
    exact (Terms.counts_of_ofUsage? hs).1.symm

theorem FusedTo.mono {value' : Nat → Option Nat} (h : FusedTo t value u u')
    (hvalue : ∀ {i j}, value i = some j → value' i = some j) : FusedTo t value' u u' := by
  cases h with
  | renamed h => exact .renamed (h.mono hvalue)
  | sum hu hs h => exact .sum hu hs (mapM_mono_of_some h fun i _ j hij => hvalue hij)

omit [Scalar V] in
theorem isMergeable_of_isAdditive (hu : u.isAdditive = true) : u.isMergeable = true := by
  cases u with
  | compare | vector | load | store | print | foreign => cases hu
  | _ => rfl

omit [Scalar V] in
theorem kind_ne_constant_of_isAdditive (hu : u.isAdditive = true) : u.kind ≠ .constant := by
  cases u with
  | constant => cases hu
  | _ => simp [kind]

theorem FusedTo.isMergeable_eq (h : FusedTo t value u u') : u'.isMergeable = u.isMergeable := by
  cases h with
  | renamed h => exact h.isMergeable_eq
  | sum hu => exact (isMergeable_of_isAdditive hu).symm

/-- What is read there are names of values that the old tape reads. -/
theorem FusedTo.exists_isRead (h : FusedTo t value u u') (hu : u ∈ t.usages) {j : Nat}
    (hj : j ∈ u'.reads) : ∃ i, value i = some j ∧ t.IsRead i := by
  cases h with
  | renamed h =>
    obtain ⟨i, hi, hij⟩ := h.exists_of_mem_reads hj
    exact ⟨i, hij, .inr ⟨u, hu, hi⟩⟩
  | @sum s add sub _ hs h =>
    have hj : j ∈ add ++ sub := by simpa [reads, args, initials] using hj
    obtain ⟨i, hi, hij⟩ := exists_of_mem_mapM h hj
    exact ⟨i, hij, hs.read i hi⟩

/-- The usages from place `p'` on are what is left of those from place `p` on. -/
inductive Fuses (t : Tape V) (value : Nat → Option Nat) :
    Place → Place → List (Usage V) → List (Usage V) → Prop
  | nil (p p' : Place) : Fuses t value p p' [] []
  | absorbed {p p' : Place} {u : Usage V} {us us' : List (Usage V)} (hu : (p, u) ∈ t.absorbable)
      (hrest : Fuses t value (p.past u) p' us us') : Fuses t value p p' (u :: us) us'
  | kept {p p' : Place} {u u' : Usage V} {us us' : List (Usage V)}
      (hu : (p, u) ∉ t.absorbable) (hfused : FusedTo t value u u')
      (hvalue : ∀ j < u.resultCount, value (p.first + j) = some (p'.first + j))
      (hrest : Fuses t value (p.past u) (p'.past u') us us') :
      Fuses t value p p' (u :: us) (u' :: us')

/-- Each new usage stands for an old one, in the order of the old ones. -/
theorem Fuses.exists_origin (h : Fuses t value p p' us us') : ∃ origin : Nat → Nat,
    (∀ {k l}, k < l → origin k < origin l) ∧
    ∀ {k q' u'}, (placed p' us')[k]? = some (q', u') → ∃ q u,
      (placed p us)[origin k]? = some (q, u) ∧ (q, u) ∉ t.absorbable ∧ FusedTo t value u u' ∧
        ∀ j < u.resultCount, value (q.first + j) = some (q'.first + j) := by
  induction h with
  | nil => exact ⟨id, fun h => h, fun h => by cases h⟩
  | absorbed _ _ ih =>
    obtain ⟨origin, hincreasing, hplaced⟩ := ih
    exact ⟨fun k => origin k + 1, fun hkl => Nat.succ_lt_succ (hincreasing hkl), hplaced⟩
  | @kept p p' u u' us us' hu hfused hvalue _ ih =>
    obtain ⟨origin, hincreasing, hplaced⟩ := ih
    refine ⟨behindFirst origin, behindFirst_lt hincreasing, fun {k q' w'} hk => ?_⟩
    cases k with
    | zero =>
      obtain ⟨rfl, rfl⟩ := Prod.mk.inj (Option.some.inj hk)
      exact ⟨p, u, rfl, hu, hfused, hvalue⟩
    | succ k => exact hplaced hk

end Usage

/-! ## The walk -/

namespace Pending

variable [Scalar V] {t : Tape V} {deps : List Nat} {count k : Nat} {pending pending' : Pending}
  {u new : Usage V} {us : List (Usage V)} {action : Action V} {b b' : Rebuild V}

/-- What one step of the walk makes of a usage: it is absorbed, or something is recorded for it. -/
inductive Steps (t : Tape V) (b : Rebuild V) (u : Usage V) (b' : Rebuild V) : Prop
  | absorbed {rs : List (Option Nat)} {which : Option Nat} (hu : (b.place, u) ∈ t.absorbable)
      (hentered : b.Entered u rs which b') (htape : b'.tape = b.tape)
  | kept {rs : List (Option Nat)} {which : Option Nat} {new : Usage V}
      (hu : (b.place, u) ∉ t.absorbable) (hentered : b.Entered u rs which b')
      (htape : b'.tape = b.tape.push new) (hfused : Usage.FusedTo t b.value? u new)
      (hresults : ∀ j < u.resultCount, rs[j]?.join = some (b.tape.valueCount + j))

theorem steps_of_copy (hkeeps : b.KeepsVectors) (hu : (b.place, u) ∉ t.absorbable)
    (hstep : Rebuild.Step b u .copy b') : Steps t b u b' := by
  cases hstep with
  | @copy new hnew _ =>
    have htape : (b.replaced u new).tape = b.tape.push new := by
      rw [Rebuild.replaced_eq, Rebuild.tape_enter, Rebuild.tape_enterVector, Rebuild.tape_pushed]
    have hrenames : Usage.Renames b.value? some u new :=
      hnew.transfer (fun _ _ _ hij => hij) fun w _ w' hw =>
        congrArg some (hkeeps.vector?_eq_some_iff.mp hw).2
    exact .kept hu (Rebuild.entered_replaced b u new) htape (.renamed hrenames)
      fun j hj => by simp [hj]

theorem steps_of_visit (hwaits : Waits (.ofTape t) deps count pending (u :: us) b)
    (hgathers : ∀ {i s}, pending.terms? i = some s → t.Gathers s)
    (hk : t.placed[k]? = some (b.place, u))
    (hvisit : pending.visit (.ofTape t) u = (pending', action))
    (hstep : Rebuild.Step b u action b') : Steps t b u b' := by
  have hmem : u ∈ t.usages := Tape.mem_usages_of_placed hk
  have habsorbed : (b.place, u) ∈ t.absorbable ↔ action = .drop := by
    rw [Tape.mem_absorbable, visit_eq_drop_iff hvisit, hwaits.size]
    exact and_iff_right (List.mem_of_getElem? hk)
  have hkeeps := hwaits.ready.keeps
  cases visited_of_visit hvisit with
  | copied => exact steps_of_copy hkeeps (fun hu => by cases habsorbed.mp hu) hstep
  | kept => exact steps_of_copy hkeeps (fun hu => by cases habsorbed.mp hu) hstep
  | taken =>
    cases hstep
    refine .absorbed (habsorbed.mpr rfl) (Rebuild.entered_dropped b u) ?_
    rw [Rebuild.tape_enter, Rebuild.tape_enterVector]
  | @fused s hu =>
    obtain ⟨hone, hplain⟩ := Terms.counts_of_ofUsage? hu
    cases hstep with
    | @sum _ _ add sub hadd hsub hadmits =>
      have hentered : b.Entered u [some b.tape.valueCount] none
          ((b.pushed (.sum add sub)).enter [some b.tape.valueCount]) := by
        refine ⟨hone.symm, Rebuild.values_enter _ _, ?_⟩
        rw [hplain]
        rfl
      have hterms : (pending.gatherAll s).terms.all.mapM b.value? = some (add ++ sub) := by
        rw [mapM_eq_some_iff, Terms.all, List.map_append, List.map_append,
          mapM_eq_some_iff.mp hadd, mapM_eq_some_iff.mp hsub]
      refine .kept (fun hu => by cases habsorbed.mp hu) hentered rfl (.sum
        (Usage.isAdditive_iff.mpr ⟨s, hu⟩) (gathers_gatherAll hgathers hmem hu) hterms)
        fun j hj => ?_
      rw [hone] at hj
      obtain rfl := Nat.lt_one_iff.mp hj
      rfl

/-- What the walk leaves of the usages that it visits. The table is the one at the end. -/
theorem fuses_of_run (hwaits : Waits (.ofTape t) deps count pending us b)
    (hgathers : ∀ {i s}, pending.terms? i = some s → t.Gathers s)
    (hplaced : ∀ x ∈ Usage.placed b.place us, x ∈ t.placed)
    (hrun : b.run? (us.zip (walk (.ofTape t) pending us)) = some b') :
    ∃ us', b'.tape.body.toList = b.tape.body.toList ++ us' ∧ b.Extends b' ∧
      Usage.Fuses t b'.value? b.place
        { first := b.tape.valueCount, vector := b.tape.vectorCount } us us' := by
  induction us generalizing pending b with
  | nil =>
    obtain rfl := Option.some.inj hrun
    exact ⟨[], (List.append_nil _).symm, .refl b, .nil _ _⟩
  | cons u us ih =>
    obtain ⟨b₁, hstep, hrun⟩ := Rebuild.run?_cons_eq_some_iff.mp hrun
    have hvisit : pending.visit (.ofTape t) u
        = ((pending.visit (.ofTape t) u).1, (pending.visit (.ofTape t) u).2) := rfl
    have hv := visited_of_visit hvisit
    rw [Usage.placed, List.forall_mem_cons] at hplaced
    obtain ⟨k, hk⟩ := List.mem_iff_getElem?.mp hplaced.1
    have hmem : u ∈ t.usages := Tape.mem_usages_of_placed hk
    have hbehind {rs : List (Option Nat)} {which : Option Nat}
        (hentered : b.Entered u rs which b₁) :=
      ih (hwaits.step hv hstep) (fun hs => hv.gathers hmem hgathers hs)
        (hentered.place_eq.symm ▸ hplaced.2) hrun
    cases steps_of_visit hwaits hgathers hk hvisit hstep with
    | absorbed hu hentered htape =>
      obtain ⟨us', hbody, hextends, hfuses⟩ := hbehind hentered
      rw [htape] at hbody hfuses
      rw [hentered.place_eq] at hfuses
      exact ⟨us', hbody, hentered.extended.trans hextends, .absorbed hu hfuses⟩
    | @kept rs which new hu hentered htape hfused hresults =>
      obtain ⟨us', hbody, hextends, hfuses⟩ := hbehind hentered
      have hall := hentered.extended.trans hextends
      rw [htape, Tape.body_push, Array.toList_push, List.append_assoc] at hbody
      rw [hentered.place_eq, htape] at hfuses
      refine ⟨new :: us', hbody, hall, .kept hu (hfused.mono fun hij => ?_) (fun j hj => ?_)
        hfuses⟩
      · rw [hall.value _ (Rebuild.lt_of_value? hij), hij]
      · have hlt := hentered.size_values
        show b'.value? (b.values.size + j) = _
        rw [hextends.value _ (by omega), hentered.value?_add, hresults j hj]

end Pending

/-! ## The tape with sums fused -/

namespace Tape

variable [Scalar V] {t t' : Tape V} {value : Nat → Option Nat} {origin : Nat → Nat} {r : Registry V}
  {i j : Nat} {v : V}

/-- The usages of `t'` stand for those of `t` that are not absorbed, in their order. -/
structure Fuses (t t' : Tape V) (value : Nat → Option Nat) (origin : Nat → Nat) : Prop where
  indCount_eq : t'.indCount = t.indCount
  zero : value t.zeroIndex = some t.zeroIndex
  dependents : t.dependents.mapM value = some t'.dependents
  injective : ∀ {i i' j : Nat}, value i = some j → value i' = some j → i = i'
  increasing : ∀ {k l : Nat}, k < l → origin k < origin l
  placed : ∀ {k : Nat} {p : Place} {u' : Usage V}, t'.placed[k]? = some (p, u') → ∃ q u,
    t.placed[origin k]? = some (q, u) ∧ (q, u) ∉ t.absorbable ∧ Usage.FusedTo t value u u' ∧
      ∀ j < u.resultCount, value (q.first + j) = some (p.first + j)

theorem fuses_of_fuseSums (ht : t.WellFormed) (h : t.fuseSums = .ok t') :
    ∃ value origin, t.Fuses t' value origin := by
  rw [fuseSums_eq] at h
  obtain ⟨-, b, hrun, hfinish⟩ := rebuild_eq_ok_iff.mp h
  obtain ⟨ds, hds, hset⟩ := Rebuild.finish?_eq_some_iff.mp hfinish
  obtain ⟨-, rfl⟩ := setDependents?_eq_some_iff.mp hset
  have hplaced : ∀ x ∈ Usage.placed (Rebuild.start t).place t.body.toList, x ∈ t.placed := by
    rw [Rebuild.place_start]
    exact fun x hx => List.mem_cons_of_mem _ hx
  obtain ⟨us', hbody, hextends, hfuses⟩ := Pending.fuses_of_run (.start ht)
    (fun hs => absurd hs (Pending.terms?_replicate_none_ne _ _ _)) hplaced hrun
  have hstart : t.indCount + 1 = (Rebuild.start t).values.size := by simp [Rebuild.start]
  obtain ⟨_, -, hbalanced, -⟩ := Pending.balanced_of_run
    (p := { first := t.indCount + 1, vector := 0 }) (.start ht) (.start t) hstart hrun
  have hzero : b.value? t.zeroIndex = some t.zeroIndex := by
    rw [hextends.value _ (hstart ▸ Nat.lt_succ_self _)]
    exact Rebuild.value?_start.mpr ⟨Nat.lt_succ_self _, rfl⟩
  have hind : b.tape.indCount = t.indCount := (Rebuild.grows_of_run? hrun).indCount_eq
  -- the zero constant stands in front on both tapes
  have husages : Usage.Fuses t b.value? t.zeroPlace t.zeroPlace t.usages
      (.constant Scalar.zero :: us') := by
    rw [Rebuild.place_start] at hfuses
    refine .kept (fun hmem => ?_) (.renamed (.constant _)) (fun j hj => ?_) hfuses
    · cases (mem_absorbable.mp hmem).2.1
    · obtain rfl := Nat.lt_one_iff.mp hj
      exact hzero
  obtain ⟨origin, hincreasing, horigin⟩ := husages.exists_origin
  refine ⟨b.value?, origin, hind, hzero, hds, hbalanced.injective, hincreasing,
    fun {k p u'} hk => horigin (k := k) ?_⟩
  have hplace : b.tape.zeroPlace = t.zeroPlace := congrArg (Place.mk · 0) hind
  have hus : b.tape.body.toList = us' := hbody.trans (List.nil_append us')
  rw [← hplace, ← hus]
  exact hk

/-- No usage adds constants only if nothing is left to fold. -/
theorem Folded.sumsHave (h : t.Folded r) : t.SumsHave fun i => ∀ v, ¬ t.HoldsConstant i v := by
  intro u hu hadds
  have hplain : u.isPlain = true := by
    cases u with
    | unary | binary | sum => rfl
    | _ => cases hadds
  obtain ⟨i, hi, hnot⟩ := (h.usages u hu).exists_not_constant hplain
  rw [Usage.adds_of_isAdditive hadds]
  exact ⟨i, List.mem_append_left _ hi, hnot⟩

namespace Fuses

variable (h : t.Fuses t' value origin)
include h

theorem origin_injective : Function.Injective origin :=
  StrictMono.injective fun _ _ hkl => h.increasing hkl

/-- A new name is a constant only where the old value was. -/
theorem holdsConstant (hij : value i = some j) (hj : t'.HoldsConstant j v) :
    t.HoldsConstant i v := by
  obtain ⟨k, p, hk, rfl⟩ := hj
  obtain ⟨q, u, hl, -, hfused, hvalue⟩ := h.placed hk
  cases hfused with
  | renamed hu =>
    cases hu
    exact ⟨_, q, hl, h.injective (hvalue 0 Nat.one_pos) hij⟩

/-- What is read on the new tape stands for something that was read. -/
theorem exists_isRead (hj : t'.IsRead j) : ∃ i, value i = some j ∧ t.IsRead i := by
  rcases hj with hdep | ⟨u', hu', hmem⟩
  · obtain ⟨i, hi, hij⟩ := exists_of_mem_mapM h.dependents hdep
    exact ⟨i, hij, .inl hi⟩
  · obtain ⟨k, p, hp⟩ := exists_placed_of_mem hu'
    obtain ⟨q, u, hl, -, hfused, -⟩ := h.placed hp
    exact hfused.exists_isRead (mem_usages_of_placed hl) hmem

/-- Fusing sums leaves a folded tape folded. -/
theorem folded (hfolded : t.Folded r) : t'.Folded r := by
  refine ⟨fun u' hu' => ?_, fun {k p u' j} hk hj hread => ?_⟩
  · obtain ⟨k, p, hp⟩ := exists_placed_of_mem hu'
    obtain ⟨q, u, hl, -, hfused, -⟩ := h.placed hp
    have hu : u ∈ t.usages := mem_usages_of_placed hl
    cases hfused with
    | renamed hrenames =>
      exact (hfolded.usages u hu).renamed hrenames fun i _ j hij v hv => h.holdsConstant hij hv
    | @sum s add sub _ hs hterms =>
      intro _
      obtain ⟨i, hi, hnot⟩ := hs.some _ hfolded.sumsHave
      obtain ⟨j, hj, hij⟩ := List.mem_map.mp
        (mapM_eq_some_iff.mp hterms ▸ List.mem_map_of_mem hi)
      exact ⟨j, hj, fun v hv => hnot v (h.holdsConstant hij.symm hv)⟩
  · obtain ⟨q, u, hl, -, hfused, hvalue⟩ := h.placed hk
    cases hfused with
    | renamed hrenames =>
      rw [hrenames.resultCount_eq] at hj
      obtain ⟨i, hij, hreadOld⟩ := h.exists_isRead hread
      obtain rfl := h.injective hij (hvalue j hj)
      exact (hfolded.results hl hj hreadOld).renamed hrenames
        fun i _ j hij v hv => h.holdsConstant hij hv
    | sum => trivial

end Fuses

end Tape

end OpTape
