import OpTape.Proofs.Inheritance
import OpTape.Proofs.Layout
import OpTape.Proofs.PassFaults
import OpTape.Proofs.SumFusion
/-
  The representation invariant. `Tape.Represented` says what the columns of a packed tape hold
  at the slots that its cursor visits. For a tape in order it is read off the usages: each slot
  is the slot of one usage (`Packed.slots_eq_append_cons`), whose slice is what was packed for
  it. Recording and all passes lead to tapes in order, so it holds of every reachable tape; and
  no pass on such a tape misses a value that it relies on (`Reachable.failsOn_of_stopsWith`).
-/
namespace OpTape

variable {V : Type}

namespace Packed

variable {p q : Packed V} {us : List (Usage V)} {first : Nat}

/-- All arguments are the slices in order. -/
theorem args_foldl (p : Packed V) (us : List (Usage V)) (hq : (us.foldl push p).Begins q)
    (first : Nat) :
    (us.foldl push p).args.toList
      = p.args.toList ++ (p.slots first us).flatMap q.slotArgs := by
  induction us generalizing p first with
  | nil => simp [slots]
  | cons u us ih =>
    have hbegins : (p.push u).Begins q := (begins_foldl _ us).trans hq
    rw [List.foldl_cons, ih (p.push u) hq (first + u.resultCount), args_push, slots,
      List.flatMap_cons, slotArgs_slot hbegins, List.append_assoc]

theorem sum_resultCount_slots (p : Packed V) (first : Nat) (us : List (Usage V)) :
    ((p.slots first us).map Slot.resultCount).sum = Usage.resultTotal us := by
  induction us generalizing p first with
  | nil => rfl
  | cons u us ih =>
    rw [slots, List.map_cons, List.sum_cons, ih]
    rfl

theorem map_kind_slots (p : Packed V) (first : Nat) (us : List (Usage V)) :
    (p.slots first us).map Slot.kind = us.map Usage.kind := by
  induction us generalizing p first with
  | nil => rfl
  | cons u us ih =>
    rw [slots, List.map_cons, List.map_cons, ih]
    rfl

theorem countP_vector_slots (p : Packed V) (first : Nat) (us : List (Usage V)) :
    (p.slots first us).countP (·.kind = .vector) = us.countP Usage.startsVector := by
  have hkinds := congrArg (List.countP (· = Kind.vector)) (map_kind_slots p first us)
  rw [List.countP_map, List.countP_map] at hkinds
  refine hkinds.trans (List.countP_congr fun u _ => ?_)
  cases u <;> simp [Usage.kind, Usage.startsVector]

/-! ## Side tables

The usages of one kind number the entries of a side table: each has the number of the next entry
as its slice, and adds one entry. -/

section

variable {kind : Kind} (size : Packed V → Nat)
  (hsize : ∀ p u, size (push p u) = size p + if u.kind = kind then 1 else 0)
include hsize

theorem size_foldl (p : Packed V) (us : List (Usage V)) :
    size (us.foldl push p) = size p + us.countP (·.kind = kind) := by
  induction us generalizing p with
  | nil => rfl
  | cons u us ih =>
    rw [List.foldl_cons, ih, hsize, List.countP_cons]
    simp only [decide_eq_true_eq]
    omega

theorem numbered_slots (hslice : ∀ p u, u.kind = kind → slice p u = [size p]) (p : Packed V)
    (us : List (Usage V)) (hq : (us.foldl push p).Begins q) (first : Nat) :
    ((p.slots first us).filter (·.kind = kind)).map q.slotArgs
      = (List.range' (size p) (us.countP (·.kind = kind))).map ([·]) := by
  induction us generalizing p first with
  | nil => rfl
  | cons u us ih =>
    have hbegins : (p.push u).Begins q := (begins_foldl _ us).trans hq
    have hrest := ih (p.push u) hq (first + u.resultCount)
    rw [hsize] at hrest
    have hslot : (p.slot first u).kind = u.kind := rfl
    rw [slots, List.filter_cons, hslot, List.countP_cons]
    by_cases hu : u.kind = kind
    · rw [if_pos hu] at hrest
      simp only [hu, decide_true, if_true, List.map_cons, slotArgs_slot hbegins, hslice p u hu,
        hrest, List.range'_succ]
    · rw [if_neg hu] at hrest
      simpa only [hu, decide_false, Bool.false_eq_true, if_false, Nat.add_zero] using hrest

end

theorem size_constants_push (p : Packed V) (u : Usage V) :
    (p.push u).constants.size = p.constants.size + if u.kind = .constant then 1 else 0 := by
  cases u with
  | constant v => exact Array.size_push v
  | _ => rfl

theorem size_vectors_push (p : Packed V) (u : Usage V) :
    (p.push u).vectors.size = p.vectors.size + if u.kind = .vector then 1 else 0 := by
  cases u with
  | vector initial => exact Array.size_push initial
  | _ => rfl

theorem slice_of_constant (p : Packed V) (u : Usage V) (h : u.kind = .constant) :
    p.slice u = [p.constants.size] := by
  cases u <;> first | rfl | cases h

theorem slice_of_vector (p : Packed V) (u : Usage V) (h : u.kind = .vector) :
    p.slice u = [p.vectors.size] := by
  cases u <;> first | rfl | cases h

theorem nodup_strings_foldl (p : Packed V) (us : List (Usage V)) (h : p.strings.toList.Nodup) :
    (us.foldl push p).strings.toList.Nodup := by
  induction us generalizing p with
  | nil => exact h
  | cons u us ih =>
    refine ih (p.push u) ?_
    cases u with
    | print before after x y => exact nodup_intern (nodup_intern h before) after
    | _ => exact h

end Packed

namespace Tape

variable [Scalar V] {t t' : Tape V}

/-- What the columns of a packed tape hold at the slots of its usages. -/
structure Represented (t : Tape V) (slots : List Slot) : Prop where
  /-- The first usage is the constant zero, with the value behind the independents. -/
  zero : ∃ s rest, slots = s :: rest ∧ s.kind = .constant ∧ s.results = [t.zeroIndex] ∧
    t.pack.slotArgs s = [0] ∧ t.pack.constants[0]? = some Scalar.zero
  values : t.valueCount = t.indCount + (slots.map Slot.resultCount).sum
  args : t.pack.args.toList = slots.flatMap t.pack.slotArgs
  /-- Where sizes vary, the slice ends with its size. -/
  trailers : ∀ s ∈ slots, s.kind.trailerSize = 1 →
    (t.pack.slotArgs s).getLast? = some s.argCount
  operands : ∀ s ∈ slots, ∀ i ∈ t.pack.slotValues s, i < s.firstResult
  dependents : ∀ i ∈ t.dependents, i < t.valueCount
  constants : (slots.filter (·.kind = .constant)).map t.pack.slotArgs
    = (List.range t.pack.constants.size).map ([·])
  vectors : (slots.filter (·.kind = .vector)).map t.pack.slotArgs
    = (List.range t.pack.vectors.size).map ([·])
  initials : ∀ s ∈ slots, s.kind = .vector → ∃ which initial, t.pack.slotArgs s = [which] ∧
    t.pack.vectors[which]? = some initial ∧ ∀ i ∈ initial, i < s.firstResult
  /-- A load or store names a vector that was started before. -/
  accesses : ∀ before s behind, slots = before ++ s :: behind → s.kind = .load ∨ s.kind = .store →
    ∃ which rest, t.pack.slotArgs s = which :: rest ∧
      which < before.countP (·.kind = .vector)
  strings : t.pack.strings[0]? = some "" ∧ t.pack.strings.toList.Nodup
  prints : ∀ s ∈ slots, s.kind = .print → ∃ before after rest,
    t.pack.slotArgs s = before :: after :: rest ∧ before < t.pack.strings.size ∧
      after < t.pack.strings.size

/-- The slot of a usage on a tape, and what was packed before it. -/
structure Stands (t : Tape V) (before : List (Usage V)) (u : Usage V) (s : Slot) : Prop where
  eq : s = (Packed.ofUsages before).slot (t.indCount + Usage.resultTotal before) u
  begins : ((Packed.ofUsages before).push u).Begins t.pack
  fits : u.Fits (t.indCount + Usage.resultTotal before) (before.countP Usage.startsVector)

theorem WellFormed.stands (ht : t.WellFormed) {before behind : List Slot} {s : Slot}
    (h : t.slots = before ++ s :: behind) :
    ∃ us u, before = Packed.slots {} t.indCount us ∧ t.Stands us u s := by
  obtain ⟨us₁, u, us₂, hus, hbefore, hs⟩ := Packed.slots_eq_append_cons h
  have hfit := ht.fitAll_usages
  rw [hus, Usage.fitAll_append, Nat.zero_add] at hfit
  refine ⟨us₁, u, hbefore, hs, ?_, hfit.2.1⟩
  have hpack : t.pack = us₂.foldl Packed.push ((Packed.ofUsages us₁).push u) := by
    rw [pack, Packed.ofUsages, hus, List.foldl_append]
    rfl
  rw [hpack]
  exact Packed.begins_foldl _ us₂

theorem WellFormed.stands_of_mem (ht : t.WellFormed) {s : Slot} (hs : s ∈ t.slots) :
    ∃ us u, t.Stands us u s := by
  obtain ⟨before, behind, h⟩ := List.append_of_mem hs
  obtain ⟨us, u, -, hstands⟩ := ht.stands h
  exact ⟨us, u, hstands⟩

namespace Stands

variable {before : List (Usage V)} {u : Usage V} {s : Slot}

theorem kind_eq (h : t.Stands before u s) : s.kind = u.kind := by rw [h.eq]; rfl

theorem slotArgs_eq (h : t.Stands before u s) :
    t.pack.slotArgs s = (Packed.ofUsages before).slice u := by
  rw [h.eq]
  exact Packed.slotArgs_slot h.begins _

theorem slotValues_eq (h : t.Stands before u s) : t.pack.slotValues s = u.args := by
  rw [h.eq]
  exact Packed.slotValues_slot h.begins _

theorem lt_of_mem_reads (h : t.Stands before u s) {i : Nat} (hi : i ∈ u.reads) :
    i < s.firstResult := by
  rw [h.eq]
  exact h.fits.1 i hi

end Stands

theorem WellFormed.represented (ht : t.WellFormed) : t.Represented t.slots where
  zero := by
    have hbegins : (Packed.push {} (.constant Scalar.zero)).Begins t.pack :=
      Packed.begins_foldl _ t.body.toList
    refine ⟨_, _, rfl, rfl, rfl, Packed.slotArgs_slot hbegins _, ?_⟩
    obtain ⟨more, hmore⟩ := hbegins.constants
    rw [← Array.getElem?_toList, ← hmore]
    rfl
  values := by
    rw [slots, Packed.sum_resultCount_slots, resultTotal_usages]
  args := by
    exact Packed.args_foldl {} t.usages (.refl t.pack) t.indCount
  trailers s hs htrailer := by
    obtain ⟨us, u, h⟩ := ht.stands_of_mem hs
    obtain ⟨header, trailer, hslice, -, -, hlast⟩ := Packed.slice_eq (Packed.ofUsages us) u
    rw [h.slotArgs_eq, hslice, hlast (h.kind_eq ▸ htrailer), List.getLast?_concat, h.eq]
    rfl
  operands s hs i hi := by
    obtain ⟨us, u, h⟩ := ht.stands_of_mem hs
    rw [h.slotValues_eq] at hi
    exact h.lt_of_mem_reads (List.mem_append_left _ hi)
  dependents := ht.dependents
  constants := by
    have hsize : t.pack.constants.size = 0 + t.usages.countP (·.kind = .constant) :=
      Packed.size_foldl (·.constants.size) Packed.size_constants_push {} t.usages
    rw [hsize, Nat.zero_add, List.range_eq_range']
    exact Packed.numbered_slots (·.constants.size) Packed.size_constants_push
      Packed.slice_of_constant {} t.usages (.refl t.pack) t.indCount
  vectors := by
    have hsize : t.pack.vectors.size = 0 + t.usages.countP (·.kind = .vector) :=
      Packed.size_foldl (·.vectors.size) Packed.size_vectors_push {} t.usages
    rw [hsize, Nat.zero_add, List.range_eq_range']
    exact Packed.numbered_slots (·.vectors.size) Packed.size_vectors_push
      Packed.slice_of_vector {} t.usages (.refl t.pack) t.indCount
  initials s hs hkind := by
    obtain ⟨us, u, h⟩ := ht.stands_of_mem hs
    have hkind' := h.kind_eq.symm.trans hkind
    cases u with
    | vector initial =>
      refine ⟨_, initial, h.slotArgs_eq, ?_, fun i hi => h.lt_of_mem_reads hi⟩
      obtain ⟨more, hmore⟩ := h.begins.vectors
      rw [← Array.getElem?_toList, ← hmore]
      simp [Packed.push]
    | _ => cases hkind'
  accesses before s behind hslots hkind := by
    obtain ⟨us, u, rfl, h⟩ := ht.stands hslots
    rw [h.kind_eq] at hkind
    have hcount := Packed.countP_vector_slots {} t.indCount us
    cases u with
    | load which x => exact ⟨which, _, h.slotArgs_eq, hcount ▸ h.fits.2 which rfl⟩
    | store which x y => exact ⟨which, _, h.slotArgs_eq, hcount ▸ h.fits.2 which rfl⟩
    | _ => rcases hkind with hkind | hkind <;> cases hkind
  strings := by
    refine ⟨?_, Packed.nodup_strings_foldl {} t.usages (by simp)⟩
    obtain ⟨more, hmore⟩ := (Packed.begins_foldl ({} : Packed V) t.usages).strings
    rw [← Array.getElem?_toList, pack, Packed.ofUsages, ← hmore]
    rfl
  prints s hs hkind := by
    obtain ⟨us, u, h⟩ := ht.stands_of_mem hs
    have hkind' := h.kind_eq.symm.trans hkind
    cases u with
    | print before after x y =>
      let strings := (Packed.ofUsages us).strings
      have hle : (intern (intern strings before) after).size ≤ t.pack.strings.size :=
        h.begins.strings.length_le
      have hbefore := place_lt_size_intern strings before
      have hafter := place_lt_size_intern (intern strings before) after
      have hgrow : (intern strings before).size ≤ (intern (intern strings before) after).size :=
        (intern_begins (intern strings before) after).length_le
      refine ⟨_, _, _, h.slotArgs_eq, ?_, ?_⟩
      · exact Nat.lt_of_lt_of_le hbefore (Nat.le_trans hgrow hle)
      · exact Nat.lt_of_lt_of_le hafter hle
    | _ => cases hkind'

variable [DecidableEq V]

/-- No pass on a reachable tape misses what it relies on, whatever is registered: it stops only
where the registry fails a usage of the tape. -/
theorem Reachable.failsOn_of_stopsWith (ht : t.Reachable) {r : Registry V} {fault : Fault V}
    (h : t.StopsWith r fault) : fault ≠ .contract ∧ r.FailsOn t.references fault :=
  have hfails := ht.wellFormed.failsOn_of_stopsWith h
  ⟨hfails.ne_contract, hfails⟩

/-- Whatever requests led to a tape, the columns of its packed form are in order at the slots
that its cursor visits. A pass leads to such a tape again, with any functions registered, and
hands on what does not depend on the usages; if it stops, it does so in the registry. Tapes are
values, so copying and exchanging them leads to no further tapes. -/
theorem reachable_represented (ht : t.Reachable) :
    t.pack.Walks t.cursor t.slots ∧ t.Represented t.slots ∧
      (∀ r t', t.PassesTo r t' → t'.pack.Walks t'.cursor t'.slots ∧ t'.Represented t'.slots ∧
        t.HandsOn t') ∧
      ∀ r fault, t.StopsWith r fault → fault ≠ .contract ∧ r.FailsOn t.references fault := by
  refine ⟨walks_cursor t, ht.wellFormed.represented, fun r t' h => ?_, fun r fault h => ?_⟩
  · exact ⟨walks_cursor t', (h.reachable ht).wellFormed.represented, h.handsOn⟩
  · exact ht.failsOn_of_stopsWith h

end Tape

/-! ## A function whose answers are wrong -/

/-- Hands on its last input, and says that it reads none. -/
def Foreign.misleading : Foreign V where
  name := "misleading"
  apply _ inputs n :=
    match inputs.getLast? with
    | some a => .ok (.replicate n a)
    | none => .error "no input"
  dependence _ _ inputCount := .ok (.replicate inputCount false)

/-- The registry with this function alone, as a map. -/
def Registry.misled : Registry V := { maps := #[.live .misleading] }

theorem Registry.misled_not_honest : ¬ (misled : Registry Rat).Honest := by
  intro h
  have hagree : AgreeOn [false] [(0 : Rat)] [1] := .cons (by simp) .nil
  have hsame := h .map 0 .misleading rfl 0 [true] 1 _ rfl rfl _ _ hagree
  exact absurd (hsame 0 rfl) (by decide)

namespace Tape

/-- A usage of each kind of slice: with a fixed size, with a trailer, and with a side table. -/
def mixed : Tape Rat :=
  let read := (((new 2 {}).push (.sum [0] [1])).push (.vector [3, 0])).push (.load 0 2)
  { (read.push (.foreign .map 0 7 2 [0, 4])).push (.print "at " "" 5 6) with deps := some [6] }

/-- What is left if the map reads nothing. -/
def mixedCut : Tape Rat :=
  { ((new 2 {}).push (.foreign .map 0 7 2 [2, 2])).push (.print "at " "" 3 4) with
    deps := some [4] }

theorem reachable_represented_mixed : mixed.Reachable ∧
    mixed.pack.args = #[0, 1, 1, 0, 1, 5, 0, 0, 2, 7, 2, 0, 7, 0, 4, 7, 1, 0, 5, 6] ∧
    mixed.slots.map Slot.argIndex = [0, 1, 6, 7, 9, 16] ∧
    mixed.pack.Walks mixed.cursor mixed.slots ∧ mixed.Represented mixed.slots ∧
    (∃ t', mixed.fuseSums = .ok t' ∧ mixed.HandsOn t') ∧
    ¬ (Registry.misled : Registry Rat).Honest ∧
    mixed.dropDead .misled = .ok mixedCut ∧
    mixedCut.pack.args = #[0, 7, 2, 0, 7, 2, 2, 7, 1, 0, 3, 4] ∧
    mixedCut.Represented mixedCut.slots ∧ mixed.HandsOn mixedCut ∧
    mixed.dropDead .empty = .error (.unknownFunction .map 0) ∧
    (Registry.empty : Registry Rat).FailsOn mixed.references (.unknownFunction .map 0) := by
  have hreachable : mixed.Reachable :=
    (((((Reachable.new 2 {}).push (by decide)).push (by decide)).push (by decide)).push
      (by decide)).push (by decide) |>.withDependents rfl (by decide)
  obtain ⟨hwalks, hrepresented, hpasses, hstops⟩ := reachable_represented hreachable
  have hargs : mixed.pack.args
      = #[0, 1, 1, 0, 1, 5, 0, 0, 2, 7, 2, 0, 7, 0, 4, 7, 1, 0, 5, 6] := by with_unfolding_all rfl
  have hslots : mixed.slots.map Slot.argIndex = [0, 1, 6, 7, 9, 16] := rfl
  have hfuse : mixed.fuseSums = .ok mixed := by with_unfolding_all rfl
  obtain ⟨-, -, hhanded⟩ := hpasses .empty mixed (.fuseSums hfuse)
  have hdrop : mixed.dropDead .misled = .ok mixedCut := by with_unfolding_all rfl
  have hcut : mixedCut.pack.args = #[0, 7, 2, 0, 7, 2, 2, 7, 1, 0, 3, 4] := by
    with_unfolding_all rfl
  obtain ⟨-, hcutRepresented, hcutHanded⟩ := hpasses .misled mixedCut (.dropDead hdrop)
  have hstop : mixed.dropDead .empty = .error (.unknownFunction .map 0) := by
    with_unfolding_all rfl
  obtain ⟨-, hfails⟩ := hstops .empty _ (.dropDead hstop)
  exact ⟨hreachable, hargs, hslots, hwalks, hrepresented, ⟨mixed, hfuse, hhanded⟩,
    Registry.misled_not_honest, hdrop, hcut, hcutRepresented, hcutHanded, hstop, hfails⟩

end Tape

end OpTape
