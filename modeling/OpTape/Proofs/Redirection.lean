import OpTape.Proofs.Merging
import OpTape.Proofs.Numbering
import OpTape.Proofs.TwoEnded
/-
  Merging in place. Nothing has to be recorded afresh to redirect what a tape reads: with the slots
  of all usages at hand, each value index in the columns is replaced where it stands
  (`Packed.redirect`). The counts, ids and table numbers around the values stay, so no slice moves,
  and the columns become those of the usages with their operands renamed
  (`Packed.ofUsages_redirected`). So merging on the columns is `Tape.mergeEqual`
  (`Tape.pack_of_mergeEqual`).
-/
namespace OpTape

variable {V : Type}

namespace Packed

/-- The entries from `start` up to `stop` are replaced one after the other. -/
def redirectRange (f : Nat → Nat) (args : Array Nat) (start stop : Nat) : Array Nat :=
  (List.range' start (stop - start)).foldl (fun args k => args.modify k f) args

/-- The value indices in the argument slice at a slot are replaced. -/
def redirectSlot (f : Nat → Nat) (args : Array Nat) (s : Slot) : Array Nat :=
  redirectRange f args (s.argIndex + s.kind.headerSize)
    (s.argIndex + s.argCount - s.kind.trailerSize)

/-- All that the usages at the slots read is replaced, initial values of vectors included. -/
def redirect (p : Packed V) (slots : List Slot) (f : Nat → Nat) : Packed V :=
  { p with
    args := slots.foldl (redirectSlot f) p.args
    vectors := p.vectors.map (·.map f) }

variable {f : Nat → Nat}

/-! ## One slice -/

theorem modify_append_cons (before : List Nat) (i : Nat) (behind : List Nat) :
    (before ++ i :: behind).modify before.length f = before ++ f i :: behind := by
  induction before with
  | nil => rfl
  | cons k before ih => exact congrArg (k :: ·) ih

theorem toList_redirectRange {args : Array Nat} {before values behind : List Nat}
    (hargs : args.toList = before ++ values ++ behind) :
    (redirectRange f args before.length (before ++ values).length).toList
      = before ++ values.map f ++ behind := by
  rw [redirectRange, List.length_append, Nat.add_sub_cancel_left]
  induction values generalizing args before with
  | nil => exact hargs
  | cons i values ih =>
    have hfirst : (args.modify before.length f).toList = before ++ [f i] ++ values ++ behind := by
      rw [Array.toList_modify, hargs, List.append_assoc, List.cons_append, modify_append_cons]
      simp
    have hrest := ih hfirst
    rw [List.length_append] at hrest
    rw [List.length_cons, List.range'_succ, List.foldl_cons, List.map_cons]
    simpa using hrest

/-- The values of a slice are replaced between header and trailer. -/
theorem toList_redirectSlot {args : Array Nat} {before header values trailer behind : List Nat}
    {s : Slot} (hargs : args.toList = before ++ (header ++ values ++ trailer) ++ behind)
    (hindex : s.argIndex = before.length)
    (hcount : s.argCount = (header ++ values ++ trailer).length)
    (hheader : header.length = s.kind.headerSize)
    (htrailer : trailer.length = s.kind.trailerSize) :
    (redirectSlot f args s).toList
      = before ++ (header ++ values.map f ++ trailer) ++ behind := by
  have hcut : args.toList = (before ++ header) ++ values ++ (trailer ++ behind) := by
    rw [hargs]
    simp only [List.append_assoc]
  have hstart : s.argIndex + s.kind.headerSize = (before ++ header).length := by
    rw [hindex, ← hheader, List.length_append]
  have hstop : s.argIndex + s.argCount - s.kind.trailerSize
      = (before ++ header ++ values).length := by
    rw [hindex, hcount, ← htrailer]
    simp only [List.length_append]
    omega
  rw [redirectSlot, hstart, hstop, toList_redirectRange hcut]
  simp only [List.append_assoc]

/-- Renaming what a usage reads touches neither header nor trailer of its slice. -/
theorem SameShape.slice_eq {p q : Packed V} (h : p.SameShape q) {value : Nat → Option Nat}
    {u u' : Usage V} (hu : Usage.Renames value some u u') :
    ∃ header trailer, p.slice u = header ++ u.args ++ trailer ∧
      q.slice u' = header ++ u'.args ++ trailer ∧
      header.length = u.kind.headerSize ∧ trailer.length = u.kind.trailerSize := by
  cases hu with
  | constant v => exact ⟨[p.constants.size], [], rfl, by rw [h.constants]; rfl, rfl, rfl⟩
  | unary | binary => exact ⟨[], [], rfl, rfl, rfl, rfl⟩
  | @discrete id => exact ⟨[id], [], rfl, rfl, rfl, rfl⟩
  | @compare cmp | @select cmp => exact ⟨[cmp.code], [], rfl, rfl, rfl, rfl⟩
  | @sum add sub add' sub' hadd hsub =>
    refine ⟨[add.length, sub.length], [3 + add.length + sub.length], ?_, ?_, rfl, rfl⟩
    · simp [slice, Usage.args]
    · simp [slice, Usage.args, length_of_mapM_some hadd, length_of_mapM_some hsub]
  | vector => exact ⟨[p.vectors.size], [], rfl, by rw [h.vectors]; rfl, rfl, rfl⟩
  | @load w _ _ _ hw | @store w _ _ _ _ _ hw =>
    obtain rfl := Option.some.inj hw
    exact ⟨[w], [], rfl, rfl, rfl, rfl⟩
  | @print before after =>
    exact ⟨[place p.strings before, place (intern p.strings before) after], [], rfl,
      by rw [h.strings]; rfl, rfl, rfl⟩
  | @foreign family id callId n inputs inputs' hinputs =>
    refine ⟨[5 + inputs.length, n, id, callId], [5 + inputs.length], rfl, ?_, rfl, rfl⟩
    rw [slice, length_of_mapM_some hinputs]
    rfl

/-! ## All slices -/

/-- A usage whose operands are renamed stands where it stood. -/
theorem SameShape.slots_eq {value : Nat → Option Nat} {us us' : List (Usage V)}
    (hus : List.Forall₂ (Usage.Renames value some) us us') {p q : Packed V} (h : p.SameShape q)
    (first : Nat) : q.slots first us' = p.slots first us := by
  induction hus generalizing p q first with
  | nil => rfl
  | @cons u u' us us' hu _ ih =>
    have hcount := (h.push hu).args
    rw [size_args_push, size_args_push, h.args, Nat.add_left_cancel_iff] at hcount
    have hslot : q.slot first u' = p.slot first u := by
      simp only [slot, h.kinds, h.args, hu.kind_eq, hu.resultCount_eq, hcount]
    rw [slots, slots, hslot, hu.resultCount_eq, ih (h.push hu)]

theorem eq_map_of_map_some {xs ys : List Nat}
    (h : xs.map (fun i => some (f i)) = ys.map some) : ys = xs.map f := by
  refine ((List.map_inj_right fun _ _ => Option.some.inj).mp ?_).symm
  rw [List.map_map]
  exact h

/-- The walk over the slots leaves in front of a slot what was renamed already, and behind it what
was packed. -/
theorem args_redirected {us us' : List (Usage V)}
    (hus : List.Forall₂ (Usage.Renames (fun i => some (f i)) some) us us') {p q : Packed V}
    (h : p.SameShape q) (first : Nat) {args : Array Nat} {rest : List Nat}
    (hrest : (us.foldl push p).args.toList = p.args.toList ++ rest)
    (hargs : args.toList = q.args.toList ++ rest) :
    (p.slots first us).foldl (redirectSlot f) args = (us'.foldl push q).args := by
  induction hus generalizing p q first args rest with
  | nil =>
    obtain rfl : rest = [] := by simpa using hrest
    exact Array.toList_inj.mp (hargs.trans (List.append_nil _))
  | @cons u u' us us' hu _ ih =>
    obtain ⟨header, trailer, hslice, hslice', hheader, htrailer⟩ := h.slice_eq hu
    rw [eq_map_of_map_some hu.map_args] at hslice'
    obtain ⟨behind, hbehind⟩ := (begins_foldl (p.push u) us).args
    obtain rfl : p.slice u ++ behind = rest := by
      rw [args_push, List.append_assoc] at hbehind
      exact List.append_cancel_left (hbehind.trans hrest)
    rw [hslice, ← List.append_assoc] at hargs
    have hslot := toList_redirectSlot (f := f) (s := p.slot first u) hargs
      (by rw [Array.length_toList, ← h.args]; rfl) (by rw [← hslice]; rfl) hheader htrailer
    refine ih (h.push hu) _ hbehind.symm ?_
    rw [hslot, args_push, hslice']

theorem vectors_push_redirected {p q : Packed V} {u u' : Usage V}
    (hu : Usage.Renames (fun i => some (f i)) some u u')
    (h : q.vectors = p.vectors.map (·.map f)) :
    (q.push u').vectors = (p.push u).vectors.map (·.map f) := by
  have hinitials := eq_map_of_map_some hu.map_initials
  cases hu with
  | @vector initial initial' _ =>
    have hinitial : initial' = initial.map f := hinitials
    rw [push, push, h, hinitial, Array.map_push]
  | _ => exact h

theorem vectors_redirected {us us' : List (Usage V)}
    (hus : List.Forall₂ (Usage.Renames (fun i => some (f i)) some) us us') {p q : Packed V}
    (h : q.vectors = p.vectors.map (·.map f)) :
    (us'.foldl push q).vectors = (us.foldl push p).vectors.map (·.map f) := by
  induction hus generalizing p q with
  | nil => exact h
  | cons hu _ ih => exact ih (vectors_push_redirected hu h)

/-- Replacing what the usages read in the columns gives the packed form of the usages that read
the replacements. -/
theorem ofUsages_redirected {us us' : List (Usage V)}
    (hus : List.Forall₂ (Usage.Renames (fun i => some (f i)) some) us us') (first : Nat) :
    (ofUsages us).redirect (slots {} first us) f = ofUsages us' := by
  have hshape : (ofUsages us).SameShape (ofUsages us') := .foldl hus (.refl {})
  have hargs : (slots {} first us).foldl (redirectSlot f) (ofUsages us).args
      = (ofUsages us').args := args_redirected hus (.refl {}) first rfl rfl
  have hvectors : (ofUsages us').vectors
      = (ofUsages us).vectors.map (·.map f) := vectors_redirected hus (by simp)
  rw [redirect, hargs, ← hvectors, hshape.kinds, hshape.constants, hshape.strings]

end Packed

namespace Tape

variable [Scalar V] [DecidableEq V] {t t' : Tape V}

/-- A cursor visits the same slots on a merged tape. -/
theorem slots_of_mergeEqual (h : t.mergeEqual = .ok t') : t'.slots = t.slots := by
  obtain ⟨us', m, deps, hwalk, -, rfl⟩ := mergeEqual_eq_ok_iff.mp h
  have hslots := Packed.SameShape.slots_eq hwalk.renames_usages (.refl {}) t.indCount
  have hind : m.tape.indCount = t.indCount := hwalk.inherits.1
  rw [← hind] at hslots
  exact hslots.trans (by rw [hind]; rfl)

/-- Merging equal usages replaces values in the columns of a tape where they stand. In the argument
slices that a cursor visits, among the initial values of vectors and among the dependents, every
value becomes its first equal, and nothing else changes. -/
theorem pack_of_mergeEqual (h : t.mergeEqual = .ok t') {slots : List Slot}
    (hwalks : t.pack.Walks t.cursor slots) :
    t'.pack = t.pack.redirect slots t.firstEqual ∧ t'.deps = t.deps.map (·.map t.firstEqual) := by
  obtain rfl := hwalks.unique (walks_cursor t)
  obtain ⟨us', m, deps, hwalk, hdeps, rfl⟩ := mergeEqual_eq_ok_iff.mp h
  refine ⟨?_, deps_eq_of_walk hwalk hdeps⟩
  exact (Packed.ofUsages_redirected (renames_firstEqual hwalk) t.indCount).symm

/-- Two equal sums are read by a registered function, a vector and a print. -/
example :
    let sums : Tape Float := ((new 2 {}).push (.binary .add 0 1)).push (.binary .add 1 0)
    let t := ((sums.push (.foreign .call 7 4 1 [3, 4])).push (.vector [4, 0])).push
      (.print "" "!" 4 5)
    t.pack.args = #[0, 0, 1, 1, 0, 7, 1, 7, 4, 3, 4, 7, 0, 0, 1, 4, 5] ∧
      (t.pack.redirect t.slots t.firstEqual).args
        = #[0, 0, 1, 1, 0, 7, 1, 7, 4, 3, 3, 7, 0, 0, 1, 3, 5] ∧
      (t.pack.redirect t.slots t.firstEqual).vectors = #[[3, 0]] := by
  with_unfolding_all exact ⟨rfl, rfl, rfl⟩

end Tape

end OpTape
