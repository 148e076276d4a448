import OpTape.Packed.Cursor
import OpTape.Proofs.WellFormed
/-
  Where usages stand in a packed tape. Packing only ever adds at the end of a column
  (`Packed.Begins`), so the slice of a usage stays where it was put, and the counts that it
  starts and ends with can be read back there. `Packed.slots` lists the slots of the usages of a
  list; a cursor that starts at its front visits just these (`Packed.walks_slots`).
-/
namespace OpTape

variable {V : Type}

/-! ## Texts -/

theorem intern_begins (strings : Array String) (text : String) :
    strings.toList <+: (intern strings text).toList := by
  unfold intern
  split
  · exact List.prefix_refl _
  · rw [Array.toList_push]
    exact List.prefix_append _ _

theorem place_lt_size_intern (strings : Array String) (text : String) :
    place strings text < (intern strings text).size := by
  unfold place intern
  split
  · exact Array.idxOf_lt_size_iff.mpr ‹_›
  · rw [Array.size_push]
    exact Nat.lt_succ_of_le Array.idxOf_le_size

theorem nodup_intern {strings : Array String} (h : strings.toList.Nodup) (text : String) :
    (intern strings text).toList.Nodup := by
  unfold intern
  split
  · exact h
  · rename_i hnew
    rw [Array.toList_push, List.nodup_append]
    refine ⟨h, by simp, fun a ha b hb => ?_⟩
    obtain rfl := List.mem_singleton.mp hb
    exact fun heq => hnew (heq ▸ Array.mem_toList_iff.mp ha)

namespace Packed

/-! ## Columns that grow -/

/-- Every column of `p` is the beginning of the same column of `q`. -/
structure Begins (p q : Packed V) : Prop where
  kinds : p.kinds.toList <+: q.kinds.toList
  args : p.args.toList <+: q.args.toList
  constants : p.constants.toList <+: q.constants.toList
  strings : p.strings.toList <+: q.strings.toList
  vectors : p.vectors.toList <+: q.vectors.toList

theorem Begins.refl (p : Packed V) : p.Begins p :=
  ⟨List.prefix_refl _, List.prefix_refl _, List.prefix_refl _, List.prefix_refl _,
    List.prefix_refl _⟩

theorem Begins.trans {p q s : Packed V} (h : p.Begins q) (h' : q.Begins s) : p.Begins s :=
  ⟨h.kinds.trans h'.kinds, h.args.trans h'.args, h.constants.trans h'.constants,
    h.strings.trans h'.strings, h.vectors.trans h'.vectors⟩

theorem kinds_push (p : Packed V) (u : Usage V) :
    (p.push u).kinds.toList = p.kinds.toList ++ [u.kind] := by
  cases u <;> exact Array.toList_push

theorem args_push (p : Packed V) (u : Usage V) :
    (p.push u).args.toList = p.args.toList ++ p.slice u := by
  cases u <;> simp [push]

theorem size_kinds_push (p : Packed V) (u : Usage V) :
    (p.push u).kinds.size = p.kinds.size + 1 := by
  rw [← Array.length_toList, kinds_push, List.length_append]
  rfl

theorem size_args_push (p : Packed V) (u : Usage V) :
    (p.push u).args.size = p.args.size + (p.slice u).length := by
  rw [← Array.length_toList, args_push, List.length_append]
  rfl

theorem size_kinds_foldl (p : Packed V) (us : List (Usage V)) :
    (us.foldl push p).kinds.size = p.kinds.size + us.length := by
  induction us generalizing p with
  | nil => rfl
  | cons u us ih =>
    rw [List.foldl_cons, ih, size_kinds_push, List.length_cons]
    omega

theorem begins_push (p : Packed V) (u : Usage V) : p.Begins (p.push u) where
  kinds := kinds_push p u ▸ List.prefix_append _ _
  args := args_push p u ▸ List.prefix_append _ _
  constants := by
    cases u with
    | constant v =>
      simp [push]
    | _ => exact List.prefix_refl _
  strings := by
    cases u with
    | print before after x y =>
      exact (intern_begins _ before).trans (intern_begins _ after)
    | _ => exact List.prefix_refl _
  vectors := by
    cases u with
    | vector initial => simp [push]
    | _ => exact List.prefix_refl _

theorem begins_foldl (p : Packed V) (us : List (Usage V)) : p.Begins (us.foldl push p) := by
  induction us generalizing p with
  | nil => exact .refl p
  | cons u us ih => exact (begins_push p u).trans (ih (p.push u))

/-! ## Slots -/

/-- The slot of a usage that is packed next, with results from index `first` on. -/
def slot (p : Packed V) (first : Nat) (u : Usage V) : Slot :=
  { position := p.kinds.size
    kind := u.kind
    argIndex := p.args.size
    firstResult := first
    argCount := (p.slice u).length
    resultCount := u.resultCount }

/-- The slots of usages that are packed in order, the first with results from index `first` on. -/
def slots (p : Packed V) (first : Nat) : List (Usage V) → List Slot
  | [] => []
  | u :: rest => p.slot first u :: (p.push u).slots (first + u.resultCount) rest

theorem slots_append (p : Packed V) (first : Nat) (us vs : List (Usage V)) :
    p.slots first (us ++ vs)
      = p.slots first us ++ (us.foldl push p).slots (first + Usage.resultTotal us) vs := by
  induction us generalizing p first with
  | nil => rfl
  | cons u us ih =>
    rw [List.cons_append, slots, ih, Usage.resultTotal_cons, ← Nat.add_assoc]
    rfl

theorem length_slots (p : Packed V) (first : Nat) (us : List (Usage V)) :
    (p.slots first us).length = us.length := by
  induction us generalizing p first with
  | nil => rfl
  | cons u us ih => rw [slots, List.length_cons, ih, List.length_cons]

/-- A list of slots is cut where the list of usages is. -/
theorem slots_eq_append_cons {p : Packed V} {first : Nat} {us : List (Usage V)}
    {before behind : List Slot} {s : Slot} (h : p.slots first us = before ++ s :: behind) :
    ∃ us₁ u us₂, us = us₁ ++ u :: us₂ ∧ before = p.slots first us₁ ∧
      s = (us₁.foldl push p).slot (first + Usage.resultTotal us₁) u := by
  induction before generalizing p first us with
  | nil =>
    cases us with
    | nil => cases h
    | cons u us =>
      obtain ⟨rfl, -⟩ := List.cons.inj h
      exact ⟨[], u, us, rfl, rfl, rfl⟩
  | cons s₁ before ih =>
    cases us with
    | nil => cases h
    | cons u us =>
      obtain ⟨rfl, hrest⟩ := List.cons.inj h
      obtain ⟨us₁, v, us₂, rfl, rfl, rfl⟩ := ih hrest
      refine ⟨u :: us₁, v, us₂, rfl, rfl, ?_⟩
      rw [Usage.resultTotal_cons, ← Nat.add_assoc]
      rfl

variable {p q : Packed V} {u : Usage V}

/-- The slice of a usage stays where it was put. -/
theorem slotArgs_slot (h : (p.push u).Begins q) (first : Nat) :
    q.slotArgs (p.slot first u) = p.slice u := by
  obtain ⟨more, hmore⟩ := h.args
  rw [args_push] at hmore
  simp only [slotArgs, slot, Array.toList_extract, ← hmore, List.extract_eq_take_drop]
  simp

theorem getElem?_args_slot (h : (p.push u).Begins q) {k : Nat} (hk : k < (p.slice u).length) :
    q.args[p.args.size + k]? = (p.slice u)[k]? := by
  obtain ⟨more, hmore⟩ := h.args
  rw [args_push] at hmore
  rw [← Array.getElem?_toList, ← hmore, List.append_assoc, List.getElem?_append_right (by simp)]
  simp [List.getElem?_append_left hk]

/-- The operands stand between header and trailer. -/
theorem slice_eq (p : Packed V) (u : Usage V) :
    ∃ header trailer, p.slice u = header ++ u.args ++ trailer ∧
      header.length = u.kind.headerSize ∧ trailer.length = u.kind.trailerSize ∧
      (u.kind.trailerSize = 1 → trailer = [(p.slice u).length]) := by
  cases u with
  | constant v => exact ⟨[p.constants.size], [], rfl, rfl, rfl, fun h => by cases h⟩
  | unary op x => exact ⟨[], [], rfl, rfl, rfl, fun h => by cases h⟩
  | binary op x y => exact ⟨[], [], rfl, rfl, rfl, fun h => by cases h⟩
  | discrete id x => exact ⟨[id], [], rfl, rfl, rfl, fun h => by cases h⟩
  | compare cmp x y => exact ⟨[cmp.code], [], rfl, rfl, rfl, fun h => by cases h⟩
  | select cmp x y z w => exact ⟨[cmp.code], [], rfl, rfl, rfl, fun h => by cases h⟩
  | sum add sub =>
    refine ⟨[add.length, sub.length], [3 + add.length + sub.length], ?_, rfl, rfl, fun _ => ?_⟩
    · simp [slice, Usage.args]
    · simp [slice]
      omega
  | vector initial => exact ⟨[p.vectors.size], [], rfl, rfl, rfl, fun h => by cases h⟩
  | load w x => exact ⟨[w], [], rfl, rfl, rfl, fun h => by cases h⟩
  | store w x y => exact ⟨[w], [], rfl, rfl, rfl, fun h => by cases h⟩
  | print before after x y => exact ⟨[_, _], [], rfl, rfl, rfl, fun h => by cases h⟩
  | foreign family id callId n inputs =>
    refine ⟨[5 + inputs.length, n, id, callId], [5 + inputs.length], rfl, rfl, rfl, fun _ => ?_⟩
    simp [slice]
    omega

theorem slotValues_slot (h : (p.push u).Begins q) (first : Nat) :
    q.slotValues (p.slot first u) = u.args := by
  obtain ⟨header, trailer, hslice, hheader, htrailer, -⟩ := slice_eq p u
  obtain ⟨more, hmore⟩ := h.args
  rw [args_push, hslice] at hmore
  simp only [slotValues, slot, Array.toList_extract, ← hmore, List.extract_eq_take_drop, ← hheader,
    ← htrailer, hslice]
  have hcount : p.args.size + (header ++ u.args ++ trailer).length - trailer.length
      - (p.args.size + header.length) = u.args.length := by
    simp only [List.length_append]
    omega
  have hdrop : (p.args.toList ++ (header ++ u.args ++ trailer) ++ more).drop
      (p.args.size + header.length) = u.args ++ (trailer ++ more) := by
    simp [List.drop_append]
  rw [hcount, hdrop, List.take_left]

/-- The kind of a usage stands where it was put. -/
theorem kinds_eq (h : (p.push u).Begins q) : q.kinds[p.kinds.size]? = some u.kind := by
  obtain ⟨more, hmore⟩ := h.kinds
  rw [kinds_push] at hmore
  rw [← Array.getElem?_toList, ← hmore, List.append_assoc, List.getElem?_append_right (by simp)]
  simp

theorem argCount?_slot (h : (p.push u).Begins q) :
    q.argCount? u.kind p.args.size = some (p.slice u).length := by
  cases u with
  | sum add sub =>
    have h₀ := getElem?_args_slot h (k := 0) (by simp [slice])
    have h₁ := getElem?_args_slot h (k := 1) (by simp [slice])
    simp only [Nat.add_zero] at h₀
    simp only [Usage.kind, argCount?, h₀, h₁]
    simp [slice]
    omega
  | foreign family id callId n inputs =>
    have h₀ := getElem?_args_slot h (k := 0) (by simp [slice])
    simp only [Nat.add_zero] at h₀
    simp only [Usage.kind, argCount?, h₀]
    simp [slice]
    omega
  | _ => rfl

theorem resultCount?_slot (h : (p.push u).Begins q) :
    q.resultCount? u.kind p.args.size = some u.resultCount := by
  cases u with
  | foreign family id callId n inputs => exact getElem?_args_slot h (k := 1) (by simp [slice])
  | _ => rfl

/-! ## Walking -/

/-- The slots that a cursor visits from its front until it meets its back. -/
inductive Walks (p : Packed V) : Cursor → List Slot → Prop
  | done {c : Cursor} (h : p.next c = .done) : Walks p c []
  | item {c rest : Cursor} {slot : Slot} {slots : List Slot} (h : p.next c = .item slot rest)
      (hrest : Walks p rest slots) : Walks p c (slot :: slots)

/-- The cursor over what is packed behind `p`. -/
def cursorFrom (p q : Packed V) (first last : Nat) : Cursor :=
  { frontUsage := p.kinds.size, frontArg := p.args.size, frontResult := first
    backUsage := q.kinds.size, backArg := q.args.size, backResult := last }

/-- The front end of a cursor moves over the usage that was packed first behind it. -/
theorem next_slot {b : Packed V} (h : (p.push u).Begins b) (hb : b.Begins q) (first last : Nat) :
    q.next (cursorFrom p b first last)
      = .item (p.slot first u) (cursorFrom (p.push u) b (first + u.resultCount) last) := by
  have hkind : q.kinds[p.kinds.size]? = some u.kind := kinds_eq (h.trans hb)
  have hkinds := h.kinds.length_le
  have hargs := (h.trans hb).args.length_le
  simp only [Array.length_toList, size_kinds_push, size_args_push] at hkinds hargs
  have hstep : q.step? (cursorFrom p b first last)
      = some (p.slot first u, cursorFrom (p.push u) b (first + u.resultCount) last) := by
    rw [cursorFrom, cursorFrom, size_kinds_push, size_args_push]
    exact Option.bind_eq_some_iff.mpr ⟨_, hkind, Option.bind_eq_some_iff.mpr
      ⟨_, argCount?_slot (h.trans hb), Option.bind_eq_some_iff.mpr
        ⟨_, resultCount?_slot (h.trans hb), guard_bind_eq_some_iff.mpr ⟨hargs, rfl⟩⟩⟩⟩
  have hne : (cursorFrom p b first last).frontUsage ≠ (cursorFrom p b first last).backUsage := by
    show p.kinds.size ≠ b.kinds.size
    omega
  rw [next, if_neg hne, hstep]

/-- A cursor visits the slots of what is packed behind its front. -/
theorem walks_slots (p : Packed V) (us : List (Usage V)) (first last : Nat) :
    (us.foldl push p).Walks (cursorFrom p (us.foldl push p) first last) (p.slots first us) := by
  induction us generalizing p first with
  | nil => exact .done (if_pos rfl)
  | cons u us ih => exact .item (next_slot (begins_foldl _ _) (.refl _) first last) (ih _ _)

end Packed

namespace Tape

variable [Scalar V] {t : Tape V}

theorem WellFormed.fitAll_usages (ht : t.WellFormed) : Usage.FitAll t.indCount 0 t.usages :=
  ⟨by simp [Usage.Fits, Usage.reads, Usage.args, Usage.initials, Usage.vector?], ht.body⟩

theorem resultTotal_usages (t : Tape V) :
    t.indCount + Usage.resultTotal t.usages = t.valueCount := by
  rw [t.valueCount_eq, Nat.add_assoc]
  rfl

/-- The slots of all usages of a tape. -/
def slots (t : Tape V) : List Slot := Packed.slots {} t.indCount t.usages

/-- The cursor of a tape visits the slots of its usages. -/
theorem walks_cursor (t : Tape V) : t.pack.Walks t.cursor t.slots :=
  Packed.walks_slots {} t.usages t.indCount t.valueCount

end Tape

end OpTape
