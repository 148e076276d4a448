import OpTape.Proofs.Layout
/-
  Walking a packed tape from both ends at once. What a cursor bounds is a run of usages that were
  packed one behind the other (`Packed.Bounds`). A move on either side takes the slot at that end
  of the run and leaves bounds around the rest: forward, the size of a slice is read off its
  header (`next_slot`), and backward, off its trailer or its kind (`nextBack_slot`). By induction
  on the moves, any interleaving of both directions deals the slots of the forward walk out from
  its two ends (`Tape.moves_cursor`).
-/
namespace OpTape

variable {V : Type} {α : Type}

/-- The end of a cursor that a move is made at. -/
inductive Side
  | front
  | back
  deriving DecidableEq

namespace Side

/-- The element that is reached with number `k` from an end of a list. -/
def nth? : Side → List α → Nat → Option α
  | front, xs, k => xs[k]?
  | back, xs, k => xs.reverse[k]?

/-- A list without the element at an end. -/
def rest : Side → List α → List α
  | front, xs => xs.tail
  | back, xs => xs.dropLast

theorem length_rest (side : Side) (xs : List α) : (side.rest xs).length = xs.length - 1 := by
  cases side <;> simp [rest]

theorem exists_nth? (side : Side) {xs : List α} {k : Nat} (hk : k < xs.length) :
    ∃ x, side.nth? xs k = some x := by
  cases side with
  | front => exact ⟨xs[k], List.getElem?_eq_getElem hk⟩
  | back =>
    have hk' : k < xs.reverse.length := by rwa [List.length_reverse]
    exact ⟨xs.reverse[k], List.getElem?_eq_getElem hk'⟩

theorem count_take_le (side : Side) (sides : List Side) (k : Nat) :
    (sides.take k).count side ≤ k :=
  Nat.le_trans List.count_le_length (List.length_take_le k sides)

/-- Taking an element at the end `taken` moves the numbers from that end by one, and leaves the
numbers from the other end alone as long as elements are left. -/
theorem nth?_rest (taken side : Side) {xs : List α} {k : Nat} (hk : k < (taken.rest xs).length) :
    side.nth? (taken.rest xs) k = side.nth? xs (if side = taken then k + 1 else k) := by
  cases taken <;> cases side <;> simp only [rest, nth?, reduceCtorEq, if_true, if_false]
  case front.front =>
    rw [List.getElem?_tail]
  case front.back =>
    rw [length_rest] at hk
    rw [← List.dropLast_reverse, List.getElem?_dropLast, List.length_reverse, if_pos hk]
  case back.front =>
    rw [length_rest] at hk
    rw [List.getElem?_dropLast, if_pos hk]
  case back.back =>
    rw [← List.tail_reverse, List.getElem?_tail]

end Side

namespace Packed

/-! ## One move backward -/

section

variable {p q b : Packed V} {u : Usage V}

/-- The size of a slice can be told from its end: it is fixed, or the trailer. -/
theorem argCountBefore?_slot (h : (p.push u).Begins q) :
    q.argCountBefore? u.kind (p.args.size + (p.slice u).length) = some (p.slice u).length := by
  cases hfixed : u.kind.fixedSize? with
  | some n =>
    have hn : (p.slice u).length = n := by cases u <;> cases hfixed <;> rfl
    rw [argCountBefore?, hfixed, hn]
  | none =>
    obtain ⟨header, trailer, hslice, -, -, htrailer⟩ := slice_eq p u
    have hlast := htrailer ((Kind.fixedSize?_eq_none_iff u.kind).mp hfixed)
    have hsize : (p.slice u).length = (header ++ u.args).length + 1 := by
      rw [hslice, hlast, List.length_append, List.length_singleton]
    have hget := getElem?_args_slot h (k := (header ++ u.args).length) (by omega)
    rw [hslice, hlast, List.getElem?_concat_length, ← Nat.add_sub_cancel (_ + _) 1, Nat.add_assoc,
      ← hsize] at hget
    rw [argCountBefore?, hfixed]
    exact guard_bind_eq_some_iff.mpr ⟨by omega, hget⟩

/-- The back end of a cursor moves over the usage that was packed last before it. -/
theorem nextBack_slot (h : (p.push u).Begins q) (hb : b.Begins p) (first last : Nat) :
    q.nextBack (cursorFrom b (p.push u) first (last + u.resultCount))
      = .item (p.slot last u) (cursorFrom b p first last) := by
  have hkind : q.kinds[p.kinds.size]? = some u.kind := kinds_eq h
  have hstep : q.stepBack? (cursorFrom b (p.push u) first (last + u.resultCount))
      = some (p.slot last u, cursorFrom b p first last) := by
    rw [cursorFrom, cursorFrom, size_kinds_push, size_args_push]
    refine guard_bind_eq_some_iff.mpr ⟨Nat.le_add_left .., Option.bind_eq_some_iff.mpr ⟨_, hkind,
      Option.bind_eq_some_iff.mpr ⟨_, argCountBefore?_slot h,
        guard_bind_eq_some_iff.mpr ⟨Nat.le_add_left .., ?_⟩⟩⟩⟩
    rw [Nat.add_sub_cancel]
    exact Option.bind_eq_some_iff.mpr ⟨_, resultCount?_slot h,
      guard_bind_eq_some_iff.mpr ⟨Nat.le_add_left .., by rw [Nat.add_sub_cancel]; rfl⟩⟩
  have hkinds := hb.kinds.length_le
  simp only [Array.length_toList] at hkinds
  have hne : b.kinds.size ≠ (p.push u).kinds.size := by
    rw [size_kinds_push]
    omega
  rw [nextBack, cursorFrom, if_neg hne, ← cursorFrom, hstep]

end

/-! ## Bounds around a run of usages -/

/-- The cursor `c` bounds a run of usages that were packed into `q` one behind the other, with
results below `limit`; `slots` are the slots of the run. -/
def Bounds (q : Packed V) (limit : Nat) (c : Cursor) (slots : List Slot) : Prop :=
  ∃ (b : Packed V) (us : List (Usage V)) (first : Nat),
    (us.foldl push b).Begins q ∧ first + Usage.resultTotal us ≤ limit ∧
      c = cursorFrom b (us.foldl push b) first (first + Usage.resultTotal us) ∧
      slots = b.slots first us

/-- What the fields of a cursor keep to: the ends have not crossed, and nothing lies outside the
columns of `q` or past the result with number `limit`. -/
structure Within (q : Packed V) (limit : Nat) (c : Cursor) : Prop where
  usage : c.frontUsage ≤ c.backUsage
  arg : c.frontArg ≤ c.backArg
  result : c.frontResult ≤ c.backResult
  kinds : c.backUsage ≤ q.kinds.size
  args : c.backArg ≤ q.args.size
  values : c.backResult ≤ limit

/-- One move of a cursor at an end. -/
def move (p : Packed V) : Side → Cursor → Move
  | .front, c => p.next c
  | .back, c => p.nextBack c

/-- What a sequence of moves answers one after the other, and the cursor behind them. There is
nothing if one of the moves is broken. -/
def moves? (p : Packed V) (c : Cursor) : List Side → Option (List (Option Slot) × Cursor)
  | [] => some ([], c)
  | side :: sides =>
    match p.move side c with
    | .item slot rest => do
      let (answers, last) ← p.moves? rest sides
      return (some slot :: answers, last)
    | .done => do
      let (answers, last) ← p.moves? c sides
      return (none :: answers, last)
    | .broken => none

namespace Bounds

variable {q : Packed V} {limit : Nat} {c : Cursor} {slots : List Slot}

theorem remaining_eq (h : q.Bounds limit c slots) : c.remaining = slots.length := by
  obtain ⟨b, us, first, -, -, rfl, rfl⟩ := h
  rw [length_slots, Cursor.remaining, cursorFrom, size_kinds_foldl, Nat.add_sub_cancel_left]

theorem within (h : q.Bounds limit c slots) : q.Within limit c := by
  obtain ⟨b, us, first, hq, hlimit, rfl, rfl⟩ := h
  have hb := begins_foldl b us
  exact
    { usage := hb.kinds.length_le
      arg := hb.args.length_le
      result := Nat.le_add_right ..
      kinds := hq.kinds.length_le
      args := hq.args.length_le
      values := hlimit }

theorem move_nil (h : q.Bounds limit c []) (side : Side) : q.move side c = .done := by
  have hremaining := h.remaining_eq
  have hle := h.within.usage
  have hmet : c.frontUsage = c.backUsage := by
    simp only [Cursor.remaining, List.length_nil] at hremaining
    omega
  cases side with
  | front => exact if_pos hmet
  | back => exact if_pos hmet

theorem next {s : Slot} (h : q.Bounds limit c (s :: slots)) :
    ∃ rest, q.next c = .item s rest ∧ q.Bounds limit rest slots := by
  obtain ⟨b, us, first, hq, hlimit, rfl, hslots⟩ := h
  cases us with
  | nil => cases hslots
  | cons u us =>
    obtain ⟨rfl, rfl⟩ := List.cons.inj hslots
    rw [Usage.resultTotal_cons, ← Nat.add_assoc] at hlimit ⊢
    exact ⟨_, next_slot (begins_foldl _ us) hq first _, _, us, _, hq, hlimit, rfl, rfl⟩

theorem nextBack {s : Slot} (h : q.Bounds limit c (slots ++ [s])) :
    ∃ rest, q.nextBack c = .item s rest ∧ q.Bounds limit rest slots := by
  obtain ⟨b, us, first, hq, hlimit, rfl, hslots⟩ := h
  rcases List.eq_nil_or_concat us with rfl | ⟨us, u, rfl⟩
  · exact absurd hslots (by simp [Packed.slots])
  · rw [List.concat_eq_append] at hq hlimit hslots ⊢
    rw [slots_append, Packed.slots, Packed.slots] at hslots
    obtain ⟨rfl, hs⟩ := List.append_inj' hslots rfl
    obtain rfl := List.singleton_inj.mp hs
    rw [List.foldl_append, List.foldl_cons, List.foldl_nil] at hq ⊢
    rw [Usage.resultTotal_append, Usage.resultTotal_cons, Usage.resultTotal_nil, Nat.add_zero,
      ← Nat.add_assoc] at hlimit ⊢
    exact ⟨_, nextBack_slot hq (begins_foldl b us) first _, b, us, first,
      (begins_push _ u).trans hq, by omega, rfl, rfl⟩

/-- A move takes the slot at its end, and bounds the others. -/
theorem move (h : q.Bounds limit c slots) {side : Side} {s : Slot}
    (hs : side.nth? slots 0 = some s) :
    ∃ rest, q.move side c = .item s rest ∧ q.Bounds limit rest (side.rest slots) := by
  cases side with
  | front =>
    cases slots with
    | nil => cases hs
    | cons s' slots =>
      obtain rfl := Option.some.inj hs
      exact h.next
  | back =>
    rcases List.eq_nil_or_concat slots with rfl | ⟨slots, s', rfl⟩
    · cases hs
    · rw [List.concat_eq_append] at h hs ⊢
      have hs' : s' = s := by simpa [Side.nth?] using hs
      subst hs'
      rw [Side.rest, List.dropLast_concat]
      exact h.nextBack

/-! ## Sequences of moves -/

/-- Any sequence of moves is answered. Each move takes the slot that its number among the moves
at its end gives, while slots are left. -/
theorem moves (h : q.Bounds limit c slots) (sides : List Side) :
    ∃ answers last left, q.moves? c sides = some (answers, last) ∧ q.Bounds limit last left ∧
      answers.length = sides.length ∧ left.length = slots.length - (answers.filterMap id).length ∧
      ∀ k side, sides[k]? = some side →
        answers[k]? = some (if k < slots.length then side.nth? slots ((sides.take k).count side)
          else none) := by
  induction sides generalizing c slots with
  | nil => exact ⟨[], c, slots, rfl, h, rfl, rfl, by simp⟩
  | cons taken sides ih =>
    by_cases hslots : slots = []
    · subst hslots
      obtain ⟨answers, last, left, hmoves, hleft, hlength, hcount, hanswers⟩ := ih h
      refine ⟨none :: answers, last, left, ?_, hleft, by rw [List.length_cons, hlength]; rfl,
        hcount, fun k side hside => ?_⟩
      · rw [moves?, h.move_nil taken]
        simp only [hmoves]
        rfl
      · cases k with
        | zero => rfl
        | succ k => exact hanswers k side hside
    · have hpos := List.length_pos_iff.mpr hslots
      obtain ⟨s, hs⟩ := taken.exists_nth? hpos
      obtain ⟨rest, hmove, hrest⟩ := h.move hs
      obtain ⟨answers, last, left, hmoves, hleft, hlength, hcount, hanswers⟩ := ih hrest
      rw [Side.length_rest] at hcount hanswers
      refine ⟨some s :: answers, last, left, ?_, hleft, by rw [List.length_cons, hlength]; rfl, ?_,
        fun k side hside => ?_⟩
      · rw [moves?, hmove]
        simp only [hmoves]
        rfl
      · show left.length = slots.length - ((answers.filterMap id).length + 1)
        omega
      · cases k with
        | zero =>
          obtain rfl := Option.some.inj hside
          rw [if_pos hpos, List.take_zero, List.count_nil, hs]
          rfl
        | succ k =>
          rw [List.getElem?_cons_succ] at hside ⊢
          rw [hanswers k side hside]
          by_cases hk : k + 1 < slots.length
          · have hearlier := side.count_take_le sides k
            rw [if_pos (by omega), if_pos hk, Side.nth?_rest taken side
              (by rw [Side.length_rest]; omega), List.take_succ_cons, List.count_cons]
            -- the move that was made counts for the moves at the same end only
            by_cases hside' : side = taken
            · rw [if_pos hside', if_pos (by simp [hside'])]
            · rw [if_neg hside', if_neg (by simp [Ne.symm hside'])]
              rfl
          · rw [if_neg (by omega), if_neg hk]

end Bounds

/-- A cursor walks in one way only. -/
theorem Walks.unique {p : Packed V} {c : Cursor} {slots slots' : List Slot} (h : p.Walks c slots)
    (h' : p.Walks c slots') : slots = slots' := by
  induction h generalizing slots' with
  | done hdone =>
    cases h' with
    | done => rfl
    | item hitem => cases hdone.symm.trans hitem
  | item hitem _ ih =>
    cases h' with
    | done hdone => cases hdone.symm.trans hitem
    | item hitem' hrest' =>
      obtain ⟨rfl, rfl⟩ := Move.item.inj (hitem.symm.trans hitem')
      rw [ih hrest']

end Packed

namespace Tape

variable [Scalar V] (t : Tape V)

theorem bounds_cursor : t.pack.Bounds t.valueCount t.cursor t.slots :=
  ⟨{}, t.usages, t.indCount, .refl t.pack, Nat.le_of_eq (resultTotal_usages t),
    by rw [resultTotal_usages]; rfl, rfl⟩

theorem length_slots : t.slots.length = t.pack.kinds.size :=
  (Packed.length_slots ..).trans ((Packed.size_kinds_foldl {} t.usages).trans (Nat.zero_add _)).symm

/-- The cursor of a tape walks from both ends in any order of moves. Going forward alone it visits
`slots`, in one way only, and there is one slot for each usage. Every sequence of moves has an
answer: no move is broken, the ends do not cross and stay inside the columns, and what remains is
what was not yet handed out. A move before all usages were handed out takes the slot whose number
from its end is that of the move among the moves there; after that, every move finds nothing. -/
theorem moves_cursor (sides : List Side) :
    (∀ slots, t.pack.Walks t.cursor slots ↔ slots = t.slots) ∧
      t.slots.length = t.pack.kinds.size ∧
      ∃ answers last, t.pack.moves? t.cursor sides = some (answers, last) ∧
        t.pack.Within t.valueCount last ∧ answers.length = sides.length ∧
        last.remaining = t.pack.kinds.size - (answers.filterMap id).length ∧
        ∀ k side, sides[k]? = some side →
          (k < t.pack.kinds.size → ∃ slot, answers[k]? = some (some slot) ∧
            side.nth? t.slots ((sides.take k).count side) = some slot) ∧
          (t.pack.kinds.size ≤ k → answers[k]? = some none) := by
  refine ⟨fun slots => ⟨fun h => h.unique t.walks_cursor, fun h => h ▸ t.walks_cursor⟩,
    t.length_slots, ?_⟩
  obtain ⟨answers, last, left, hmoves, hleft, hlength, hcount, hanswers⟩ :=
    t.bounds_cursor.moves sides
  rw [t.length_slots] at hcount hanswers
  refine ⟨answers, last, hmoves, hleft.within, hlength, hleft.remaining_eq.trans hcount,
    fun k side hside => ⟨fun hk => ?_, fun hk => ?_⟩⟩
  · have hearlier := side.count_take_le sides k
    have hlt : (sides.take k).count side < t.slots.length := by
      rw [t.length_slots]
      omega
    obtain ⟨slot, hslot⟩ := side.exists_nth? hlt
    rw [hanswers k side hside, if_pos hk, hslot]
    exact ⟨slot, rfl, rfl⟩
  · rw [hanswers k side hside, if_neg (by omega)]

end Tape

end OpTape
