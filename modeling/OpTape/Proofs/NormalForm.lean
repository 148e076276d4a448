import OpTape.Proofs.Footprints
import OpTape.Proofs.Recording
import OpTape.Proofs.Repetition
/-
  Rebuilding with nothing to change. Columns are in normal form (`Packed.Normal`) when the usages
  name all entries of a side table, in the order of first use. Recording leaves no other columns,
  since an entry is added just where a usage needs it (`WellFormed.normal`). So what is read off
  the columns and recorded again makes the same columns (`Packed.copied?_slots`), and a tape on
  which each usage is copied comes back as it was, with all its numbers.
-/
namespace OpTape

variable {V : Type}

/-! ## Numbering by first use -/

/-- A text that is interned gets the number that comes next, unless it was numbered before. -/
theorem eraseDups_append_place {numbers : List Nat} {strings : Array String}
    (h : numbers.eraseDups = List.range strings.size) (text : String) :
    (numbers ++ [place strings text]).eraseDups = List.range (intern strings text).size := by
  rw [List.eraseDups_append, h]
  unfold place intern
  split
  · rename_i hmem
    have hold : strings.idxOf text ∈ numbers := by
      rw [← List.mem_eraseDups, h]
      exact List.mem_range.mpr (Array.idxOf_lt_size_iff.mpr hmem)
    simp [List.removeAll, hold]
  · rename_i hnew
    have hnext : strings.size ∉ numbers := by
      rw [← List.mem_eraseDups, h]
      exact List.not_mem_range_self
    simp [Array.idxOf_eq_size hnew, List.removeAll, hnext, List.range_succ, List.eraseDups_cons]

namespace Packed

/-- The numbers with which the slices of one kind start. Those of constants, vectors and prints
are places in a side table. -/
def numbers (p : Packed V) (kind : Kind) (slots : List Slot) : List Nat :=
  (slots.filter (·.kind = kind)).flatMap fun s => (p.slotArgs s).take kind.headerSize

/-- The columns hold what stands at the slots and nothing else. Every entry of a side table is
used, and the entries stand in the order of their first use. -/
structure Normal (p : Packed V) (slots : List Slot) : Prop where
  kinds : p.kinds.toList = slots.map Slot.kind
  args : p.args.toList = slots.flatMap p.slotArgs
  /-- Each constant is used once. -/
  constants : p.numbers .constant slots = List.range p.constants.size
  /-- Each vector is started once. -/
  vectors : p.numbers .vector slots = List.range p.vectors.size
  /-- The empty text comes first, whether it is printed or not. -/
  strings : (0 :: p.numbers .print slots).eraseDups = List.range p.strings.size
  empty : p.strings[0]? = some ""
  distinct : p.strings.toList.Nodup

/-- The columns of what is read at the slots, when it is recorded again. -/
def copied? (p : Packed V) (slots : List Slot) : Option (Packed V) :=
  (slots.mapM p.usage?).map ofUsages

theorem numbers_cons (p : Packed V) (kind : Kind) (s : Slot) (slots : List Slot) :
    p.numbers kind (s :: slots)
      = (if s.kind = kind then (p.slotArgs s).take kind.headerSize else [])
        ++ p.numbers kind slots := by
  by_cases h : s.kind = kind <;> simp [numbers, h]

/-- Where each slice is one number, these are the numbers. -/
theorem numbers_of_single {p : Packed V} {kind : Kind} {slots : List Slot} {ns : List Nat}
    (h : (slots.filter (·.kind = kind)).map p.slotArgs = ns.map ([·]))
    (hsize : kind.headerSize = 1) : p.numbers kind slots = ns := by
  have hflat := congrArg (List.flatMap (List.take 1)) h
  rw [List.flatMap_map, List.flatMap_map] at hflat
  rw [numbers, hsize, hflat]
  exact List.flatMap_singleton' ns

theorem kinds_foldl (p : Packed V) (us : List (Usage V)) :
    (us.foldl push p).kinds.toList = p.kinds.toList ++ us.map Usage.kind := by
  induction us generalizing p with
  | nil => simp
  | cons u us ih => rw [List.foldl_cons, ih, kinds_push, List.append_assoc]; rfl

theorem strings_foldl (p : Packed V) (us : List (Usage V)) :
    (us.foldl push p).strings = (us.flatMap Usage.texts).foldl intern p.strings := by
  induction us generalizing p with
  | nil => rfl
  | cons u us ih =>
    rw [List.foldl_cons, ih, List.flatMap_cons, List.foldl_append]
    cases u <;> rfl

/-- The prints number the texts by first use, whatever was numbered before them. -/
theorem eraseDups_numbers_print (p : Packed V) (us : List (Usage V)) {q : Packed V}
    (hq : (us.foldl push p).Begins q) (first : Nat) (before : List Nat)
    (h : before.eraseDups = List.range p.strings.size) :
    (before ++ q.numbers .print (p.slots first us)).eraseDups
      = List.range (us.foldl push p).strings.size := by
  induction us generalizing p first before with
  | nil => simpa [slots, numbers] using h
  | cons u us ih =>
    have hbegins : (p.push u).Begins q := (begins_foldl _ us).trans hq
    have hslice : q.slotArgs (p.slot first u) = p.slice u := slotArgs_slot hbegins first
    rw [slots, numbers_cons, hslice, ← List.append_assoc, List.foldl_cons]
    refine ih (p.push u) hq (first + u.resultCount) _ ?_
    cases u with
    | print text after flag value =>
      have htext := eraseDups_append_place h text
      have hafter := eraseDups_append_place htext after
      rwa [List.append_assoc] at hafter
    | _ => exact (List.append_nil before).symm ▸ h

/-- What is packed is read back, usage by usage. -/
theorem mapM_usage?_slots (p : Packed V) (us : List (Usage V)) {q : Packed V}
    (hq : (us.foldl push p).Begins q) (first : Nat) :
    (p.slots first us).mapM q.usage? = some us := by
  induction us generalizing p first with
  | nil => rfl
  | cons u us ih =>
    have hbegins : (p.push u).Begins q := (begins_foldl _ us).trans hq
    rw [slots, List.mapM_cons, usage?_slot hbegins, ih (p.push u) hq]
    rfl

/-- What is read off packed usages and packed again makes the same columns. -/
theorem copied?_slots (us : List (Usage V)) (first : Nat) :
    (ofUsages us).copied? (slots {} first us) = some (ofUsages us) := by
  exact congrArg (Option.map ofUsages) (mapM_usage?_slots {} us (.refl _) first)

/-- Other columns may come back changed: a text that no usage prints is gone. -/
example : copied? { ofUsages [Usage.constant (0 : Rat)] with strings := #["", "unused"] }
    (slots {} 1 [Usage.constant (0 : Rat)]) = some (ofUsages [.constant 0]) := rfl

end Packed

namespace Tape

variable [Scalar V] {t : Tape V}

/-- The columns of a tape are in normal form at the slots of its usages. -/
theorem WellFormed.normal (ht : t.WellFormed) : t.pack.Normal t.slots where
  kinds := by
    rw [slots, Packed.map_kind_slots]
    exact Packed.kinds_foldl {} t.usages
  args := ht.represented.args
  constants := Packed.numbers_of_single ht.represented.constants rfl
  vectors := Packed.numbers_of_single ht.represented.vectors rfl
  strings := Packed.eraseDups_numbers_print {} t.usages (.refl _) t.indCount [0] rfl
  empty := ht.represented.strings.1
  distinct := ht.represented.strings.2

omit [Scalar V] in
theorem forall₂_copies (zeroIndex : Nat) (us : List (Usage V)) :
    List.Forall₂ (fun u action => Usage.Kept zeroIndex some some u action u) us
      (List.replicate us.length .copy) := by
  rw [← List.map_const', List.forall₂_map_right_iff, List.forall₂_same]
  exact fun u _ => .copy (.refl u)

/-- A tape on which each usage is copied comes back as it was, and every value and vector keeps
its number. The columns are the same as well, for they were in normal form: the texts are those
that the prints intern in turn, and what a walk reads off makes these columns again. -/
theorem rebuild_copies [DecidableEq V] (ht : t.Reachable) {ds : List Nat}
    (hdeps : t.deps = some ds) :
    t.rebuild (List.replicate t.body.size .copy) = .ok t ∧
      (∃ b, (Rebuild.start t).run? (t.body.toList.zip (List.replicate t.body.size .copy)) = some b ∧
        (∀ i < t.valueCount, b.value? i = some i) ∧
        ∀ w < t.vectorCount, b.vector? w = some w) ∧
      t.pack.Walks t.cursor t.slots ∧ t.pack.copied? t.slots = some t.pack ∧
      t.pack.Normal t.slots ∧
      t.pack.strings = (t.usages.flatMap Usage.texts).foldl intern #[""] := by
  have hwell := ht.wellFormed
  have hkept := forall₂_copies t.zeroIndex t.body.toList
  rw [Array.length_toList] at hkept
  refine ⟨hwell.rebuild_of_kept hdeps hkept, ⟨_, hwell.run?_of_kept hkept, ?_, ?_⟩,
    walks_cursor t, Packed.copied?_slots t.usages t.indCount, hwell.normal,
    Packed.strings_foldl {} t.usages⟩
  · exact fun i => Rebuild.value?_unchanged _
  · exact fun w => Rebuild.vector?_unchanged _

/-- Constants that are equal but not the same, or not equal to themselves, and texts that are
printed again. -/
def printedAgain : Tape Float :=
  let constants := ((new 1 {}).push (.constant (.ofBits 0x8000000000000000))).push
    (.constant (.ofBits 0x7ff8000000000000))
  let read := ((constants.push (.vector [3, 0])).push (.store 0 1 2)).push (.load 0 1)
  { (read.push (.print "at " "" 0 4)).push (.print "; " "at " 0 3) with deps := some [4, 0] }

theorem rebuild_copies_printedAgain : printedAgain.Reachable ∧
    printedAgain.agrees printedAgain = false ∧
    printedAgain.pack.args = #[0, 1, 2, 0, 0, 1, 2, 0, 1, 1, 0, 0, 4, 2, 1, 0, 3] ∧
    printedAgain.pack.strings = #["", "at ", "; "] ∧
    printedAgain.rebuild (List.replicate 7 .copy) = .ok printedAgain ∧
    printedAgain.pack.Normal printedAgain.slots := by
  have hreachable : printedAgain.Reachable :=
    (((((((Reachable.new 1 {}).push (by decide)).push (by decide)).push (by decide)).push
      (by decide)).push (by decide)).push (by decide)).push (by decide)
      |>.withDependents rfl (by decide)
  obtain ⟨hrebuild, -, -, -, hnormal, -⟩ := rebuild_copies hreachable rfl
  exact ⟨hreachable, by decide +kernel, by decide +kernel, by decide +kernel, hrebuild, hnormal⟩

end Tape

end OpTape
