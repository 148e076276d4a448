import OpTape.Tape
/-
  The packed form of a tape: one array of kinds, one array that joins the argument slices of
  all usages, and side tables for constants, strings and the initial values of vectors. A
  slice is laid out as `header, value indices, trailer`; how long each part is follows from the
  kind and, for sums and registered functions, from counts inside the slice.
-/
namespace OpTape

/-- The columns of a packed tape. -/
structure Packed (V : Type) where
  kinds : Array Kind := #[]
  args : Array Nat := #[]
  constants : Array V := #[]
  /-- The texts of prints, each once, after the empty text. -/
  strings : Array String := #[""]
  vectors : Array (List Nat) := #[]

/-- The number of entries in each column of a tape. -/
structure Stats where
  inds : Nat
  values : Nat
  ops : Nat
  args : Nat
  constants : Nat
  strings : Nat
  vectors : Nat
  deps : Nat
  deriving DecidableEq

/-- The place of a text in a table: where it stands already, or next at the end. -/
def place (strings : Array String) (text : String) : Nat := strings.idxOf text

/-- The table with a text added unless it is there. -/
def intern (strings : Array String) (text : String) : Array String :=
  if text ∈ strings then strings else strings.push text

namespace Packed

variable {V : Type}

/-- The argument slice of a usage that is packed next. -/
def slice (p : Packed V) : Usage V → List Nat
  | .constant _ => [p.constants.size]
  | .unary _ x => [x]
  | .binary _ left right => [left, right]
  | .discrete id x => [id, x]
  | .compare cmp left right => [cmp.code, left, right]
  | .select cmp left right ifTrue ifFalse => [cmp.code, left, right, ifTrue, ifFalse]
  | .sum add sub =>
    [add.length, sub.length] ++ add ++ sub ++ [3 + add.length + sub.length]
  | .vector _ => [p.vectors.size]
  | .load which index => [which, index]
  | .store which index value => [which, index, value]
  | .print before after flag value =>
    [place p.strings before, place (intern p.strings before) after, flag, value]
  | .foreign _ id callId resultCount inputs =>
    [5 + inputs.length, resultCount, id, callId] ++ inputs ++ [5 + inputs.length]

/-- Packs one more usage behind the others. -/
def push (p : Packed V) (u : Usage V) : Packed V :=
  let p' := { p with kinds := p.kinds.push u.kind, args := p.args ++ p.slice u }
  match u with
  | .constant value => { p' with constants := p.constants.push value }
  | .vector initial => { p' with vectors := p.vectors.push initial }
  | .print before after _ _ =>
    { p' with strings := intern (intern p.strings before) after }
  | _ => p'

def ofUsages (usages : List (Usage V)) : Packed V := usages.foldl push {}

end Packed

namespace Tape

variable {V : Type}

/-- All usages of a tape: the zero constant, then what was recorded. -/
def usages [Scalar V] (t : Tape V) : List (Usage V) := .constant Scalar.zero :: t.body.toList

theorem usages_push [Scalar V] (t : Tape V) (u : Usage V) :
    (t.push u).usages = t.usages ++ [u] := by
  rw [usages, body_push, Array.toList_push]
  rfl

def pack [Scalar V] (t : Tape V) : Packed V := .ofUsages t.usages

def stats [Scalar V] (t : Tape V) : Stats :=
  let p := t.pack
  { inds := t.indCount
    values := t.valueCount
    ops := p.kinds.size
    args := p.args.size
    constants := p.constants.size
    strings := p.strings.size
    vectors := p.vectors.size
    deps := t.dependents.length }

/-- Two tapes agree when all their columns do, with constants compared as numbers. A tape that
holds a constant unequal to itself does not agree with itself. -/
def agrees [Scalar V] (s t : Tape V) : Bool :=
  let p := s.pack
  let q := t.pack
  s.indCount == t.indCount && s.valueCount == t.valueCount && s.options == t.options &&
    s.deps == t.deps && p.kinds == q.kinds && p.args == q.args && p.strings == q.strings &&
    p.vectors == q.vectors && p.constants.isEqv q.constants Scalar.eq

end Tape

end OpTape
