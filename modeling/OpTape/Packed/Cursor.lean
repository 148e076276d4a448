import OpTape.Packed
/-
  Walking a packed tape from both ends. No offsets are stored: going forward, the size of a
  slice follows from its kind and its header; going backward, from its kind or, where sizes
  vary, from the trailer that ends it. The two ends meet when every usage was visited.
-/
namespace OpTape

/-- Where one usage stands in the columns of a packed tape. -/
structure Slot where
  position : Nat
  kind : Kind
  argIndex : Nat
  firstResult : Nat
  argCount : Nat
  resultCount : Nat
  deriving DecidableEq

/-- The part of a packed tape that is still to be visited: usages, arguments and results from
the front bounds up to the back bounds. -/
structure Cursor where
  frontUsage : Nat
  frontArg : Nat
  frontResult : Nat
  backUsage : Nat
  backArg : Nat
  backResult : Nat
  deriving DecidableEq

/-- The answer to one move of a cursor. -/
inductive Move
  | item (slot : Slot) (rest : Cursor)
  /-- Every usage was visited. -/
  | done
  /-- The columns do not hold what the move needs. -/
  | broken
  deriving DecidableEq

namespace Cursor

/-- The number of usages that are still to be visited. -/
def remaining (c : Cursor) : Nat := c.backUsage - c.frontUsage

end Cursor

namespace Packed

variable {V : Type}

/-- The size of the slice of a usage of kind `kind` that starts at `start`. -/
def argCount? (p : Packed V) (kind : Kind) (start : Nat) : Option Nat :=
  match kind with
  | .sum => do return 3 + (← p.args[start]?) + (← p.args[start + 1]?)
  | .foreign _ => p.args[start]?
  | kind => kind.fixedSize?

/-- The size of the slice of a usage of kind `kind` that ends before `stop`. -/
def argCountBefore? (p : Packed V) (kind : Kind) (stop : Nat) : Option Nat :=
  match kind.fixedSize? with
  | some n => some n
  | none => do
    guard (1 ≤ stop)
    p.args[stop - 1]?

/-- The number of results of a usage of kind `kind` whose slice starts at `start`. -/
def resultCount? (p : Packed V) (kind : Kind) (start : Nat) : Option Nat :=
  match kind with
  | .compare | .vector | .store | .print => some 0
  | .foreign _ => p.args[start + 1]?
  | _ => some 1

/-- The usage at the front, and the cursor past it. -/
def step? (p : Packed V) (c : Cursor) : Option (Slot × Cursor) := do
  let kind ← p.kinds[c.frontUsage]?
  let argCount ← p.argCount? kind c.frontArg
  let resultCount ← p.resultCount? kind c.frontArg
  guard (c.frontArg + argCount ≤ p.args.size)
  let slot :=
    { position := c.frontUsage, kind, argIndex := c.frontArg, firstResult := c.frontResult,
      argCount, resultCount }
  return (slot, { c with
    frontUsage := c.frontUsage + 1
    frontArg := c.frontArg + argCount
    frontResult := c.frontResult + resultCount })

/-- The usage at the back, and the cursor before it. -/
def stepBack? (p : Packed V) (c : Cursor) : Option (Slot × Cursor) := do
  guard (1 ≤ c.backUsage)
  let position := c.backUsage - 1
  let kind ← p.kinds[position]?
  let argCount ← p.argCountBefore? kind c.backArg
  guard (argCount ≤ c.backArg)
  let argIndex := c.backArg - argCount
  let resultCount ← p.resultCount? kind argIndex
  guard (resultCount ≤ c.backResult)
  let firstResult := c.backResult - resultCount
  let slot := { position, kind, argIndex, firstResult, argCount, resultCount }
  return (slot, { c with
    backUsage := position
    backArg := argIndex
    backResult := firstResult })

/-- Moves the front end of a cursor over one usage. -/
def next (p : Packed V) (c : Cursor) : Move :=
  if c.frontUsage = c.backUsage then .done
  else match p.step? c with
    | some (slot, rest) => .item slot rest
    | none => .broken

/-- Moves the back end of a cursor over one usage. -/
def nextBack (p : Packed V) (c : Cursor) : Move :=
  if c.frontUsage = c.backUsage then .done
  else match p.stepBack? c with
    | some (slot, rest) => .item slot rest
    | none => .broken

/-- The argument slice at a slot. -/
def slotArgs (p : Packed V) (s : Slot) : List Nat :=
  (p.args.extract s.argIndex (s.argIndex + s.argCount)).toList

/-- The value indices in the argument slice at a slot. -/
def slotValues (p : Packed V) (s : Slot) : List Nat :=
  (p.args.extract (s.argIndex + s.kind.headerSize)
    (s.argIndex + s.argCount - s.kind.trailerSize)).toList

/-- Reads the usage at a slot back from the columns. -/
def usage? (p : Packed V) (s : Slot) : Option (Usage V) :=
  match s.kind, p.slotArgs s with
  | .constant, [k] => return .constant (← p.constants[k]?)
  | .unary op, [x] => some (.unary op x)
  | .binary op, [left, right] => some (.binary op left right)
  | .discrete, [id, x] => some (.discrete id x)
  | .compare, [code, left, right] => return .compare (← Comparison.ofCode? code) left right
  | .select, [code, left, right, ifTrue, ifFalse] =>
    return .select (← Comparison.ofCode? code) left right ifTrue ifFalse
  | .sum, added :: subtracted :: rest =>
    some (.sum (rest.take added) ((rest.drop added).take subtracted))
  | .vector, [which] => return .vector (← p.vectors[which]?)
  | .load, [which, index] => some (.load which index)
  | .store, [which, index, value] => some (.store which index value)
  | .print, [before, after, flag, value] =>
    return .print (← p.strings[before]?) (← p.strings[after]?) flag value
  | .foreign family, size :: resultCount :: id :: callId :: rest =>
    some (.foreign family id callId resultCount (rest.take (size - 5)))
  | _, _ => none

end Packed

namespace Slot

/-- The indices of the values that the usage at a slot produces. -/
def results (s : Slot) : List Nat := List.range' s.firstResult s.resultCount

end Slot

namespace Tape

variable {V : Type}

/-- A cursor over all usages of a tape, to be moved on its packed form. -/
def cursor [Scalar V] (t : Tape V) : Cursor :=
  let p := t.pack
  { frontUsage := 0, frontArg := 0, frontResult := t.indCount
    backUsage := p.kinds.size, backArg := p.args.size, backResult := t.valueCount }

end Tape

end OpTape
