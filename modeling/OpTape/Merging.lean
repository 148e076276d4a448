import OpTape.Tape
/-
  Merging equal usages. Two usages are equal when they do the same to the same values, where
  values that were found equal before count as one. Every usage stays on the tape; what reads
  a later copy reads the first one instead.
-/
namespace OpTape

namespace Usage

variable {V : Type}

/-- Usages with results that depend on their operands alone. A load also depends on what its
vector holds by then. -/
def isMergeable : Usage V → Bool
  | load _ _ => false
  | u => u.resultCount != 0

/-- The form under which usages are compared: the operands of a commutative operator stand in
ascending order. No other operands are moved, since the order of three or more addends can
show in a rounded sum. -/
def ordered : Usage V → Usage V
  | binary op left right =>
    if op.isCommutative && right < left then binary op right left else binary op left right
  | u => u

end Usage

/-- The state of the walk that merges. -/
structure Merge (V : Type) where
  /-- The usages so far, reading merged values. -/
  tape : Tape V
  /-- For each value so far, the first value that is equal to it. -/
  equal : Array Nat
  /-- The first result of each usage that was not equal to an earlier one. -/
  seen : List (Usage V × Nat)

namespace Merge

variable {V : Type}

/-- Nothing was recorded yet: independents and zero are equal to themselves only. -/
def start [Scalar V] (t : Tape V) : Merge V :=
  { tape := .new t.indCount t.options
    equal := Array.range (t.indCount + 1)
    seen := [(.constant Scalar.zero, t.zeroIndex)] }

/-- The first value that is equal to value `i`. -/
def value? (m : Merge V) (i : Nat) : Option Nat := m.equal[i]?

variable [DecidableEq V]

/-- The first result of the earlier usage that `u` is equal to, or of `u` itself; `u` stands
with its operands merged. -/
def source (m : Merge V) (u : Usage V) : Nat :=
  if u.isMergeable then (m.seen.lookup u.ordered).getD m.tape.valueCount
  else m.tape.valueCount

def step? (m : Merge V) (u : Usage V) : Option (Merge V) := do
  let u ← u.rename? m.value? some
  let first := m.source u
  let isNew := u.isMergeable && first == m.tape.valueCount
  return {
    tape := m.tape.push u
    equal := m.equal ++ List.range' first u.resultCount
    seen := if isNew then (u.ordered, first) :: m.seen else m.seen }

end Merge

namespace Tape

variable {V : Type} [Scalar V] [DecidableEq V]

/-- The tape whose operands and dependents are the first of their equals. Constants are equal
only when they are identical. -/
def mergeEqual (t : Tape V) : Except (Fault V) (Tape V) :=
  let result := do
    let m ← t.body.toList.foldlM Merge.step? (Merge.start t)
    return { m.tape with deps := ← t.deps.mapM fun values => values.mapM m.value? }
  match result with
  | some new => .ok new
  | none => .error .contract

end Tape

end OpTape
