import OpTape.Evaluation
/-
  Evaluating a tape in place. All values stand in one array from the start, with whatever the
  caller left in it; a usage reads its operands there and overwrites its results. Nothing in the
  walk itself keeps a usage from reading an entry that was not written yet.
-/
namespace OpTape

/-- Overwrites the entries from index `first` on. -/
def overwrite {V : Type} (values : Array V) (first : Nat) : List V → Array V
  | [] => values
  | v :: rest => overwrite (values.setIfInBounds first v) (first + 1) rest

namespace State

variable {V : Type} [Scalar V]

/-- Applies the effect of a usage whose results stand from index `first` on. -/
def applyAt (s : State V) (first : Nat) : Effect V → State V
  | .results values => { s with values := overwrite s.values first values }
  | e => s.apply e

/-- The state in which a failing usage leaves an evaluation in place. -/
def spoilAt (s : State V) (first : Nat) : Usage V → State V
  | .foreign _ _ _ resultCount _ =>
    { s with values := overwrite s.values first (List.replicate resultCount Scalar.nan) }
  | _ => s

/-- Evaluates one usage and then writes the note on the entries of its results. -/
def stepAt (r : Registry V) (s : State V) (first : Nat) (u : Usage V) (note : List V → String) :
    Except (Halt V) (State V) :=
  match u.effect r s.values s.vectors with
  | .ok e =>
    let s' := s.applyAt first e
    .ok (s'.write (note (s'.values.extract first (first + u.resultCount)).toList))
  | .error fault => .error ⟨fault, s.spoilAt first u⟩

/-- Evaluates usages in order, the first with results from index `first` on. -/
def runAt (r : Registry V) (s : State V) (first : Nat) :
    List (Usage V × (List V → String)) → Except (Halt V) (State V)
  | [] => .ok s
  | (u, note) :: rest => do (← s.stepAt r first u note).runAt r (first + u.resultCount) rest

end State

namespace Tape

variable {V : Type} [Scalar V]

/-- What an evaluation writes before its first usage. -/
def heading (t : Tape V) (traced : Bool) (initial : Array V) : String :=
  if traced then Trace.independentBlock (initial.extract 0 t.indCount).toList else ""

/-- Evaluates a tape in the array that it is given. -/
def evaluateInPlace (t : Tape V) (r : Registry V) (traced : Bool) (initial : Array V) :
    Evaluation V :=
  if initial.size = t.valueCount then
    let start : State V := { values := initial, out := t.heading traced initial }
    match start.runAt r t.indCount (t.noted traced) with
    | .error halt =>
      { outcome := .error halt.fault, values := halt.state.values, out := halt.state.out }
    | .ok s =>
      match t.dependents.mapM (entry s.values) with
      | .error fault => { outcome := .error fault, values := s.values, out := s.out }
      | .ok dependents =>
        { outcome := .ok { dependents, compareFalse := s.compareFalse }
          values := s.values
          out := s.out ++ if traced then Trace.dependentBlock t.dependents dependents else "" }
  else
    { outcome := .error (.valueLength t.valueCount initial.size), values := initial, out := "" }

end Tape

end OpTape
