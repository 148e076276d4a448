import OpTape.Evaluation
import OpTape.Rebuild
/-
  Constant folding. One walk over the tape knows the values that depend on constants alone.
  Such a usage is evaluated once and becomes constants; a select between known values becomes
  its branch; a comparison between known values that holds disappears. A registered function
  says itself which of its results are constant.
-/
namespace OpTape

/-- For each value so far, what it is if that depends on constants alone. -/
abbrev Known (V : Type) := Array (Option V)

namespace Known

variable {V : Type} [Scalar V]

def value? (known : Known V) (i : Nat) : Option V := known[i]?.join

def isKnown (known : Known V) (i : Nat) : Bool := (known.value? i).isSome

/-- The operands as folding evaluates them: an unknown value is undefined. -/
def operand (known : Known V) (i : Nat) : Except (Fault V) V := do
  return (← entry known i).getD Scalar.nan

/-- The values of the results that are constant. -/
def restrict (constant : List Bool) (values : List V) : List (Option V) :=
  (constant.zip values).map fun (isConstant, v) => if isConstant then some v else none

/-- The usage stays, and nothing is known of its results. -/
def untouched (u : Usage V) : List (Option V) × Action V :=
  (List.replicate u.resultCount none, .copy)

/-- What is known of the results of a usage, and what becomes of it. -/
def visit (r : Registry V) (known : Known V) (u : Usage V) :
    Except (Fault V) (List (Option V) × Action V) :=
  match u with
  | .constant v => return ([some v], .copy)
  | .compare cmp left right =>
    match known.value? left, known.value? right with
    | some a, some b => return ([], if cmp.holds a b then .drop else .copy)
    | _, _ => return untouched u
  | .select cmp left right ifTrue ifFalse =>
    match known.value? left, known.value? right with
    | some a, some b =>
      let branch := if cmp.holds a b then ifTrue else ifFalse
      return ([known.value? branch], .reuse branch)
    | _, _ => return untouched u
  | .print _ _ _ _ | .vector _ | .load _ _ | .store _ _ _ => return untouched u
  | .foreign family id callId resultCount inputs => do
    let constant ← r.constancy family id callId (inputs.map known.isKnown) resultCount
    if constant.toList.any (·) then
      let results ← u.compute r known.operand
      let values := restrict constant.toList results
      if constant.toList.all (·) then return (values, .constants results)
      else return (values, .foldResults values)
    else return untouched u
  | u => do
    if u.args.all known.isKnown then
      let results ← u.compute r known.operand
      return (results.map some, .constants results)
    else return untouched u

/-- Decides on usages in order, from what is known before them. -/
def walk (r : Registry V) (known : Known V) :
    List (Usage V) → Except (Fault V) (List (Action V))
  | [] => return []
  | u :: rest => do
    let (results, action) ← known.visit r u
    let actions ← walk r (known ++ results) rest
    return action :: actions

end Known

namespace Tape

variable {V : Type} [Scalar V]

/-- What is known before anything was recorded: the zero value and no independent. -/
def firstKnown (t : Tape V) : Known V :=
  (Array.replicate t.indCount none).push (some Scalar.zero)

/-- The tape in which every value that depends on constants alone is a constant. What such
values were computed from stays, until dead code elimination. -/
def foldConstants (t : Tape V) (r : Registry V) : Except (Fault V) (Tape V) := do
  t.rebuild (← Known.walk r t.firstKnown t.body.toList)

end Tape

end OpTape
