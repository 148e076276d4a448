import OpTape.Tape
/-
  Rebuilding a tape usage by usage. A pass decides on one action for each usage; the usages are
  then recorded afresh, on a tape with the same independents and options, while a table carries
  every old value to the new value that stands for it. Whatever a recorded usage reads goes
  through the table, so the new tape is in order when each action names earlier values only.
-/
namespace OpTape

/-- What becomes of one usage. -/
inductive Action (V : Type)
  /-- Nothing is recorded, and nothing that is kept may read the results. -/
  | drop
  | copy
  /-- A registered function whose unflagged inputs are bound to the zero value instead. -/
  | rebind (needed : List Bool)
  /-- One constant for each result. -/
  | constants (values : List V)
  /-- The usage again, and then one constant for each result that has a value, in its place. -/
  | foldResults (values : List (Option V))
  /-- The result is an earlier value. -/
  | reuse (target : Nat)
  /-- A sum of earlier values. -/
  | sum (add sub : List Nat)

/-- A tape under construction. -/
structure Rebuild (V : Type) where
  tape : Tape V
  /-- For each old value so far, the new value that stands for it, unless it was dropped. -/
  values : Array (Option Nat)
  /-- For each old vector so far, its number on the new tape, unless it was dropped. -/
  vectors : Array (Option Nat)

namespace Rebuild

variable {V : Type}

/-- No usage has been rebuilt yet: independents and zero stand for themselves. -/
def start (t : Tape V) : Rebuild V :=
  { tape := .new t.indCount t.options
    values := (Array.range (t.indCount + 1)).map some
    vectors := #[] }

/-- The new value that stands for an old one; none if there is none. -/
def value? (s : Rebuild V) (old : Nat) : Option Nat := s.values[old]?.join

def vector? (s : Rebuild V) (old : Nat) : Option Nat := s.vectors[old]?.join

/-- Enters the new values that stand for the results of the next old usage. -/
def enter (s : Rebuild V) (results : List (Option Nat)) : Rebuild V :=
  { s with values := s.values ++ results }

/-- Enters where the vector went that the next old usage starts, if it starts one. -/
def enterVector (s : Rebuild V) (u : Usage V) (which : Option Nat) : Rebuild V :=
  if u.startsVector then { s with vectors := s.vectors.push which } else s

/-- Records a usage of the new tape. -/
def append? (s : Rebuild V) (u : Usage V) : Option (Rebuild V) :=
  (s.tape.append? u).map fun tape => { s with tape }

/-- Records a constant and gives its value. -/
def constant? (s : Rebuild V) (value : V) : Option (Nat × Rebuild V) :=
  (s.append? (.constant value)).map (s.tape.valueCount, ·)

/-- Records the constants of a list in turn, passing over the places without one; `first` is
the value that stands at the first place if it has no constant. -/
def constants? (s : Rebuild V) (first : Nat) :
    List (Option V) → Option (List (Option Nat) × Rebuild V)
  | [] => some ([], s)
  | none :: rest => do
    let (indices, s) ← s.constants? (first + 1) rest
    return (some first :: indices, s)
  | some value :: rest => do
    let (index, s) ← s.constant? value
    let (indices, s) ← s.constants? (first + 1) rest
    return (some index :: indices, s)

/-- The usage as it stands on the new tape. -/
def carry? (s : Rebuild V) (u : Usage V) : Option (Usage V) := u.rename? s.value? s.vector?

/-- The input of a registered function as it stands on the new tape, if it is needed there. -/
def input? (s : Rebuild V) (needed : Bool) (old : Nat) : Option Nat :=
  if needed then s.value? old else some s.tape.zeroIndex

/-- The usage as it stands on the new tape when only the flagged inputs of a registered
function are needed. Other usages need all that they read. -/
def carryNeeded? (s : Rebuild V) (needed : List Bool) : Usage V → Option (Usage V)
  | .foreign family id callId resultCount inputs => do
    guard (needed.length = inputs.length)
    let x ← (needed.zip inputs).mapM fun (flag, i) => s.input? flag i
    return .foreign family id callId resultCount x
  | u => s.carry? u

/-- Records a usage that takes the place of the old usage `u`, result by result. -/
def replace? (s : Rebuild V) (u new : Usage V) : Option (Rebuild V) := do
  let first := s.tape.valueCount
  let s ← (s.enterVector u (some s.tape.vectorCount)).append? new
  return s.enter ((List.range' first u.resultCount).map some)

/-- Carries out one action. -/
def step? (s : Rebuild V) (u : Usage V) (action : Action V) : Option (Rebuild V) :=
  match action with
  | .drop => some ((s.enterVector u none).enter (List.replicate u.resultCount none))
  | .copy => do s.replace? u (← s.carry? u)
  | .rebind needed => do s.replace? u (← s.carryNeeded? needed u)
  | .constants values => do
    guard (values.length = u.resultCount)
    let (indices, s) ← s.constants? 0 (values.map some)
    return s.enter indices
  | .foldResults values => do
    guard (values.length = u.resultCount)
    let first := s.tape.valueCount
    let s ← s.append? (← s.carry? u)
    let (indices, s) ← s.constants? first values
    return s.enter indices
  | .reuse target => do return s.enter [some (← s.value? target)]
  | .sum add sub => do
    let first := s.tape.valueCount
    let s ← s.append? (.sum (← add.mapM s.value?) (← sub.mapM s.value?))
    return s.enter [some first]

/-- Carries out the actions of a list of usages in turn. -/
def run? (s : Rebuild V) (plan : List (Usage V × Action V)) : Option (Rebuild V) :=
  plan.foldlM (fun s (u, action) => s.step? u action) s

/-- Closes the new tape with the values that stand for the dependents. -/
def finish? (s : Rebuild V) (dependents : List Nat) : Option (Tape V) := do
  s.tape.setDependents? (← dependents.mapM s.value?)

end Rebuild

namespace Tape

variable {V : Type}

/-- The tape that one action for each recorded usage makes of a tape. -/
def rebuild (t : Tape V) (actions : List (Action V)) : Except (Fault V) (Tape V) :=
  let result := do
    guard (actions.length = t.body.size)
    let s ← (Rebuild.start t).run? (t.body.toList.zip actions)
    s.finish? t.dependents
  match result with
  | some new => .ok new
  | none => .error .contract

end Tape

end OpTape
