import OpTape.Pipeline
/-
  A tape that is driven by requests which may be wrong. Every request is checked before the
  tape sees it, and operators and comparisons are given by name. No function is registered. The
  work on a request changes the session as it goes and undoes nothing, so a request that is
  refused changes nothing only because every check stands before the first change.
-/
namespace OpTape

/-- Why a request was refused. -/
inductive Refusal (V : Type)
  | argument (index valueCount : Nat)
  | unknownComparison (name : String)
  | unknownUnary (name : String)
  | unknownBinary (name : String)
  | dependentsSet
  | fault (fault : Fault V)
  | stageFault (fault : StageFault V)

/-- What can be asked of a session. -/
inductive Request (V : Type)
  | constant (value : V)
  | unary (name : String) (x : Nat)
  | binary (name : String) (left right : Nat)
  | sum (add sub : List Nat)
  | compare (cmp : String) (left right : Nat)
  | select (cmp : String) (left right ifTrue ifFalse : Nat)
  | print (before after : String) (flag value : Nat)
  | setDependents (values : List Nat)
  | setOption (name value : String)
  | evaluate (x : List V)
  | trace (x : List V)
  | dropDead
  | mergeEqual
  | foldConstants
  | fuseSums
  | optimize

/-- The answer to a request that was granted. -/
inductive Reply (V : Type)
  | done
  | value (index : Nat)
  | dependents (values : List V)
  | report (dependents : List V) (compareFalse : Nat) (output : String)

/-- The answer to a recording. -/
def Reply.ofRecorded {V : Type} : Recorded → Reply V
  | .values first => .value first
  | .vector _ | .nothing => .done

/-- A tape together with what its last successful evaluation counted and wrote. -/
structure Session (V : Type) where
  tape : Tape V
  compareFalse : Nat := 0
  output : String := ""

namespace Refusal

def message {V : Type} [Scalar V] : Refusal V → String
  | argument index valueCount =>
    s!"Argument {index} is not a value of this tape (n_val = {valueCount})."
  | unknownComparison name => s!"Unknown comparison: {name}"
  | unknownUnary name => s!"Unknown unary operator: {name}"
  | unknownBinary name => s!"Unknown binary operator: {name}"
  | dependentsSet => "Dependent values are already set."
  | fault f => f.message
  | stageFault f => f.message

end Refusal

namespace Session

variable {V : Type}

/-- A session over an empty tape with `n` independents. -/
def new (n : Nat) : Session V := { tape := .new n {} }

/-- Work on a session. What it changed before a refusal stays changed. -/
abbrev Work (V α : Type) := ExceptT (Refusal V) (StateM (Session V)) α

def currentTape : Work V (Tape V) := return (← get).tape

def setTape (tape : Tape V) : Work V Unit := modify fun s => { s with tape }

/-- Refuses the first index that is not a value of the tape. -/
def check (indices : List Nat) : Work V Unit := do
  let t ← currentTape
  match indices.find? (t.valueCount ≤ ·) with
  | some i => throw (.argument i t.valueCount)
  | none => return

def comparison (name : String) : Work V Comparison :=
  match Comparison.ofName? name with
  | some cmp => return cmp
  | none => throw (.unknownComparison name)

/-- Records a usage whose operands were checked. -/
def record (u : Usage V) : Work V (Reply V) := do
  match (← currentTape).record? u with
  | some (offer, tape) =>
    setTape tape
    return .ofRecorded offer
  | none => throw (.fault .contract)

/-- Puts the tape that a pass made in place of the old one. -/
def replace (result : Except (Refusal V) (Tape V)) : Work V (Reply V) := do
  match result with
  | .ok tape =>
    setTape tape
    return .done
  | .error refusal => throw refusal

def setDependents (values : List Nat) : Work V (Reply V) := do
  if (← currentTape).deps.isSome then throw .dependentsSet
  check values
  match (← currentTape).setDependents? values with
  | some tape =>
    setTape tape
    return .done
  | none => throw (.fault .contract)

variable [Scalar V]

/-- Evaluates the tape at `x`, keeping the count and then the text if that succeeds. -/
def run (traced : Bool) (x : List V) : Work V (List V) := do
  let t ← currentTape
  if x.length = t.indCount then
    let e := t.evaluate .empty traced (t.initial x)
    match e.outcome with
    | .ok answer =>
      modify ({ · with compareFalse := answer.compareFalse })
      modify ({ · with output := e.out })
      return answer.dependents
    | .error f => throw (.fault f)
  else throw (.fault (.valueLength t.indCount x.length))

variable [DecidableEq V]

/-- The work on a request. -/
def work : Request V → Work V (Reply V)
  | .constant value => record (.constant value)
  | .unary name x => do
    match Kind.ofName? name with
    | some (.unary op) =>
      check [x]
      record (.unary op x)
    | _ => throw (.unknownUnary name)
  | .binary name left right => do
    match Kind.ofName? name with
    | some (.binary op) =>
      check [left, right]
      record (.binary op left right)
    | _ => throw (.unknownBinary name)
  | .sum add sub => do
    check add
    check sub
    record (.sum add sub)
  | .compare cmp left right => do
    let cmp ← comparison cmp
    check [left, right]
    record (.compare cmp left right)
  | .select cmp left right ifTrue ifFalse => do
    let cmp ← comparison cmp
    check [left, right, ifTrue, ifFalse]
    record (.select cmp left right ifTrue ifFalse)
  | .print before after flag value => do
    check [flag, value]
    record (.print before after flag value)
  | .setDependents values => setDependents values
  | .setOption name value => do
    replace (((← currentTape).setOption name value).mapError .fault)
  | .evaluate x => do
    return .dependents (← run false x)
  | .trace x => do
    let dependents ← run true x
    let s ← get
    return .report dependents s.compareFalse s.output
  | .dropDead => do replace (((← currentTape).dropDead .empty).mapError .fault)
  | .mergeEqual => do replace ((← currentTape).mergeEqual.mapError .fault)
  | .foldConstants => do replace (((← currentTape).foldConstants .empty).mapError .fault)
  | .fuseSums => do replace ((← currentTape).fuseSums.mapError .fault)
  | .optimize => do replace (((← currentTape).optimize .empty).mapError .stageFault)

/-- The answer to a request and what the session is afterwards. -/
def perform (s : Session V) (request : Request V) :
    Except (Refusal V) (Reply V) × Session V :=
  ((work request).run.run s).run

end Session

end OpTape
