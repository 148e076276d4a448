import OpTape.Registry
import OpTape.Trace
/-
  Evaluating a tape. Values are computed in recording order and appended to a growing list, so
  a usage sees exactly the values before its first result. What one usage does is first read
  off as an effect and then applied to the state.
-/
namespace OpTape

/-- What evaluating one usage does. -/
inductive Effect (V : Type)
  /-- New values at the end of the list. -/
  | results (values : List V)
  | compared (held : Bool)
  /-- A dynamic vector starts with the given cells. -/
  | started (cells : Array V)
  /-- The cells of vector `which` are from now on the given ones. -/
  | stored (which : Nat) (cells : Array V)
  | printed (text : String)

/-- How far an evaluation has come. -/
structure State (V : Type) where
  values : Array V
  vectors : Array (Array V) := #[]
  /-- The number of comparisons that did not hold. -/
  compareFalse : Nat := 0
  out : String := ""

/-- Why an evaluation stopped, and in which state. -/
structure Halt (V : Type) where
  fault : Fault V
  state : State V

/-- What a successful evaluation answers. -/
structure Answer (V : Type) where
  dependents : List V
  compareFalse : Nat

/-- All that an evaluation leaves behind, successful or not. -/
structure Evaluation (V : Type) where
  outcome : Except (Fault V) (Answer V)
  values : Array V
  out : String

/-- The entry of a table that the engine relies on. -/
def entry {V α : Type} (table : Array α) (i : Nat) : Except (Fault V) α :=
  match table[i]? with
  | some a => .ok a
  | none => .error .contract

/-- The cell that an index value names in vector `which` of the given size; no cell for an
index that is not finite. -/
def locate {V : Type} [Scalar V] (which : Nat) (index : V) (size : Nat) :
    Except (Fault V) (Option (Fin size)) :=
  match Scalar.subscript index with
  | .undefined => .ok none
  | .outside => .error (.vectorIndex which index size)
  | .cell n => if h : n < size then .ok (some ⟨n, h⟩) else .error (.vectorIndex which index size)

namespace Usage

variable {V : Type} [Scalar V]

/-- The sum of some operands less that of others, from zero and in order. -/
def total (value : Nat → Except (Fault V) V) (add sub : List Nat) : Except (Fault V) V := do
  let sum ← add.foldlM (fun s i => return Scalar.binary .add s (← value i)) Scalar.zero
  sub.foldlM (fun s i => return Scalar.binary .sub s (← value i)) sum

/-- The results of a usage that only computes, from the values of its operands. Usages that
compare, print or work on vectors compute nothing. -/
def compute (r : Registry V) (value : Nat → Except (Fault V) V) :
    Usage V → Except (Fault V) (List V)
  | constant v => return [v]
  | unary op x => return [Scalar.unary op (← value x)]
  | binary op left right => return [Scalar.binary op (← value left) (← value right)]
  | discrete id x => do
    let function ← r.getDiscrete id
    return [function.apply (← value x)]
  | select cmp left right ifTrue ifFalse => do
    let held := cmp.holds (← value left) (← value right)
    return [← value (if held then ifTrue else ifFalse)]
  | sum add sub => return [← total value add sub]
  | foreign family id callId resultCount inputs => do
    let x ← inputs.mapM value
    return (← r.apply family id callId x resultCount).toList
  | _ => return []

/-- What a usage does, given the values and the vectors so far. -/
def effect (r : Registry V) (values : Array V) (vectors : Array (Array V)) (u : Usage V) :
    Except (Fault V) (Effect V) :=
  match u with
  | compare cmp left right =>
    return .compared (cmp.holds (← entry values left) (← entry values right))
  | vector initial => return .started (← initial.mapM (entry values)).toArray
  | load which index => do
    let cells ← entry vectors which
    match ← locate which (← entry values index) cells.size with
    | some k => return .results [cells[k]]
    | none => return .results [Scalar.nan]
  | store which index value => do
    let cells ← entry vectors which
    let x ← entry values value
    match ← locate which (← entry values index) cells.size with
    | some k => return .stored which (cells.set k x)
    | none => return .stored which (.replicate cells.size Scalar.nan)
  | print before after flag value => do
    let x ← entry values value
    if Scalar.lt Scalar.zero (← entry values flag) then
      return .printed (before ++ Scalar.text x ++ after)
    else
      return .printed ""
  | u => return .results (← u.compute r (entry values))

end Usage

namespace Effect

variable {V : Type}

/-- The values an effect appends. -/
def appended : Effect V → List V
  | results values => values
  | _ => []

end Effect

namespace State

variable {V : Type} [Scalar V]

def apply (s : State V) : Effect V → State V
  | .results values => { s with values := s.values ++ values }
  | .compared held => { s with compareFalse := s.compareFalse + if held then 0 else 1 }
  | .started cells => { s with vectors := s.vectors.push cells }
  | .stored which cells => { s with vectors := s.vectors.setIfInBounds which cells }
  | .printed text => { s with out := s.out ++ text }

def write (s : State V) (text : String) : State V := { s with out := s.out ++ text }

/-- The state in which a failing usage leaves an evaluation. The results of a registered
function are undefined by then; any other usage has not touched anything. -/
def spoil (s : State V) : Usage V → State V
  | .foreign _ _ _ resultCount _ =>
    { s with values := s.values ++ List.replicate resultCount (Scalar.nan : V) }
  | _ => s

/-- Evaluates one usage and then writes the note on its results. -/
def step (r : Registry V) (s : State V) (u : Usage V) (note : List V → String) :
    Except (Halt V) (State V) :=
  match u.effect r s.values s.vectors with
  | .ok e => .ok ((s.apply e).write (note e.appended))
  | .error fault => .error ⟨fault, s.spoil u⟩

/-- Evaluates usages in order, up to the first failure. -/
def run (r : Registry V) (s : State V) :
    List (Usage V × (List V → String)) → Except (Halt V) (State V)
  | [] => .ok s
  | (u, note) :: rest => do (← s.step r u note).run r rest

end State

namespace Tape

variable {V : Type} [Scalar V]

/-- The usages of a tape, each with the note that follows it: its line in a traced evaluation,
else nothing. -/
def noted (t : Tape V) (traced : Bool) : List (Usage V × (List V → String)) :=
  if traced then Trace.annotate t.indCount {} t.usages
  else t.usages.map fun u => (u, fun _ => "")

/-- Evaluates a tape. The first entries of `initial` are the values of the independents; the
other entries are replaced, but an evaluation that fails leaves those it did not reach. -/
def evaluate (t : Tape V) (r : Registry V) (traced : Bool) (initial : Array V) : Evaluation V :=
  if initial.size = t.valueCount then
    let independents := initial.extract 0 t.indCount
    let start : State V :=
      { values := independents
        out := if traced then Trace.independentBlock independents.toList else "" }
    match start.run r (t.noted traced) with
    | .error halt =>
      { outcome := .error halt.fault
        values := halt.state.values ++ initial.extract halt.state.values.size initial.size
        out := halt.state.out }
    | .ok s =>
      match t.dependents.mapM (entry s.values) with
      | .error fault => { outcome := .error fault, values := s.values, out := s.out }
      | .ok dependents =>
        { outcome := .ok { dependents, compareFalse := s.compareFalse }
          values := s.values
          out := s.out ++ if traced then Trace.dependentBlock t.dependents dependents else "" }
  else
    { outcome := .error (.valueLength t.valueCount initial.size), values := initial, out := "" }

/-- The values an evaluation at `x` starts from: all but the independents are undefined. -/
def initial (t : Tape V) (x : List V) : Array V :=
  (x ++ List.replicate (t.valueCount - t.indCount) Scalar.nan).toArray

/-- The values of the dependents at `x`. -/
def outputsAt (t : Tape V) (r : Registry V) (x : List V) : Except (Fault V) (List V) :=
  if x.length = t.indCount then do
    return (← (t.evaluate r false (t.initial x)).outcome).dependents
  else
    .error (.valueLength t.indCount x.length)

end Tape

end OpTape
