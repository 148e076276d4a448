import OpTape.Packed
import OpTape.Text
/-
  The lines of a traced evaluation. Each usage has one line: the index of its first result or
  a dash, its name, the header slots of its argument slice in brackets, the values it reads,
  and its results.
-/
namespace OpTape.Trace

open Text

variable {V : Type} [Scalar V]

def independentLine (index : Nat) (value : V) : String :=
  alignRight 5 (toString index) ++ "  " ++ Scalar.text value ++ "\n"

def independentBlock (values : List V) : String :=
  "independent vector\n" ++
    String.join (values.zipIdx.map fun (value, index) => independentLine index value)

def dependentLine (place index : Nat) (value : V) : String :=
  alignRight 5 (toString place) ++ s!"  v{index} = " ++ Scalar.text value ++ "\n"

/-- Shows the value of each dependent beside its index. -/
def dependentBlock (indices : List Nat) (values : List V) : String :=
  "dependent vector\n" ++
    String.join ((indices.zip values).zipIdx.map fun ((index, value), place) =>
      dependentLine place index value)

/-- The name of a usage in its line, which tells comparisons and functions apart. -/
def usageName : Usage V → String
  | .compare cmp _ _ => "comp_" ++ cmp.name
  | .select cmp _ _ _ _ => "cexp_" ++ cmp.name
  | .foreign family id _ _ _ => s!"{family.name}_{id}"
  | u => u.kind.name

/-- The bracketed slots of a usage whose argument slice is `slice`; none where the name says
it all. -/
def usageHeader (slice : List Nat) : Usage V → List Nat
  | .compare _ _ _ | .select _ _ _ _ _ => []
  | .foreign _ _ callId _ _ => [callId]
  | u => slice.take u.kind.headerSize

/-- The line of a usage with first result `first`, argument slice `slice` and the given
results. A constant shows its value and nothing else. -/
def usageLine (first : Nat) (slice : List Nat) (u : Usage V) (results : List V) : String :=
  let start := alignRight 5 (if u.resultCount = 0 then "-" else toString first) ++ "  "
  match u with
  | .constant value => start ++ alignLeft 8 u.kind.name ++ Scalar.text value ++ "\n"
  | _ =>
    let header := usageHeader slice u
    start ++ alignLeft 8 (usageName u) ++
      (if header.isEmpty then "" else "[" ++ spaced toString header ++ "] ") ++
      spaced toString u.args ++
      (if results.isEmpty then "" else " = " ++ spaced Scalar.text results) ++ "\n"

/-- The usages, each with the function that writes its line from its results, where `first` is
the next result and `p` holds what was packed before. -/
def annotate (first : Nat) (p : Packed V) : List (Usage V) → List (Usage V × (List V → String))
  | [] => []
  | u :: rest =>
    (u, usageLine first (p.slice u) u) :: annotate (first + u.resultCount) (p.push u) rest

end OpTape.Trace
