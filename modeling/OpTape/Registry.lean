import OpTape.Fault
/-
  The functions that user code supplies to a tape. A usage never holds a function, only its
  id: the number of registrations of its family that came before. An id is never handed out
  twice until the registry is cleared, so a deleted function keeps its place and its name.
-/
namespace OpTape

/-- Runs `f` on each index in turn, up to the first failure. -/
def collect {ε α : Type} : (n : Nat) → (Fin n → Except ε α) → Except ε (Vector α n)
  | 0, _ => .ok #v[]
  | n + 1, f => do
    let start ← collect n fun i => f i.castSucc
    let last ← f (Fin.last n)
    return start.push last

/-- The pattern of `n` results in which only result `j` is needed. -/
def onlyResult (n j : Nat) : List Bool := (List.range n).map (· == j)

/-- Constancy drawn from dependence: a result is constant when every input that the answer for
this result alone marks is constant. -/
def constancyOfDependence
    (dependence : List Bool → (inputCount : Nat) → Except String (Vector Bool inputCount))
    (constant : List Bool) (resultCount : Nat) : Except String (Vector Bool resultCount) :=
  collect resultCount fun j => do
    let reads ← dependence (onlyResult resultCount j) constant.length
    return (reads.toList.zip constant).all fun (isRead, isConstant) => !isRead || isConstant

/-- A function whose values and dependence structure come from user code. The call id lets one
function serve several configurations. A failure is a text that says why. -/
structure Foreign (V : Type) where
  name : String
  /-- The results on the given inputs. -/
  apply (callId : Nat) (inputs : List V) (resultCount : Nat) :
    Except String (Vector V resultCount)
  /-- Marks every input that can influence a needed result. -/
  dependence (callId : Nat) (needed : List Bool) (inputCount : Nat) :
    Except String (Vector Bool inputCount)
  /-- Marks the results that are constant, given which inputs are. -/
  constancy (callId : Nat) (constant : List Bool) (resultCount : Nat) :
      Except String (Vector Bool resultCount) :=
    constancyOfDependence (dependence callId) constant resultCount

/-- A piecewise constant function of one value. -/
structure Discrete (V : Type) where
  name : String
  apply : V → V

/-- One place in the table of a family. -/
inductive Entry (V : Type)
  | live (function : Foreign V)
  | deleted (name : String)

namespace Entry

variable {V : Type}

def name : Entry V → String
  | live function => function.name
  | deleted name => name

def isLive : Entry V → Bool
  | live _ => true
  | deleted _ => false

/-- How a listing of the registry shows an entry. -/
def label : Entry V → String
  | live function => function.name
  | deleted name => name ++ " (deleted)"

end Entry

/-- The tables of both families and of the discrete functions. -/
structure Registry (V : Type) where
  calls : Array (Entry V) := #[]
  maps : Array (Entry V) := #[]
  discretes : Array (Discrete V) := #[]

namespace Registry

variable {V : Type}

def empty : Registry V := {}

def table (r : Registry V) : Family → Array (Entry V)
  | .call => r.calls
  | .map => r.maps

/-- The registry with the table of one family replaced. -/
def withTable (r : Registry V) : Family → Array (Entry V) → Registry V
  | .call, entries => { r with calls := entries }
  | .map, entries => { r with maps := entries }

@[simp] theorem table_withTable_self (r : Registry V) (family : Family) (entries : Array (Entry V)) :
    (r.withTable family entries).table family = entries := by
  cases family <;> rfl

theorem table_withTable_of_ne (r : Registry V) {family other : Family} (h : other ≠ family)
    (entries : Array (Entry V)) : (r.withTable family entries).table other = r.table other := by
  cases family <;> cases other <;> first | rfl | exact absurd rfl h

@[simp] theorem discretes_withTable (r : Registry V) (family : Family)
    (entries : Array (Entry V)) : (r.withTable family entries).discretes = r.discretes := by
  cases family <;> rfl

/-- Adds a function at the end of its family's table; its place there is its id. -/
def register (r : Registry V) (family : Family) (function : Foreign V) : Nat × Registry V :=
  ((r.table family).size, r.withTable family ((r.table family).push (.live function)))

def registerDiscrete (r : Registry V) (function : Discrete V) : Nat × Registry V :=
  (r.discretes.size, { r with discretes := r.discretes.push function })

def entry? (r : Registry V) (family : Family) (id : Nat) : Option (Entry V) := (r.table family)[id]?

def get (r : Registry V) (family : Family) (id : Nat) : Except (Fault V) (Foreign V) :=
  match r.entry? family id with
  | some (.live function) => .ok function
  | some (.deleted _) => .error (.deletedFunction family id)
  | none => .error (.unknownFunction family id)

def getDiscrete (r : Registry V) (id : Nat) : Except (Fault V) (Discrete V) :=
  match r.discretes[id]? with
  | some function => .ok function
  | none => .error (.unknownDiscrete id)

/-- Gives a function up. Its id stays taken, and usages of it fail from now on. -/
def delete (r : Registry V) (family : Family) (id : Nat) : Except (Fault V) (Registry V) := do
  let function ← r.get family id
  return r.withTable family ((r.table family).setIfInBounds id (.deleted function.name))

/-- The number of functions, over both families, that have not been deleted. -/
def live (r : Registry V) : Nat := r.calls.countP Entry.isLive + r.maps.countP Entry.isLive

/-- Forgets all ids of both families, which is allowed once every function is deleted. Discrete
functions stay. -/
def clear (r : Registry V) : Except (Fault V) (Registry V) :=
  if r.live = 0 then .ok { r with calls := #[], maps := #[] }
  else .error (.registryInUse r.live)

def isEmpty (r : Registry V) : Bool :=
  r.calls.isEmpty && r.maps.isEmpty && r.discretes.isEmpty

/-- Runs a registered function on the values of its inputs. -/
def apply (r : Registry V) (family : Family) (id callId : Nat) (inputs : List V)
    (resultCount : Nat) : Except (Fault V) (Vector V resultCount) := do
  let function ← r.get family id
  (function.apply callId inputs resultCount).mapError
    (.applyFailed family id function.name)

/-- Asks a registered function which inputs the needed results read. -/
def dependence (r : Registry V) (family : Family) (id callId : Nat) (needed : List Bool)
    (inputCount : Nat) : Except (Fault V) (Vector Bool inputCount) := do
  let function ← r.get family id
  (function.dependence callId needed inputCount).mapError
    (.dependenceFailed family id function.name)

/-- Asks a registered function which results are constant. -/
def constancy (r : Registry V) (family : Family) (id callId : Nat) (constant : List Bool)
    (resultCount : Nat) : Except (Fault V) (Vector Bool resultCount) := do
  let function ← r.get family id
  (function.constancy callId constant resultCount).mapError
    (.constancyFailed family id function.name)

end Registry

end OpTape
