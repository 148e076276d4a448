import OpTape.Options
import OpTape.Usage
/-
  Tapes. The values of a tape are numbered: first the independents, then one value that is
  always zero, then the results of the recorded usages in order. A usage that is recorded may
  read only values that exist already, so a tape never holds a cycle.
-/
namespace OpTape

/-- A straight-line program over `V`. The usages after the zero constant stand in `body`. -/
structure Tape (V : Type) where
  indCount : Nat
  options : Options := {}
  body : Array (Usage V) := #[]
  /-- The output values, once they are set. -/
  deps : Option (List Nat) := none
  valueCount : Nat := indCount + 1
  vectorCount : Nat := 0
  valueCount_eq : valueCount = indCount + 1 + Usage.resultTotal body.toList := by rfl
  vectorCount_eq : vectorCount = body.toList.countP Usage.startsVector := by rfl

/-- What recording a usage makes available. -/
inductive Recorded
  /-- Values from index `first` on. -/
  | values (first : Nat)
  | vector (which : Nat)
  | nothing
  deriving DecidableEq

namespace Tape

variable {V : Type}

/-- A tape with `n` independents on which nothing is recorded yet. -/
def new (n : Nat) (options : Options) : Tape V := { indCount := n, options }

/-- The index of the value that is always zero. -/
def zeroIndex (t : Tape V) : Nat := t.indCount

/-- The output values; none before they are set. -/
def dependents (t : Tape V) : List Nat := t.deps.getD []

/-- Adds one usage at the end, whatever it reads. -/
def push (t : Tape V) (u : Usage V) : Tape V :=
  { t with
    body := t.body.push u
    valueCount := t.valueCount + u.resultCount
    vectorCount := t.vectorCount + if u.startsVector then 1 else 0
    valueCount_eq := by simp [t.valueCount_eq]; omega
    vectorCount_eq := by simp [t.vectorCount_eq, List.countP_cons] }

/-- Starts over with `n` independents. The options stay. -/
def restart (t : Tape V) (n : Nat) : Tape V := new n t.options

/-- The usage can be recorded next. -/
def Admits (t : Tape V) (u : Usage V) : Prop := u.Fits t.valueCount t.vectorCount

instance (t : Tape V) (u : Usage V) : Decidable (t.Admits u) :=
  inferInstanceAs (Decidable (u.Fits _ _))

/-- Adds one usage at the end if all that it reads exists. -/
def append? (t : Tape V) (u : Usage V) : Option (Tape V) :=
  if t.Admits u then some (t.push u) else none

/-- What the usage makes available when it is recorded next. -/
def offers (t : Tape V) (u : Usage V) : Recorded :=
  match u with
  | .vector _ => .vector t.vectorCount
  | .compare _ _ _ | .store _ _ _ | .print _ _ _ _ => .nothing
  | _ => .values t.valueCount

/-- Records one usage; none if it reads something that does not exist. -/
def record? (t : Tape V) (u : Usage V) : Option (Recorded × Tape V) :=
  (t.append? u).map (t.offers u, ·)

/-- Sets the output values. This is done once, and with values that exist. -/
def setDependents? (t : Tape V) (values : List Nat) : Option (Tape V) :=
  if t.deps = none ∧ ∀ i ∈ values, i < t.valueCount then some { t with deps := some values }
  else none

def setOption (t : Tape V) (name value : String) : Except (Fault V) (Tape V) := do
  return { t with options := ← t.options.set name value }

@[simp] theorem body_push (t : Tape V) (u : Usage V) : (t.push u).body = t.body.push u := rfl

@[simp] theorem valueCount_push (t : Tape V) (u : Usage V) :
    (t.push u).valueCount = t.valueCount + u.resultCount := rfl

@[simp] theorem indCount_push (t : Tape V) (u : Usage V) : (t.push u).indCount = t.indCount := rfl

@[simp] theorem options_push (t : Tape V) (u : Usage V) : (t.push u).options = t.options := rfl

@[simp] theorem deps_push (t : Tape V) (u : Usage V) : (t.push u).deps = t.deps := rfl

theorem append?_eq_some_iff {t t' : Tape V} {u : Usage V} :
    t.append? u = some t' ↔ t.Admits u ∧ t.push u = t' := by
  simp [append?]

/-- Two tapes are the same when they agree on independents, options, usages and dependents. -/
@[ext] theorem ext {s t : Tape V} (ind : s.indCount = t.indCount) (opt : s.options = t.options)
    (body : s.body = t.body) (deps : s.deps = t.deps) : s = t := by
  cases s with | mk _ _ _ _ _ _ hv hw =>
  cases t with | mk _ _ _ _ _ _ hv' hw' =>
  simp only at ind opt body deps
  subst ind opt body deps
  subst hv hw hv' hw'
  rfl

end Tape

end OpTape
