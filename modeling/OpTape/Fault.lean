import OpTape.Scalar
/-
  Everything that can go wrong in recording, evaluating and transforming tapes, and the text
  of each failure.
-/
namespace OpTape

/-- Why an operation on a tape or a registry failed. -/
inductive Fault (V : Type)
  /-- An index, a vector or a count does not exist where the engine relies on it. -/
  | contract
  | applyFailed (family : Family) (id : Nat) (name reason : String)
  | dependenceFailed (family : Family) (id : Nat) (name reason : String)
  | constancyFailed (family : Family) (id : Nat) (name reason : String)
  | deletedFunction (family : Family) (id : Nat)
  | unknownFunction (family : Family) (id : Nat)
  | unknownDiscrete (id : Nat)
  /-- The dependence answer for `result` alone marks an input that the answer for all needed
  results together leaves out. -/
  | dependenceOmitted (family : Family) (id : Nat) (name : String) (result : Nat)
  | valueLength (expected actual : Nat)
  | vectorIndex (which : Nat) (index : V) (size : Nat)
  | unknownOption (name : String)
  | invalidOptionValue (name value : String)
  | registryInUse (live : Nat)
  deriving DecidableEq

namespace Fault

/-- How a message names a registered function. -/
def subject (family : Family) (id : Nat) : String := s!"{family.name} function {id}"

def message {V : Type} [Scalar V] : Fault V → String
  | contract => "contract violation"
  | applyFailed family id name reason =>
    s!"{subject family id} ({name}): forward failed: {reason}"
  | dependenceFailed family id name reason =>
    s!"{subject family id} ({name}): rev_depend failed: {reason}"
  | constancyFailed family id name reason =>
    s!"{subject family id} ({name}): for_type failed: {reason}"
  | deletedFunction family id => s!"{subject family id} has been deleted"
  | unknownFunction family id => s!"{subject family id} is not registered"
  | unknownDiscrete id => s!"discrete function {id} is not registered"
  | dependenceOmitted family id name result =>
    s!"{subject family id} ({name}): rev_depend for result {result} marks inputs " ++
      "that the combined query for the same call omits"
  | valueLength expected actual =>
    s!"value vector has length {actual}, the tape needs {expected}"
  | vectorIndex which index size =>
    s!"dynamic vector {which} has length {size}, index {Scalar.text index} is out of range"
  | unknownOption name => s!"unknown tape option \"{name}\""
  | invalidOptionValue name value =>
    s!"tape option {name} expects \"true\" or \"false\", got \"{value}\""
  | registryInUse live => s!"registry still holds {live} live function(s)"

end Fault

end OpTape
