import OpTape.Registry
/-
  Changes to a registry by requests, which may be wrong. The work on a request changes the tables
  as it goes and undoes nothing: deleting takes the function out of its entry first and then finds
  out whether there was one.
-/
namespace OpTape.Registry

variable {V : Type}

/-- What can be asked of a registry that changes it. -/
inductive Change (V : Type)
  | register (family : Family) (function : Foreign V)
  | registerDiscrete (function : Discrete V)
  | delete (family : Family) (id : Nat)
  | clear

/-- The answer to a change, with the id that it hands out if it does, and the registry
afterwards. -/
def perform (r : Registry V) : Change V → Except (Fault V) (Option Nat) × Registry V
  | .register family function =>
    let (id, new) := r.register family function
    (.ok (some id), new)
  | .registerDiscrete function =>
    let (id, new) := r.registerDiscrete function
    (.ok (some id), new)
  | .delete family id =>
    match r.entry? family id with
    | none => (.error (.unknownFunction family id), r)
    | some entry =>
      let taken := r.withTable family ((r.table family).setIfInBounds id (.deleted entry.name))
      (if entry.isLive then .ok none else .error (.deletedFunction family id), taken)
  | .clear =>
    let live := r.live
    if live = 0 then (.ok none, { r with calls := #[], maps := #[] })
    else (.error (.registryInUse live), r)

end OpTape.Registry
