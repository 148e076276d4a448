import OpTape.IndexSet
import OpTape.Rebuild
import OpTape.Registry
/-
  Dead code elimination. One sweep from the last usage to the first finds what can influence a
  dependent, a kept comparison or a kept print. Operands stand before their usage, so when the
  sweep reaches a usage, every reader of its results has been seen. A registered function says
  itself which of its inputs the needed results read; the others are bound to zero.
-/
namespace OpTape

/-- What the usages behind the current one need. -/
structure Live where
  values : IndexSet
  /-- The dynamic vectors that a needed load reads. -/
  vectors : IndexSet := {}

/-- Where the sweep stands on the tape: the first result of the current usage, and the number
the next vector gets. -/
structure Place where
  first : Nat
  vector : Nat
  deriving DecidableEq

namespace Place

variable {V : Type}

/-- The place behind a usage. -/
def past (p : Place) (u : Usage V) : Place :=
  { first := p.first + u.resultCount
    vector := p.vector + if u.startsVector then 1 else 0 }

end Place

namespace Live

variable {V : Type}

/-- Which of the results from `first` on are needed. -/
def pattern (live : Live) (first resultCount : Nat) : List Bool :=
  (List.range' first resultCount).map live.values.contains

/-- Needs all that a kept usage reads. -/
def keep (live : Live) (u : Usage V) : Live × Action V :=
  ({ live with values := live.values.insertAll u.reads }, .copy)

/-- Keeps a usage under a condition, else drops it. -/
def keepIf (live : Live) (u : Usage V) (needed : Bool) : Live × Action V :=
  if needed then live.keep u else (live, .drop)

/-- Holds a dependence answer for all needed results against the answers for each of them: what
a single answer marks, the common one must mark as well. Gives the first result where it does
not. -/
def unsupported (r : Registry V) (family : Family) (id callId : Nat) (needed reads : List Bool) :
    List Nat → Except (Fault V) (Option Nat)
  | [] => return none
  | j :: rest => do
    let single ← r.dependence family id callId (onlyResult needed.length j) reads.length
    if (single.toList.zip reads).any fun (one, all) => one && !all then return some j
    else unsupported r family id callId needed reads rest

/-- The inputs that the needed results of a registered function read. -/
def inputsRead (r : Registry V) (options : Options) (family : Family) (id callId : Nat)
    (needed : List Bool) (inputCount : Nat) : Except (Fault V) (List Bool) := do
  let reads ← r.dependence family id callId needed inputCount
  if options.checkDependence then
    let single := (List.range needed.length).filter (needed.getD · false)
    match ← unsupported r family id callId needed reads.toList single with
    | some result =>
      let name := ((r.entry? family id).map Entry.name).getD ""
      throw (.dependenceOmitted family id name result)
    | none => return reads.toList
  else return reads.toList

/-- Decides on one usage. A disabled comparison cannot fail and a print whose flag is the zero
value never prints, so neither is kept. -/
def visit (live : Live) (r : Registry V) (options : Options) (zeroIndex : Nat) (p : Place)
    (u : Usage V) : Except (Fault V) (Live × Action V) :=
  match u with
  | .compare cmp _ _ => return live.keepIf u (options.keepCompare && cmp != .always)
  | .print _ _ flag _ => return live.keepIf u (options.keepPrint && flag != zeroIndex)
  | .vector _ => return live.keepIf u (live.vectors.contains p.vector)
  | .store which _ _ => return live.keepIf u (live.vectors.contains which)
  | .load which _ =>
    if live.values.contains p.first then
      return { live with vectors := live.vectors.insert which }.keep u
    else return (live, .drop)
  | .foreign family id callId resultCount inputs => do
    let needed := live.pattern p.first resultCount
    if needed.any (·) then
      let reads ← inputsRead r options family id callId needed inputs.length
      let marked := (inputs.zip reads).filterMap fun (i, isRead) => if isRead then some i else none
      return ({ live with values := live.values.insertAll marked }, .rebind reads)
    else return (live, .drop)
  | u => return live.keepIf u (live.values.contains p.first)

/-- Sweeps over usages from the last to the first, starting from what is needed behind them. -/
def sweep (r : Registry V) (options : Options) (zeroIndex : Nat) (behind : Live) (p : Place) :
    List (Usage V) → Except (Fault V) (Live × List (Action V))
  | [] => return (behind, [])
  | u :: rest => do
    let (live, actions) ← sweep r options zeroIndex behind (p.past u) rest
    let (live, action) ← live.visit r options zeroIndex p u
    return (live, action :: actions)

end Live

namespace Tape

variable {V : Type}

/-- The place of the first recorded usage. -/
def firstPlace (t : Tape V) : Place := { first := t.indCount + 1, vector := 0 }

/-- What the dependents need, and the action on each usage. -/
def liveness (t : Tape V) (r : Registry V) : Except (Fault V) (Live × List (Action V)) :=
  let start : Live := { values := ({} : IndexSet).insertAll (t.zeroIndex :: t.dependents) }
  Live.sweep r t.options t.zeroIndex start t.firstPlace t.body.toList

/-- The tape without the usages that cannot affect a dependent, a kept comparison or a kept
print. -/
def dropDead (t : Tape V) (r : Registry V) : Except (Fault V) (Tape V) := do
  let (_, actions) ← t.liveness r
  t.rebuild actions

end Tape

end OpTape
