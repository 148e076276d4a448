import OpTape.Rebuild
import OpTape.Tally
/-
  Fusing chains of additions. A sum, difference, negation or cumulative sum whose result is
  read exactly once, by another of them, is absorbed by that reader, which becomes one
  cumulative sum. Sums are reassociated, so results may differ in the last digits where the
  arithmetic is rounded.
-/
namespace OpTape

/-- A sum of values less a sum of values. -/
structure Terms where
  add : List Nat := []
  sub : List Nat := []
  deriving DecidableEq

namespace Terms

def negate (t : Terms) : Terms := ⟨t.sub, t.add⟩

def append (s t : Terms) : Terms := ⟨s.add ++ t.add, s.sub ++ t.sub⟩

/-- The operands of a usage that adds. -/
def ofUsage? {V : Type} : Usage V → Option Terms
  | .binary .add left right => some ⟨[left, right], []⟩
  | .binary .sub left right => some ⟨[left], [right]⟩
  | .unary .neg x => some ⟨[], [x]⟩
  | .sum add sub => some ⟨add, sub⟩
  | _ => none

end Terms

/-- How often the values of a tape are read, in all and by usages that add. -/
structure Readers where
  all : Tally
  additive : Tally

namespace Readers

variable {V : Type}

/-- The one reader of the value is a usage that adds. -/
def absorbs (readers : Readers) (i : Nat) : Bool :=
  readers.all.count i == 1 && readers.additive.count i == 1

def ofTape (t : Tape V) : Readers :=
  let usages := t.body.toList
  let additive := usages.filter fun u => (Terms.ofUsage? u).isSome
  { all := .ofList t.valueCount (usages.flatMap Usage.reads ++ t.dependents)
    additive := .ofList t.valueCount (additive.flatMap Usage.args) }

end Readers

/-- The terms of the sums that were taken off the tape and wait for their reader, by value. -/
abbrev Pending := Array (Option Terms)

namespace Pending

/-- Operands gathered for one usage. -/
structure Gathered where
  pending : Pending
  terms : Terms := {}
  /-- Some operand was a pending sum. -/
  absorbed : Bool := false

namespace Gathered

/-- Adds a sum of values, each replaced by its terms if it is pending. The terms of a value that
is subtracted change sides. -/
def gather (negated : Bool) (g : Gathered) (i : Nat) : Gathered :=
  let sided (t : Terms) : Terms := if negated then t.negate else t
  match g.pending[i]?.join with
  | some inner =>
    { pending := g.pending.setIfInBounds i none
      terms := g.terms.append (sided inner)
      absorbed := true }
  | none => { g with terms := g.terms.append (sided ⟨[i], []⟩) }

end Gathered

def gatherAll (pending : Pending) (terms : Terms) : Gathered :=
  terms.sub.foldl (Gathered.gather true)
    (terms.add.foldl (Gathered.gather false) { pending })

variable {V : Type}

/-- Decides on one usage; its first result is the next value. -/
def visit (readers : Readers) (pending : Pending) (u : Usage V) : Pending × Action V :=
  match Terms.ofUsage? u with
  | none => (pending ++ List.replicate u.resultCount (none : Option Terms), .copy)
  | some terms =>
    let g := gatherAll pending terms
    if readers.absorbs pending.size then (g.pending.push (some g.terms), .drop)
    else (g.pending.push none, if g.absorbed then .sum g.terms.add g.terms.sub else .copy)

/-- Decides on usages in order. -/
def walk (readers : Readers) (pending : Pending) : List (Usage V) → List (Action V)
  | [] => []
  | u :: rest =>
    let (pending, action) := pending.visit readers u
    action :: walk readers pending rest

end Pending

namespace Tape

variable {V : Type}

/-- The tape with every chain of additions fused into one cumulative sum. -/
def fuseSums (t : Tape V) : Except (Fault V) (Tape V) :=
  let pending : Pending := Array.replicate (t.indCount + 1) none
  t.rebuild (pending.walk (.ofTape t) t.body.toList)

end Tape

end OpTape
