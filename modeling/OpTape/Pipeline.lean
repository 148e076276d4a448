import OpTape.Folding
import OpTape.Liveness
import OpTape.Merging
import OpTape.SumFusion
/-
  Passes in a row.
-/
namespace OpTape

/-- A pass that is part of optimizing. -/
inductive Stage
  | foldConstants
  | mergeEqual
  | fuseSums
  | dropDead
  deriving DecidableEq

namespace Stage

def name : Stage → String
  | foldConstants => "fold_con"
  | mergeEqual => "renumber"
  | fuseSums => "summation"
  | dropDead => "dead_code"

end Stage

/-- A failure in one stage of a pipeline. -/
structure StageFault (V : Type) where
  stage : Stage
  fault : Fault V

namespace StageFault

def message {V : Type} [Scalar V] (f : StageFault V) : String :=
  f.stage.name ++ ": " ++ f.fault.message

end StageFault

namespace Tape

variable {V : Type} [Scalar V] [DecidableEq V]

/-- Merges equal usages and then drops the copies. -/
def deduplicate (t : Tape V) (r : Registry V) : Except (Fault V) (Tape V) := do
  (← t.mergeEqual).dropDead r

/-- Folds constants, merges equal usages, fuses sums and drops what is dead, in this order. -/
def optimize (t : Tape V) (r : Registry V) : Except (StageFault V) (Tape V) := do
  let t ← (t.foldConstants r).mapError (⟨.foldConstants, ·⟩)
  let t ← t.mergeEqual.mapError (⟨.mergeEqual, ·⟩)
  let t ← t.fuseSums.mapError (⟨.fuseSums, ·⟩)
  (t.dropDead r).mapError (⟨.dropDead, ·⟩)

end Tape

end OpTape
