import OpTape.Fault
/-
  The switches that a tape carries and hands on to every tape built from it.
-/
namespace OpTape

/-- What the passes must keep and check. -/
structure Options where
  /-- Keep comparisons, so that an evaluation can count those that fail. -/
  keepCompare : Bool := true
  /-- Keep print usages. -/
  keepPrint : Bool := true
  /-- Hold each dependence answer of a registered function against its answers for single
  results. -/
  checkDependence : Bool := true
  deriving DecidableEq

namespace Options

/-- Sets the option called `name`. The value is judged before the name. -/
def set {V : Type} (options : Options) (name value : String) : Except (Fault V) Options := do
  let flag ← match value with
    | "true" => pure true
    | "false" => pure false
    | _ => throw (.invalidOptionValue name value)
  match name with
  | "keep_compare" => return { options with keepCompare := flag }
  | "keep_print" => return { options with keepPrint := flag }
  | "check_rev_depend" => return { options with checkDependence := flag }
  | _ => throw (.unknownOption name)

end Options

end OpTape
