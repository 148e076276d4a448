import OpTape.Registry
import OpTape.Text
/-
  The one-line listing of a registry.
-/
namespace OpTape.Registry

variable {V : Type}

/-- Names every function of the registry, table by table. -/
def listing (r : Registry V) : String :=
  "Registry \x7b calls: " ++ Text.quotedList (r.calls.toList.map Entry.label) ++
    ", maps: " ++ Text.quotedList (r.maps.toList.map Entry.label) ++
    ", discrete: " ++ Text.quotedList (r.discretes.toList.map Discrete.name) ++ " \x7d"

end OpTape.Registry
