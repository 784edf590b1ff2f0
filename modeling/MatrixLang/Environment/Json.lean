import MatrixLang.Environment
import MatrixLang.Matrix.Json

/-!
# Environments in JSON

Variables and their values as the fields of an object, in order of the names.
-/

namespace MatrixLang.Environment

/-- Bindings in JSON. -/
def bindingsJson (bindings : List (String × Matrix)) : Json :=
  .ofFields (bindings.map fun (name, value) => (name, value.toJson .standard))

/-- The variables of an environment in JSON. -/
def toJson (env : Environment) : Json :=
  bindingsJson env.bindings

end MatrixLang.Environment
