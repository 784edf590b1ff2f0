import MatrixLang.Json.Read
import MatrixLang.Settings

/-!
# Settings in JSON

Settings are an object with up to two fields, or an array of up to two values in the same
order; what is missing takes its standard value, and other fields are passed over.
-/

namespace MatrixLang

/-- A policy from JSON: its name, or an object with the name as its only key and no
value. -/
def MissingPolicy.ofJson? : Json → Option MissingPolicy
  | .string (some name) => MissingPolicy.ofName? name
  | .object [(some name, .null)] => MissingPolicy.ofName? name
  | _ => none

namespace Settings

/-- A truth value from JSON. -/
def boolOfJson? : Json → Option Bool
  | .bool b => some b
  | _ => none

/-- Settings from their parts in JSON. -/
def ofJsonParts? (constants missing : Option Json) : Option Settings := do
  let constants ←
    match constants with
    | none => some standard.constants
    | some j => boolOfJson? j
  let missing ←
    match missing with
    | none => some standard.missing
    | some j => MissingPolicy.ofJson? j
  return ⟨constants, missing⟩

/-- Settings from JSON. -/
def ofJson? : Json → Option Settings
  | .array [] => ofJsonParts? none none
  | .array [constants] => ofJsonParts? (some constants) none
  | .array [constants, missing] => ofJsonParts? (some constants) (some missing)
  | .object fields => do
    guard (Json.keysAreTexts fields)
    let constants ← Json.field? "seed_constants" fields
    let missing ← Json.field? "image_missing" fields
    ofJsonParts? constants missing
  | _ => none

/-- Settings from a JSON text. -/
def read? (source : String) : Option Settings :=
  (Json.read? source).bind ofJson?

/-- Settings in JSON. -/
def toJson (s : Settings) : Json :=
  .ofFields [("seed_constants", .bool s.constants), ("image_missing", .ofString s.missing.name)]

end Settings

end MatrixLang
