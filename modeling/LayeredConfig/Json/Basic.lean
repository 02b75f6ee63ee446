import LayeredConfig.Text.Basic

/-!
# JSON values

Values as they are written: a number keeps its text, and the entries of an object keep their order
and may repeat a key.
-/
namespace LayeredConfig

/-- What stands between two quotes; nothing if an escape leaves half of a surrogate pair. -/
abbrev JsonText := Option Text

inductive JsonValue where
  | null
  | bool (b : Bool)
  /-- A number as it is written. -/
  | number (written : Text)
  | string (s : JsonText)
  | array (items : List JsonValue)
  | object (entries : List (JsonText × JsonValue))
deriving Inhabited

namespace JsonValue

def ofText (s : Text) : JsonValue := .string (some s)

/-- A text, or null if there is none. -/
def ofText? : Option Text → JsonValue
  | some s => ofText s
  | none => .null

def ofFields (fields : List (Text × JsonValue)) : JsonValue :=
  .object (fields.map fun f => (some f.1, f.2))

def text? : JsonValue → Option Text
  | .string s => s
  | _ => none

def items? : JsonValue → Option (List JsonValue)
  | .array items => some items
  | _ => none

end JsonValue
end LayeredConfig
