import LayeredConfig.Json.Basic

/-!
# Writing JSON

One item or entry a line, indented by two spaces a level. Empty arrays and objects stand on one
line.
-/
namespace LayeredConfig.JsonValue

def hexDigit (n : Nat) : Char := Nat.digitChar n

/-- A character as it stands between quotes. -/
def escape (c : Char) : Text :=
  if c = '"' then "\\\""
  else if c = '\\' then "\\\\"
  else if c = '\x08' then "\\b"
  else if c = '\x0c' then "\\f"
  else if c = '\n' then "\\n"
  else if c = '\r' then "\\r"
  else if c = '\t' then "\\t"
  else if c.toNat < 0x20 then
    '\\' :: 'u' :: '0' :: '0' :: [hexDigit (c.toNat / 16), hexDigit (c.toNat % 16)]
  else [c]

def quote (s : JsonText) : Text := '"' :: (s.getD []).flatMap escape ++ ['"']

def indentation (depth : Nat) : Text := List.replicate (2 * depth) ' '

/-- Lines between an opening and a closing mark, `depth` levels deep. -/
def block (opening closing : Char) (depth : Nat) (lines : List Text) : Text :=
  if lines.isEmpty then [opening, closing]
  else
    opening :: '\n' :: Text.joinWith ",\n" (lines.map (indentation (depth + 1) ++ ·)) ++
      '\n' :: indentation depth ++ [closing]

mutual

/-- The text of a value that stands `depth` levels deep. -/
def textAt (depth : Nat) : JsonValue → Text
  | .null => "null"
  | .bool b => if b then "true" else "false"
  | .number written => written
  | .string s => quote s
  | .array items => block '[' ']' depth (itemTexts (depth + 1) items)
  | .object entries => block '\x7b' '\x7d' depth (entryTexts (depth + 1) entries)

def itemTexts (depth : Nat) : List JsonValue → List Text
  | [] => []
  | v :: vs => textAt depth v :: itemTexts depth vs

def entryTexts (depth : Nat) : List (JsonText × JsonValue) → List Text
  | [] => []
  | (key, v) :: es => (quote key ++ ": " ++ textAt depth v) :: entryTexts depth es

end

def text (v : JsonValue) : Text := textAt 0 v

end LayeredConfig.JsonValue
