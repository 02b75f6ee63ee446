import LayeredConfig.Yaml.Value
import LayeredConfig.Text.Hidden

/-!
# Values by their kinds

The one-line form of a value that names the kind of each part, for values without a text of
their own.
-/
namespace LayeredConfig

/-- A text in double quotes, with what is not shown by itself written as an escape. -/
def Text.quoted (s : Text) : Text :=
  '"' :: s.flatMap escaped ++ ['"']
where
  escaped (c : Char) : Text :=
    if c = Char.ofNat 0 then "\\0"
    else if c = '\t' then "\\t"
    else if c = '\r' then "\\r"
    else if c = '\n' then "\\n"
    else if c = '\\' then "\\\\"
    else if c = '"' then "\\\""
    else if isHidden c then "\\u\x7b" ++ Nat.toDigits 16 c.toNat ++ "\x7d"
    else [c]

namespace Value

mutual
def inspect : Value → Text
  | .null => "Null"
  | .bool true => "Bool(true)"
  | .bool false => "Bool(false)"
  | .number n => "Number(" ++ n.text ++ ")"
  | .string s => "String(" ++ Text.quoted s ++ ")"
  | .sequence items => "Sequence [" ++ Text.joinWith ", " (inspectItems items) ++ "]"
  | .mapping es => "Mapping \x7b" ++ Text.joinWith ", " (inspectEntries es) ++ "\x7d"
  | .tagged tag v => "TaggedValue \x7b tag: !" ++ tag ++ ", value: " ++ inspect v ++ " \x7d"

def inspectItems : List Value → List Text
  | [] => []
  | v :: rest => inspect v :: inspectItems rest

def inspectEntries : List (Value × Value) → List Text
  | [] => []
  | (.string s, v) :: rest => (Text.quoted s ++ ": " ++ inspect v) :: inspectEntries rest
  | (k, v) :: rest => (inspect k ++ ": " ++ inspect v) :: inspectEntries rest
end

/-- The text of a scalar, without its tag. -/
def scalarText? : Value → Option Text
  | .string s => some s
  | .number n => some n.text
  | .bool true => some "true"
  | .bool false => some "false"
  | .null => some "null"
  | .tagged _ v => scalarText? v
  | .mapping _ | .sequence _ => none

/-- The text a key has in a location. -/
def keyText (key : Value) : Text := (scalarText? key).getD (inspect key)

end Value
end LayeredConfig
