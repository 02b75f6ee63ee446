import LayeredConfig.Yaml.Reader
import LayeredConfig.Text.Blank

/-!
# The value of an argument

A text given where a value is asked for. Scalars are typed as in a document. Collections are
taken in flow form only, so a text such as `a: b` stays what it is.
-/
namespace LayeredConfig.Value

/-- The value that an argument stands for. -/
def ofArgument (raw : Text) : Value :=
  let s := Text.trim raw
  if s.isEmpty then .string []
  else match Yaml.read s with
    | .ok (.sequence items) => if inFlowForm s then .sequence items else .string s
    | .ok (.mapping es) => if inFlowForm s then .mapping es else .string s
    | .ok (.tagged ..) | .error _ => .string s
    | .ok v => v
where
  inFlowForm (s : Text) : Bool := s.head? = some '[' || s.head? = some '\x7b'

end LayeredConfig.Value
