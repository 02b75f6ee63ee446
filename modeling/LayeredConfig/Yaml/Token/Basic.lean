import LayeredConfig.Yaml.Cursor

/-!
# Tokens

The tokens of a document. Block structure, which the text shows by indentation, has opening and
closing tokens of its own.
-/
namespace LayeredConfig.Yaml

/-- A tag as written: its handle, empty for a verbatim tag, and what follows. -/
structure TagMark where
  handle : Text
  suffix : Text
deriving DecidableEq, Inhabited

inductive Token where
  | versionDirective (major minor : Nat)
  | tagDirective (handle lead : Text)
  | documentStart
  | documentEnd
  | blockSequenceStart
  | blockMappingStart
  | blockEnd
  | flowSequenceStart
  | flowSequenceEnd
  | flowMappingStart
  | flowMappingEnd
  | blockEntry
  | flowEntry
  | key
  | value
  | alias (name : Text)
  | anchor (name : Text)
  | tag (mark : TagMark)
  | scalar (text : Text) (plain : Bool)
deriving DecidableEq, Inhabited

end LayeredConfig.Yaml
