/-!
# Faults in documents

What can be wrong with the text of a document.
-/
namespace LayeredConfig.Yaml

inductive Fault where
  /-- A control character. -/
  | character
  /-- A text that is cut into no tokens: an open quote, a bad escape, tag or indentation. -/
  | lexical
  /-- Tokens in an order that no document has. -/
  | grammar
  /-- A reference to an anchor that is not defined before it. -/
  | unknownAnchor
  /-- A scalar that does not have the type its tag asks for. -/
  | mistyped
  | duplicateKey
  /-- Collections nested deeper than the limit. -/
  | tooDeep
  /-- References followed more often than the limit. -/
  | tooManyReferences
  /-- A second document in the text. -/
  | manyDocuments
deriving DecidableEq, Inhabited

end LayeredConfig.Yaml
