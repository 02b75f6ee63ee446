import LayeredConfig.Compose.Strict

/-!
# Lenient composition

Approximates a composition by plain merges. Missing modules and entries that cannot be used are
passed over, entries marked `override` and removals are ignored, and overrides are laid over the
result. Only a file that cannot be read makes it fail.
-/
namespace LayeredConfig.Lenient

/-- The value of a module file; nothing if there is no such file. -/
def readModule? (t : FileTree) (root : Path) (group name : Text) :
    Except ComposeError (Option Value) :=
  let p := modulePath root group name
  if t.isFile p then (Strict.readDocument t p).map fun d => some d.2 else .ok none

/-- `acc` with a module over it, if its file is there. -/
def mergeModule (t : FileTree) (root : Path) (group name : Text) (package : List Text)
    (acc : Value) : Except ComposeError Value := do
  match ← readModule? t root group name with
  | some v => .ok (acc.merge (Value.nest package v))
  | none => .ok acc

/-- Lays one defaults entry over what has been composed. -/
def layerEntry (t : FileTree) (root : Path) (own acc : Value) :
    DefaultsEntry → Except ComposeError Value
  | .selfMarker => .ok (acc.merge own)
  | .bare name => mergeModule t root Defaults.rootGroup name [] acc
  | .group s =>
    if s.isOverride then .ok acc else mergeModule t root s.group s.name [s.group] acc
  | .unrecognized _ => .ok acc

/-- The document as a mapping: an empty one for null, and under the root group for anything that
is no mapping. -/
def baseOf : Value → Value
  | .mapping es => .mapping es
  | .null => .mapping []
  | v => Value.nest [Defaults.rootGroup] v

def withoutList : Value → Value
  | .mapping es => .mapping (Entries.erase es (.string Defaults.listKey))
  | v => v

/-- The layers of a defaults list. The document's own keys come last where nothing else is
said; a document without entries stays as it is. -/
def layer (t : FileTree) (root : Path) (base : Value) (entries : List DefaultsEntry) :
    Except ComposeError Value :=
  if entries.isEmpty then .ok base
  else do
    let own := withoutList base
    let acc ← entries.foldlM (layerEntry t root own) (.mapping [])
    .ok (if Defaults.hasSelfMarker entries then acc else acc.merge own)

/-- Composes a root document that has been read. -/
def composeValue (t : FileTree) (root : Path) (document : Value) (raws : List Text) :
    Except ComposeError Value := do
  let base := baseOf document
  let v ← layer t root base ((Defaults.ofDocument? base).getD [])
  let assignments := raws.filterMap Assignment.parse?
  .ok (if assignments.isEmpty then v else v.merge (Assignment.tree assignments))

/-- Composes the root document at a path. -/
def compose (t : FileTree) (root p : Path) (raws : List Text) : Except ComposeError Value := do
  let (_, document) ← Strict.readDocument t p
  composeValue t root document raws

end LayeredConfig.Lenient
