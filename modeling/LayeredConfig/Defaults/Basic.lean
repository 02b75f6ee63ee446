import LayeredConfig.Yaml.Printer.Basic
import LayeredConfig.Yaml.Inspect
import LayeredConfig.Yaml.Reader
import LayeredConfig.Text.Blank

/-!
# Defaults lists

The list under the key `defaults` of a root document, which selects the modules that are
composed. An entry is the marker `_self_`, a bare name, or a group with a name, written as a
path or as a mapping.
-/
namespace LayeredConfig

/-- How a selection is written. -/
inductive EntryForm where
  /-- As `group/name`. -/
  | path
  /-- As `group: name`. -/
  | mapping
deriving DecidableEq, Inhabited

/-- A name selected from a group. -/
structure GroupSelection where
  group : Text
  name : Text
  /-- Whether it is marked `override`. -/
  isOverride : Bool
  form : EntryForm
deriving DecidableEq, Inhabited

inductive DefaultsEntry where
  /-- The place of the root document's own keys. -/
  | selfMarker
  /-- A name without a group, taken for a file beside the root document. -/
  | bare (name : Text)
  | group (selection : GroupSelection)
  /-- Any other entry, in a form that can be shown. -/
  | unrecognized (raw : Text)
deriving DecidableEq, Inhabited

namespace Defaults

def selfMarker : Text := "_self_"

/-- The group of files that lie beside the root document. -/
def rootGroup : Text := "root"

def listKey : Text := "defaults"

/-- The segments of the path a group's module is merged under. -/
def packageOf (group : Text) : List Text := (Text.splitAll '/' group).filter fun s => ¬ s.isEmpty

/-- A group's name and whether it is marked `override`. The mark alone is a group's name too. -/
def splitOverride (key : Text) : Text × Bool :=
  if key = "override".toList then (key, true)
  else match Text.after? "override " key with
    | some rest => (Text.trim rest, true)
    | none => (key, false)

/-- The written form of an entry on one line. -/
def describe (v : Value) : Text :=
  match Yaml.render? v with
  | some s => Text.replaceChar '\n' ' ' (Text.trim s)
  | none => v.inspect

def decodeText (s : Text) : DefaultsEntry :=
  if s = selfMarker then .selfMarker
  else
    let (body, isOverride) := splitOverride s
    match Text.splitLast '/' body with
    | some (group, name) =>
      if group.isEmpty ∨ name.isEmpty then .unrecognized s
      else .group ⟨group, name, isOverride, .path⟩
    | none => .bare s

/-- One entry of a mapping: a group and the name selected from it. -/
def decodePair (item : Value) (pair : Value × Value) : DefaultsEntry :=
  match pair.1.text?, pair.2.text? with
  | some key, some name =>
    let (group, isOverride) := splitOverride key
    .group ⟨group, name, isOverride, .mapping⟩
  | _, _ => .unrecognized (describe item)

/-- The entries of an item; each pair of a mapping is one. -/
def decodeItem : Value → List DefaultsEntry
  | .string s => [decodeText s]
  | .mapping es => es.map (decodePair (.mapping es))
  | v => [.unrecognized (describe v)]

/-- The entries of a document; nothing if it is no mapping. A document without a list has none. -/
def ofDocument? (document : Value) : Option (List DefaultsEntry) :=
  match document.entries? with
  | some es =>
    match Entries.find? es (.string listKey) with
    | some (.sequence items) => some (items.flatMap decodeItem)
    | _ => some []
  | none => none

def hasSelfMarker (entries : List DefaultsEntry) : Bool := entries.contains .selfMarker

end Defaults
end LayeredConfig
