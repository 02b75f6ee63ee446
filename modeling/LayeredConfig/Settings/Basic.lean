import LayeredConfig.Compose.Preview

/-!
# Settings

What can be set about backups, merging and watching, the values where nothing is set, and
reading settings from a document. A section is a mapping of its fields. Tags do not count, unknown
fields are passed over, and no value is converted to another type.
-/
namespace LayeredConfig

structure BackupSettings where
  /-- The directory of snapshots, below the configuration root. -/
  dirName : Text
  /-- The file in each snapshot that lists what it holds. -/
  manifestName : Text
  /-- The tag of the snapshot taken before a restore. -/
  preRestoreTag : Text
deriving DecidableEq, Inhabited

structure Settings where
  backups : BackupSettings
  merge : MergeSettings
  /-- How long changes are collected before they are reported, in milliseconds. -/
  debounceMs : Nat
deriving DecidableEq, Inhabited

namespace Settings

def standardBackups : BackupSettings := ⟨".hydra_backups", "meta.json", "pre_restore_backup"⟩

def standardMerge : MergeSettings := ⟨.auto, true⟩

/-- The settings where nothing is set. -/
def standard : Settings := ⟨standardBackups, standardMerge, 500⟩

def strategyName : MergeStrategy → Text
  | .auto => "auto"
  | .native => "native"
  | .manual => "manual"

/-- Settings as a document. -/
def toValue (s : Settings) : Value :=
  let field (key : Text) (v : Value) : Value × Value := (.string key, v)
  .mapping [
    field "backups" (.mapping [
      field "dir_name" (.string s.backups.dirName),
      field "manifest_name" (.string s.backups.manifestName),
      field "pre_restore_tag" (.string s.backups.preRestoreTag)]),
    field "merge" (.mapping [
      field "strategy" (.string (strategyName s.merge.strategy)),
      field "resolve_interpolations" (.bool s.merge.resolveInterpolations)]),
    field "watch" (.mapping [field "debounce_ms" (.number (.int s.debounceMs))])]

/-- The values of a section's fields. All keys have to be texts, and no field may be given twice.
A tagged null is a section without fields. -/
def fields? (names : List Text) (v : Value) : Option (List (Option Value)) :=
  match v.untag with
  | .null => some (names.map fun _ => none)
  | .mapping es => do
    let named ← es.mapM fun e => e.1.text?.map (·, e.2)
    if names.all fun n => (named.filter (·.1 = n)).length ≤ 1 then
      some (names.map fun n => named.lookup n)
    else none
  | _ => none

/-- A field's value if it is given, which has to be of the field's type, or else the default. -/
def orDefault {α : Type} (decode : Value → Option α) (default : α) : Option Value → Option α
  | some v => decode v
  | none => some default

def bool? (v : Value) : Option Bool :=
  match v.untag with
  | .bool b => some b
  | _ => none

def natural? (v : Value) : Option Nat :=
  match v.untag with
  | .number (.int (.ofNat n)) => some n
  | _ => none

def strategyOfName? (s : Text) : Option MergeStrategy :=
  if s = "auto".toList then some .auto
  else if s = "native".toList then some .native
  else if s = "manual".toList then some .manual
  else none

/-- A strategy is given by its name, or as a tag on nothing. -/
def strategy? : Value → Option MergeStrategy
  | .string s => strategyOfName? s
  | .tagged tag v => if v.isNull then strategyOfName? tag else none
  | _ => none

def backups? (v : Value) : Option BackupSettings := do
  match ← fields? ["dir_name", "manifest_name", "pre_restore_tag"] v with
  | [dir, manifest, tag] =>
    some ⟨← orDefault Value.text? standardBackups.dirName dir,
      ← orDefault Value.text? standardBackups.manifestName manifest,
      ← orDefault Value.text? standardBackups.preRestoreTag tag⟩
  | _ => none

def merge? (v : Value) : Option MergeSettings := do
  match ← fields? ["strategy", "resolve_interpolations"] v with
  | [strategy, resolve] =>
    some ⟨← orDefault strategy? standardMerge.strategy strategy,
      ← orDefault bool? standardMerge.resolveInterpolations resolve⟩
  | _ => none

def watch? (v : Value) : Option Nat := do
  match ← fields? ["debounce_ms"] v with
  | [debounce] => orDefault natural? standard.debounceMs debounce
  | _ => none

/-- The settings a document holds. -/
def ofValue? (v : Value) : Option Settings := do
  match ← fields? ["backups", "merge", "watch"] v with
  | [backups, merge, watch] =>
    some ⟨← orDefault backups? standardBackups backups, ← orDefault merge? standardMerge merge,
      ← orDefault watch? standard.debounceMs watch⟩
  | _ => none

end Settings
end LayeredConfig
