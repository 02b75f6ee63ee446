import LayeredConfig.Workspace.Basic

/-!
# Listings

Modules, root documents and snapshots as texts and as JSON. Paths are shown below the root
where they lie there.
-/
namespace LayeredConfig

inductive ListingFormat where
  | text
  | json
deriving DecidableEq, Inhabited

/-- The format a word names, in either case. -/
def ListingFormat.ofWord? (s : Text) : Option ListingFormat :=
  let word := Text.lower s
  if word = "text".toList ∨ word = "txt".toList then some .text
  else if word = "json".toList then some .json
  else none

namespace Listing

def shownPath (root p : Path) : Text := (Path.relative? root p).getD p

/-- A module as `group/name`. -/
def moduleName (m : ConfigModule) : Text := m.group ++ '/' :: m.name

def moduleLine (root : Path) (width : Nat) (m : ConfigModule) : Text :=
  "  " ++ Text.padRight width (moduleName m) ++ "  " ++ (m.relative? root).getD "MISSING" ++
    (if m.isOverride then " (override)" else "") ++ "\n"

/-- One line a module, after one for the root document. The first column is as many characters wide
as the longest name has bytes. -/
def modulesText (modules : List ConfigModule) (document : Option Path) (root : Path) : Text :=
  let head : Text := "Root: " ++ (document.map (shownPath root)).getD "(none)" ++ "\n"
  if modules.isEmpty then head ++ "  (no modules)\n"
  else
    let width := (modules.map fun m => Text.byteLength (moduleName m)).foldl max 0
    head ++ modules.flatMap (moduleLine root width)

def moduleJson (root : Path) (m : ConfigModule) : JsonValue :=
  .ofFields [("group", .ofText m.group), ("name", .ofText m.name), ("override", .bool m.isOverride),
    ("path", .ofText? (m.relative? root)), ("resolved", .bool m.resolved)]

def modulesJson (modules : List ConfigModule) (document : Option Path) (root : Path) : JsonValue :=
  .ofFields [("config_root", .ofText root), ("modules", .array (modules.map (moduleJson root))),
    ("root_document", .ofText? (document.map (shownPath root)))]

/-- A module by itself, with its full path. What it does not have is left out. -/
def recordJson (m : ConfigModule) : JsonValue :=
  let field (key : Text) (v : JsonValue) : Text × JsonValue := (key, v)
  .ofFields ([field "group" (.ofText m.group), field "name" (.ofText m.name)] ++
    (m.path.map fun p => field "path" (.ofText p)).toList ++
    [field "resolved" (.bool m.resolved)] ++
    if m.isOverride then [field "is_override" (.bool true)] else [])

def rootLine (active : Option Path) (root candidate : Path) : Text :=
  let isActive := (active.map (Path.same candidate)).getD false
  (if isActive then '*' else ' ') :: ' ' :: shownPath root candidate ++ "\n"

/-- One line a candidate, the active one with a mark. -/
def rootsText (candidates : List Path) (active : Option Path) (root : Path) : Text :=
  if candidates.isEmpty then "(no YAML files at the configuration root)\n"
  else candidates.flatMap (rootLine active root)

def snapshotLine (created tag files path : Text) : Text :=
  Text.padRight 19 created ++ "  " ++ Text.padRight 24 tag ++ "  " ++ Text.padLeft 5 files ++
    "  " ++ path ++ "\n"

/-- A table of snapshots, with their dates in UTC. -/
def snapshotsText (entries : List SnapshotEntry) : Text :=
  if entries.isEmpty then "No snapshots.\n"
  else snapshotLine "CREATED" "TAG" "FILES" "PATH" ++ entries.flatMap fun e =>
    snapshotLine ((e.manifest.created?.map DateTime.text).getD "?") e.manifest.tag
      (Text.ofNat e.manifest.files.length) e.path

def snapshotJson (e : SnapshotEntry) : JsonValue :=
  .ofFields [("modules", Manifest.filesJson e.manifest.files), ("path", .ofText e.path),
    ("tag", .ofText e.manifest.tag), ("timestamp", Manifest.timestampJson e.manifest.timestamp)]

def snapshotsJson (entries : List SnapshotEntry) : JsonValue := .array (entries.map snapshotJson)

end Listing
end LayeredConfig
