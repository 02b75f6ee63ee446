import LayeredConfig.Settings.Basic
import LayeredConfig.Snapshot.Manifest
import LayeredConfig.Text.Letter

/-!
# Snapshot stores

Copies of files of a configuration, each snapshot in a directory of its own below one backup
directory, with a manifest beside the copies. A file that cannot be copied is left out of the
manifest. Restoring copies back what the manifest names, after a safety snapshot has been taken.
-/
namespace LayeredConfig

inductive SnapshotError where
  | manifestMissing (path : Path)
  | manifestInvalid (path : Path)
  | io (path : Path) (fault : FileFault)
deriving DecidableEq, Inhabited

def SnapshotError.message (e : SnapshotError) (wording : Wording := .marked) : Text :=
  match e with
  | .manifestMissing p => "snapshot metadata not found: " ++ p
  | .manifestInvalid p => "snapshot metadata is invalid in " ++ p ++ ": " ++ wording.manifest p
  | .io p fault => "I/O error on " ++ p ++ ": " ++ fault.message

/-- A snapshot in a listing. -/
structure SnapshotEntry where
  manifest : Manifest
  path : Path
deriving DecidableEq, Inhabited

/-- What a restore has done. -/
structure RestoreReport where
  /-- The directory of the safety snapshot. -/
  safety : Path
  restored : List Text
  /-- The files of the manifest that have not been copied back. -/
  skipped : List Text
deriving DecidableEq, Inhabited

structure SnapshotStore where
  /-- The configuration root. -/
  root : Path
  settings : BackupSettings
deriving DecidableEq, Inhabited

namespace SnapshotStore

/-- The directory that holds the snapshots. -/
def directory (s : SnapshotStore) : Path := Path.join s.root s.settings.dirName

def manifestPath (s : SnapshotStore) (dir : Path) : Path := Path.join dir s.settings.manifestName

/-- Whether a character of a tag stands in the name of a directory as it is. -/
def isPlain (c : Char) : Bool := Text.isLetterOrNumber c || c = '-' || c = '_' || c = '.'

def trimPoints (s : Text) : Text :=
  ((s.dropWhile (· = '.')).reverse.dropWhile (· = '.')).reverse

/-- A tag as part of the name of a directory. -/
def nameOfTag (tag : Text) : Text :=
  let cleaned := trimPoints ((Text.trim tag).map fun c => if isPlain c then c else '_')
  if cleaned.isEmpty then "snapshot" else cleaned

/-- A name with the number of an attempt, of which the first has none. -/
def attemptName (base : Text) : (attempt : Nat) → Text
  | 0 => base
  | n + 1 => base ++ '_' :: Text.ofNat (n + 1)

/-- Makes a new directory, under the first name that is free. -/
def reserve (s : SnapshotStore) (base : Text) (t : FileTree) : (fuel : Nat) → (attempt : Nat) →
    Except SnapshotError (Path × FileTree)
  | 0, attempt => .error (.io (Path.join s.directory (attemptName base attempt)) .exists)
  | fuel + 1, attempt =>
    let p := Path.join s.directory (attemptName base attempt)
    match t.createDirectory p with
    | .ok t => .ok (p, t)
    | .error .exists => reserve s base t fuel (attempt + 1)
    | .error fault => .error (.io p fault)

/-- Copies a file to its place in a snapshot and notes its path below the root, once. A file
outside the root, or one that cannot be copied, is passed over. -/
def collect (s : SnapshotStore) (dir : Path) (state : FileTree × List Text) (source : Path) :
    FileTree × List Text :=
  match Path.relative? s.root source with
  | none => state
  | some rel =>
    if state.2.contains rel then state
    else
      match Path.confine? dir rel with
      | none => state
      | some dest =>
        match state.1.copyInto source dest with
        | (.ok (), t) => (t, state.2 ++ [rel])
        | (.error _, t) => (t, state.2)

/-- Takes a snapshot of files at a time, which is given in microseconds and names the directory in
UTC. Which files they are is asked when there is a directory for the copies. -/
def create (s : SnapshotStore) (now : Int) (sources : FileTree → List Path) (tag : Text)
    (t : FileTree) : Except SnapshotError Path × FileTree :=
  match t.ensureDirectory s.directory with
  | (.error fault, t) => (.error (.io s.directory fault), t)
  | (.ok (), t) =>
    let base := (DateTime.ofSeconds (now / 1000000)).compact ++ '_' :: nameOfTag tag
    match s.reserve base t (t.entries.length + 1) 0 with
    | .error e => (.error e, t)
    | .ok (dir, t) =>
      let (t, copied) := (sources t).foldl (s.collect dir) (t, [])
      let manifest : Manifest := ⟨tag, Manifest.timestampOf now, copied⟩
      match t.write (s.manifestPath dir) (.text manifest.text) with
      | .ok t => (.ok dir, t)
      | .error fault => (.error (.io (s.manifestPath dir) fault), t)

def readManifest (s : SnapshotStore) (t : FileTree) (dir : Path) : Except SnapshotError Manifest :=
  match t.readText (s.manifestPath dir) with
  | .error .notFound => .error (.manifestMissing (s.manifestPath dir))
  | .error fault => .error (.io (s.manifestPath dir) fault)
  | .ok text =>
    match Manifest.read? text with
    | some m => .ok m
    | none => .error (.manifestInvalid (s.manifestPath dir))

/-- The entry of a directory that has a valid manifest. -/
def listed? (s : SnapshotStore) (t : FileTree) (dir : Path) : Option SnapshotEntry :=
  if t.isDirectory dir then (s.readManifest t dir).toOption.map (⟨·, dir⟩) else none

def isNewer (a b : SnapshotEntry) : Bool := b.manifest.timestamp.rank ≤ a.manifest.timestamp.rank

/-- The snapshots with a valid manifest, the newest first. -/
def list (s : SnapshotStore) (t : FileTree) : List SnapshotEntry :=
  match t.list s.directory with
  | .error _ => []
  | .ok names =>
    (names.filterMap fun name => s.listed? t (Path.join s.directory name)).mergeSort isNewer

/-- Where a file of a manifest is copied from and to, if there is such a file and neither end
leaves its directory. -/
def ends? (s : SnapshotStore) (t : FileTree) (dir : Path) (rel : Text) : Option (Path × Path) := do
  let source ← Path.confine? dir rel
  let dest ← Path.confine? s.root rel
  if t.isFile source then some (source, dest) else none

/-- Copies a file of a snapshot back. The state holds the tree and what has been restored and
skipped. -/
def bringBack (s : SnapshotStore) (dir : Path) (state : FileTree × List Text × List Text)
    (rel : Text) : FileTree × List Text × List Text :=
  let (t, restored, skipped) := state
  match s.ends? t dir rel with
  | none => (t, restored, skipped ++ [rel])
  | some (source, dest) =>
    match t.copyInto source dest with
    | (.ok (), t) => (t, restored ++ [rel], skipped)
    | (.error _, t) => (t, restored, skipped ++ [rel])

/-- Restores a snapshot. A safety snapshot of `sources` is taken before anything else. -/
def restore (s : SnapshotStore) (now : Int) (sources : FileTree → List Path) (dir : Path)
    (t : FileTree) : Except SnapshotError RestoreReport × FileTree :=
  match s.create now sources s.settings.preRestoreTag t with
  | (.error e, t) => (.error e, t)
  | (.ok safety, t) =>
    match s.readManifest t dir with
    | .error e => (.error e, t)
    | .ok manifest =>
      let (t, restored, skipped) := manifest.files.foldl (s.bringBack dir) (t, [], [])
      (.ok ⟨safety, restored, skipped⟩, t)

end SnapshotStore
end LayeredConfig
