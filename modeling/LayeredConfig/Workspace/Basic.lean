import LayeredConfig.Defaults.Resolved
import LayeredConfig.Defaults.Rewrite
import LayeredConfig.Settings.Tiers
import LayeredConfig.Snapshot.Store

/-!
# Workspaces

A configuration root with its settings and the root document that has been selected. Everything else
is read from the file tree when it is asked for.
-/
namespace LayeredConfig

structure Workspace where
  root : Path
  selected : Option Path
  settings : Settings
deriving DecidableEq, Inhabited

namespace Workspace

/-- A workspace with given settings. -/
def ofSettings (t : FileTree) (root : Path) (settings : Settings) : Workspace :=
  ⟨Path.absolute t.currentPath root, none, settings⟩

/-- A workspace with the settings of all tiers. -/
def ofTiers (env : Environment) (t : FileTree) (root : Path) : Workspace :=
  ofSettings t root (Settings.load env t (Settings.pathsFor env root)).settings

def select (w : Workspace) (t : FileTree) (p : Path) : Workspace :=
  { w with selected := some (Path.absolute t.currentPath p) }

/-- The selected root document while it exists, or else the one that is found at the root. -/
def document? (w : Workspace) (t : FileTree) : Option Path :=
  match w.selected with
  | some p => if t.isFile p then some p else t.rootDocument? w.root
  | none => t.rootDocument? w.root

/-- The files that can be root documents. -/
def candidates (w : Workspace) (t : FileTree) : List Path := t.topDocuments w.root

/-- The modules of the root document. -/
def modules (w : Workspace) (t : FileTree) : List ConfigModule :=
  match w.document? t with
  | some p => ConfigModule.resolve t w.root p
  | none => []

/-- The composed configuration as a text. -/
def merge (w : Workspace) (env : Environment) (t : FileTree) (overrides : List Text)
    (wording : Wording := .marked) : Text :=
  Preview.merge env t w.root w.settings.merge (w.document? t) overrides wording

/-- Rewrites an entry of the root document; gives the modules it has then. -/
def rewrite (w : Workspace) (t : FileTree) (old new : Rewrite.Selection) :
    Except Rewrite.Fault (List ConfigModule × FileTree) :=
  match w.document? t with
  | none => .error .noRootDocument
  | some p => do
    let (t, _) ← Rewrite.inFile t p old new
    .ok (w.modules t, t)

def snapshots (w : Workspace) : SnapshotStore := ⟨w.root, w.settings.backups⟩

/-- What a snapshot holds: the root document and the files of its modules. -/
def tracked (w : Workspace) (t : FileTree) : List Path :=
  (w.document? t).toList ++ (w.modules t).filterMap ConfigModule.path

def createSnapshot (w : Workspace) (now : Int) (tag : Text) (t : FileTree) :
    Except SnapshotError Path × FileTree :=
  w.snapshots.create now w.tracked tag t

def restoreSnapshot (w : Workspace) (now : Int) (dir : Path) (t : FileTree) :
    Except SnapshotError RestoreReport × FileTree :=
  w.snapshots.restore now w.tracked dir t

end Workspace
end LayeredConfig
