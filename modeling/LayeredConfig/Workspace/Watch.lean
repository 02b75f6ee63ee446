import LayeredConfig.Workspace.Basic

/-!
# Watched changes

What a change of files means for a workspace. Changes of files that are not YAML, and those in the
backup directory, mean nothing.
-/
namespace LayeredConfig

structure WatchPaths where
  root : Path
  /-- The directory whose changes are ignored. -/
  backups : Path
deriving DecidableEq, Inhabited

inductive TreeChange where
  /-- A file at the top of the root has changed. -/
  | rootDocument (p : Path)
  /-- A file further down has changed. -/
  | moduleFile (p : Path)
  /-- Several files have changed together. -/
  | batch (ps : List Path)
  /-- Watching has failed. -/
  | failure (message : Text)
deriving DecidableEq, Inhabited

def Workspace.watchPaths (w : Workspace) : WatchPaths := ⟨w.root, w.snapshots.directory⟩

namespace TreeChange

/-- What the change of one file means. -/
def classify? (paths : WatchPaths) (p : Path) : Option TreeChange :=
  if Path.startsWith paths.backups p ∨ ¬ Path.isYaml p then none
  else
    match Path.below? paths.root p with
    | none => none
    | some [_] => some (.rootDocument p)
    | some _ => some (.moduleFile p)

/-- The change that files of one moment make together. -/
def ofFiles? (paths : WatchPaths) (files : List Path) : Option TreeChange :=
  match files.filter fun p => (classify? paths p).isSome with
  | [] => none
  | [p] => classify? paths p
  | ps => some (.batch ps)

/-- Whether the configuration has to be composed anew. -/
def requiresRefresh : TreeChange → Bool
  | .failure _ => false
  | _ => true

def isRootDocument : TreeChange → Bool
  | .rootDocument _ => true
  | _ => false

/-- Whether the files that can be root documents may have changed. -/
def touchesRootDocuments (paths : WatchPaths) : TreeChange → Bool
  | .rootDocument _ => true
  | .batch ps => ps.any fun p => ((classify? paths p).map isRootDocument).getD false
  | .moduleFile _ | .failure _ => false

def files : TreeChange → List Path
  | .rootDocument p | .moduleFile p => [p]
  | .batch ps => ps
  | .failure _ => []

end TreeChange
end LayeredConfig
