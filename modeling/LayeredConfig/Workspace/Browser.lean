import LayeredConfig.Workspace.Basic

/-!
# File browser

All YAML files of a workspace. Hidden entries and the backup directory are passed over.
-/
namespace LayeredConfig

namespace FileTree

def isHidden (name : Text) : Bool := name.head? = some '.'

/-- The YAML files below a directory, without those in `skip`. -/
def yamlFiles (t : FileTree) (skip : Path) : (fuel : Nat) → (dir : Path) → List Path
  | 0, _ => []
  | fuel + 1, dir =>
    match t.list dir with
    | .error _ => []
    | .ok names =>
      names.flatMap fun name =>
        let p := Path.join dir name
        if isHidden name ∨ Path.same p skip then []
        else if t.isDirectory p then yamlFiles t skip fuel p
        else if Path.isYaml p then [p]
        else []

end FileTree

namespace Workspace

/-- The YAML files of the workspace by their paths below the root, sorted. A directory lies at
most as deep as there are entries. -/
def browserEntries (w : Workspace) (t : FileTree) : List Text :=
  FileTree.sortNames ((t.yamlFiles w.snapshots.directory (t.entries.length + 1) w.root).filterMap
    (Path.relative? w.root))

end Workspace
end LayeredConfig
