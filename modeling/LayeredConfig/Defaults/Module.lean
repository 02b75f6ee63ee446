import LayeredConfig.Defaults.Basic
import LayeredConfig.Files.Tree

/-!
# Files of modules

Where the file of a selected module lies, and reading documents from files.
-/
namespace LayeredConfig

/-- The file of a group's name. Those of the root group lie beside the root document. -/
def modulePath (root : Path) (group name : Text) : Path :=
  let file := name ++ ".yaml"
  if group = Defaults.rootGroup then Path.join root file
  else Path.join (Path.join root group) file

namespace FileTree

/-- The value of a document file; nothing if it cannot be read. -/
def document? (t : FileTree) (p : Path) : Option Value := do
  let s ← (t.readText p).toOption
  (Yaml.read s).toOption

end FileTree
end LayeredConfig
