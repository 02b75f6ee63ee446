import LayeredConfig.Defaults.Module

/-!
# Finding root documents

The YAML files at the top of a directory, the one among them that is taken for the root
document, and the nearest directory upwards that has one.
-/
namespace LayeredConfig.FileTree

/-- The YAML files right inside a directory, sorted by name, without hidden ones. -/
def topDocuments (t : FileTree) (dir : Path) : List Path :=
  match t.list dir with
  | .error _ => []
  | .ok names =>
    (names.filter fun n =>
      n.head? ≠ some '.' && Path.isYaml (Path.join dir n) && t.isFile (Path.join dir n)).map
        (Path.join dir)

/-- Whether a file holds a mapping with a defaults list; with `strict` it has to be a
sequence. -/
def hasDefaults (t : FileTree) (strict : Bool) (p : Path) : Bool :=
  match t.document? p with
  | some (.mapping es) =>
    match Entries.find? es (.string Defaults.listKey) with
    | some (.sequence _) => true
    | some _ => ¬ strict
    | none => false
  | _ => false

/-- The first top document with a defaults list, or the first of all. -/
def rootDocument? (t : FileTree) (dir : Path) : Option Path :=
  let documents := t.topDocuments dir
  (documents.find? (t.hasDefaults false)).orElse fun _ => documents.head?

/-- Whether one of the top documents has a defaults list. -/
def isConfigRoot (t : FileTree) (strict : Bool) (dir : Path) : Bool :=
  (t.topDocuments dir).any (t.hasDefaults strict)

/-- The first directory upwards from `dir` with a document whose defaults list is a
sequence. -/
def configRootAbove (t : FileTree) : (fuel : Nat) → Path → Option Path
  | 0, _ => none
  | fuel + 1, dir =>
    if t.isConfigRoot true dir then some dir
    else (Path.parent? dir).bind (configRootAbove t fuel)

/-- The working directory as a path. -/
def currentPath (t : FileTree) : Path := Path.ofNames t.workingDirectory

/-- The directory of a configuration, looked for from a path upwards. -/
def discover? (t : FileTree) (start : Path) : Option Path := do
  let start := Path.absolute t.currentPath start
  let dir ← if t.isFile start then Path.parent? start else some start
  t.configRootAbove (dir.length + 1) dir

end LayeredConfig.FileTree
