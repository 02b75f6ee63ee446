import LayeredConfig.Files.Path

/-!
# File trees

The files and directories that programs read and write, as a value. A path is followed segment
by segment from the root or the working directory to the names it means; every operation goes
through `FileTree.locate` and the entry at those names.
-/
namespace LayeredConfig

/-- Why an operation on files fails. -/
inductive FileFault where
  | notFound
  | isDirectory
  | notDirectory
  | exists
  | nameTooLong
  | nulInPath
  | notText
  | notRegular
deriving DecidableEq, Inhabited

def FileFault.message : FileFault → Text
  | .notFound => "No such file or directory (os error 2)"
  | .isDirectory => "Is a directory (os error 21)"
  | .notDirectory => "Not a directory (os error 20)"
  | .exists => "File exists (os error 17)"
  | .nameTooLong => "File name too long (os error 36)"
  | .nulInPath => "file name contained an unexpected NUL byte"
  | .notText => "stream did not contain valid UTF-8"
  | .notRegular => "the source path is neither a regular file nor a symlink to a regular file"

/-- What a file holds: a text, or bytes that are no text. -/
inductive Content where
  | text (s : Text)
  | bytes (bs : List UInt8)
deriving DecidableEq, Inhabited

inductive FileEntry where
  | directory
  | file (content : Content)
deriving DecidableEq, Inhabited

/-- The names from the root down to an entry. -/
abbrev Names := List Text

structure FileTree where
  /-- The entries, each names at most once. The root has none. -/
  entries : List (Names × FileEntry)
  workingDirectory : Names
deriving DecidableEq, Inhabited

namespace FileTree

def at? (t : FileTree) (names : Names) : Option FileEntry :=
  if names.isEmpty then some .directory else t.entries.lookup names

/-- Fails unless names belong to a directory. -/
def needDirectory (t : FileTree) (names : Names) : Except FileFault Unit :=
  match t.at? names with
  | some .directory => .ok ()
  | some (.file _) => .error .notDirectory
  | none => .error .notFound

/-- The longest name and the longest path, in bytes. -/
def nameLimit : Nat := 255

def pathLimit : Nat := 4095

/-- Follows segments. The names they lead to need not belong to an entry. -/
def walk (t : FileTree) (names : Names) : List Text → Except FileFault Names
  | [] => .ok names
  | s :: rest =>
    if s.isEmpty then t.walk names rest
    else do
      t.needDirectory names
      if s = ".".toList then t.walk names rest
      else if s = "..".toList then t.walk names.dropLast rest
      else if nameLimit < Text.byteLength s then .error .nameTooLong
      else t.walk (names ++ [s]) rest

/-- Where a path leads, and whether it ends in a slash. -/
structure Place where
  names : Names
  slashed : Bool

def locate (t : FileTree) (p : Path) : Except FileFault Place :=
  if p.contains (Char.ofNat 0) then .error .nulInPath
  else if p.isEmpty then .error .notFound
  else if pathLimit < Text.byteLength p then .error .nameTooLong
  else do
    let start := if Path.isAbsolute p then [] else t.workingDirectory
    .ok ⟨← t.walk start (Text.splitAll '/' p), p.getLast? = some '/'⟩

/-- The entry at a path. -/
def stat (t : FileTree) (p : Path) : Except FileFault FileEntry := do
  let place ← t.locate p
  match t.at? place.names with
  | none => .error .notFound
  | some .directory => .ok .directory
  | some (.file c) => if place.slashed then .error .notDirectory else .ok (.file c)

def isFile (t : FileTree) (p : Path) : Bool :=
  match t.stat p with
  | .ok (.file _) => true
  | _ => false

def isDirectory (t : FileTree) (p : Path) : Bool :=
  match t.stat p with
  | .ok .directory => true
  | _ => false

def has (t : FileTree) (p : Path) : Bool :=
  match t.stat p with
  | .ok _ => true
  | .error _ => false

/-- What the file at a path holds. -/
def read (t : FileTree) (p : Path) : Except FileFault Content := do
  match ← t.stat p with
  | .directory => .error .isDirectory
  | .file c => .ok c

/-- The text of the file at a path. -/
def readText (t : FileTree) (p : Path) : Except FileFault Text := do
  match ← t.read p with
  | .text s => .ok s
  | .bytes _ => .error .notText

/-- The tree with an entry, new or in place of the one with those names. -/
def put (t : FileTree) (names : Names) (e : FileEntry) : FileTree :=
  if t.entries.any (·.1 = names) then
    { t with entries := t.entries.map fun x => if x.1 = names then (names, e) else x }
  else { t with entries := t.entries ++ [(names, e)] }

/-- The names of the file that writing to a path makes or replaces. -/
def target (t : FileTree) (p : Path) : Except FileFault Names := do
  let place ← t.locate p
  match t.at? place.names with
  | some .directory => .error .isDirectory
  | some (.file _) => if place.slashed then .error .notDirectory else .ok place.names
  | none =>
    t.needDirectory place.names.dropLast
    if place.slashed then .error .isDirectory else .ok place.names

/-- Writes a file, which is made if there is none. -/
def write (t : FileTree) (p : Path) (c : Content) : Except FileFault FileTree := do
  .ok (t.put (← t.target p) (.file c))

/-- Makes a directory where nothing is. -/
def createDirectory (t : FileTree) (p : Path) : Except FileFault FileTree := do
  let place ← t.locate p
  match t.at? place.names with
  | some _ => .error .exists
  | none =>
    t.needDirectory place.names.dropLast
    .ok (t.put place.names .directory)

/-- Makes a directory and those above it that are missing. On a failure the tree holds what has
been made. -/
def createDirectories : (fuel : Nat) → FileTree → Path → Except FileFault Unit × FileTree
  | 0, t, _ => (.error .notFound, t)
  | fuel + 1, t, p =>
    if p.isEmpty then (.ok (), t)
    else
      let orPresent (t : FileTree) (f : FileFault) : Except FileFault Unit × FileTree :=
        if t.isDirectory p then (.ok (), t) else (.error f, t)
      match t.createDirectory p with
      | .ok t => (.ok (), t)
      | .error .notFound =>
        match Path.parent? p with
        | none => (.error .notFound, t)
        | some up =>
          match createDirectories fuel t up with
          | (.error f, t) => (.error f, t)
          | (.ok (), t) =>
            match t.createDirectory p with
            | .ok t => (.ok (), t)
            | .error f => orPresent t f
      | .error f => orPresent t f

def ensureDirectory (t : FileTree) (p : Path) : Except FileFault Unit × FileTree :=
  createDirectories (p.length + 1) t p

/-- Copies a file. A file that is copied onto itself ends up empty, because the copy is cleared
before the source is read. -/
def copy (t : FileTree) (source dest : Path) : Except FileFault FileTree := do
  match ← t.stat source with
  | .directory => .error .notRegular
  | .file c =>
    let names ← t.target dest
    let place ← t.locate source
    .ok (t.put names (.file (if place.names = names then .text [] else c)))

/-- Copies a file into a directory that is made if it is missing. -/
def copyInto (t : FileTree) (source dest : Path) : Except FileFault Unit × FileTree :=
  let made := match Path.parent? dest with
    | some up => t.ensureDirectory up
    | none => (.ok (), t)
  match made with
  | (.error f, t) => (.error f, t)
  | (.ok (), t) =>
    match t.copy source dest with
    | .ok t => (.ok (), t)
    | .error f => (.error f, t)

/-- Whether names lie right below others. -/
def isChild (parent names : Names) : Bool :=
  names.length = parent.length + 1 && parent.isPrefixOf names

def textBefore : (a b : Text) → Bool
  | _, [] => false
  | [], _ :: _ => true
  | a :: as, b :: bs => a.toNat < b.toNat || (a = b && textBefore as bs)

def sortNames (names : List Text) : List Text :=
  names.mergeSort fun a b => ¬ textBefore b a

/-- The names of what lies in a directory, sorted. -/
def children (t : FileTree) (names : Names) : List Text :=
  sortNames ((t.entries.filter fun e => isChild names e.1).filterMap fun e => e.1.getLast?)

/-- Lists a directory. -/
def list (t : FileTree) (p : Path) : Except FileFault (List Text) := do
  let place ← t.locate p
  t.needDirectory place.names
  .ok (t.children place.names)

/-- Removes an entry with all that lies below it. -/
def remove (t : FileTree) (p : Path) : Except FileFault FileTree := do
  let place ← t.locate p
  match t.at? place.names with
  | none => .error .notFound
  | some _ =>
    .ok { t with entries := t.entries.filter fun e => ¬ place.names.isPrefixOf e.1 }

end FileTree
end LayeredConfig
