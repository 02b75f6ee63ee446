import LayeredConfig.CommandLine.Run
import Std.Time.DateTime.Timestamp

/-!
# Program

Runs the command line on real files. The files and directories that the program may see are named
on standard input, one path a line; what a run has changed is written back.
-/
namespace LayeredConfig.Program

/-- The lines of a stream up to its end. -/
partial def readLines (stream : IO.FS.Stream) (lines : List Text) : IO (List Text) := do
  let line ← stream.getLine
  if line.isEmpty then pure lines.reverse
  else readLines stream ((Text.lines line.toList).getD 0 [] :: lines)

def contentOf (bytes : ByteArray) : Content :=
  match String.fromUTF8? bytes with
  | some s => .text s.toList
  | none => .bytes bytes.toList

/-- The tree with a file and the directories above it. What cannot be read as a file is a
directory. -/
def load (t : FileTree) (p : Path) : IO FileTree := do
  let p := Path.absolute t.currentPath p
  try
    let bytes ← IO.FS.readBinFile (String.ofList p)
    let (_, t) := t.ensureDirectory ((Path.parent? p).getD "/")
    pure ((t.write p (contentOf bytes)).toOption.getD t)
  catch _ => pure (t.ensureDirectory p).2

/-- Writes an entry that the tree before did not have. -/
def store (before : FileTree) (names : Names) (e : FileEntry) : IO Unit := do
  let p := String.ofList (Path.ofNames names)
  if before.at? names = some e then pure ()
  else
    match e with
    | .directory => IO.FS.createDirAll p
    | .file (.text s) => IO.FS.writeFile p (String.ofList s)
    | .file (.bytes bs) => IO.FS.writeBinFile p ⟨bs.toArray⟩

/-- The variables of the process, each as `NAME=value` before a NUL. -/
def environment : IO Environment := do
  let bytes ← IO.FS.readBinFile "/proc/self/environ"
  let whole := ((String.fromUTF8? bytes).getD "").toList
  pure ((Text.splitAll (Char.ofNat 0) whole).filterMap (Text.splitFirst '='))

/-- The time in microseconds. -/
def now : IO Int := do
  let time ← Std.Time.Timestamp.now
  pure (time.toNanosecondsSinceUnixEpoch.val / 1000)

end LayeredConfig.Program

open LayeredConfig LayeredConfig.Program

def main (args : List String) : IO UInt32 := do
  let directory := (toString (← IO.currentDir)).toList
  let start : FileTree := ⟨[], (Text.splitAll '/' directory).filter fun s => ¬ s.isEmpty⟩
  let paths ← readLines (← IO.getStdin) []
  let tree ← paths.foldlM load (start.ensureDirectory directory).2
  let r := CommandLine.run (← environment) (← now) tree (args.map String.toList) .marked
  for (names, e) in r.tree.entries do
    store tree names e
  IO.print (String.ofList r.out)
  IO.eprint (String.ofList r.err)
  pure (UInt32.ofNat r.code)
