import LayeredConfig.Defaults.Module

/-!
# Rewriting an entry in place

A selection is changed in the text of a root document, so that its comments and its order stay.
A line is an entry for a selection if it consists of indentation, a dash, perhaps the mark
`override`, the selection as a path, as a mapping or, for a file beside the root document, as a
bare name, and then at most blanks, a comment and a carriage return.
-/
namespace LayeredConfig.Rewrite

structure Selection where
  group : Text
  name : Text
deriving DecidableEq, Inhabited

def isBlankChar (c : Char) : Bool := c == ' ' || c == '\t'

/-- What may follow a selection on its line, if the line then ends. -/
def tail? (s : Text) : Option Text :=
  let blanks := s.takeWhile isBlankChar
  let r := s.dropWhile isBlankChar
  let (comment, r) := if r.head? = some '#' then
    (r.takeWhile (fun c => c != '\r' && c != '\n'), r.dropWhile (fun c => c != '\r' && c != '\n'))
    else ([], r)
  let (cr, r) : Text × Text := match r with
    | '\r' :: t => (['\r'], t)
    | _ => ([], r)
  if r.isEmpty ∨ r.head? = some '\n' then some (blanks ++ comment ++ cr) else none

/-- The longest run of blanks after which `next` holds. -/
def afterBlanks {α : Type} (next : Text → Option α) : Text → Option (Text × α)
  | [] => (next []).map fun a => ([], a)
  | c :: r =>
    let here := (next (c :: r)).map fun a => ([], a)
    if isBlankChar c then
      match afterBlanks next r with
      | some (blanks, a) => some (c :: blanks, a)
      | none => here
    else here

/-- A selection written as a path, and what follows it. -/
def pathForm? (old : Selection) (s : Text) : Option (Text × Text) := do
  let written := old.group ++ '/' :: old.name
  let tail ← tail? (← Text.after? written s)
  some (written, tail)

/-- A selection written as a mapping, and what follows it. -/
def mappingForm? (old : Selection) (s : Text) : Option (Text × Text) := do
  let r ← Text.after? old.group s
  let (before, after, tail) ← afterBlanks (fun r => do
    let r ← Text.after? ":" r
    afterBlanks (fun r => do tail? (← Text.after? old.name r)) r) r
  some (old.group ++ before ++ ':' :: after ++ old.name, tail)

/-- A bare name, and what follows it. -/
def bareForm? (old : Selection) (s : Text) : Option (Text × Text) := do
  let tail ← tail? (← Text.after? old.name s)
  some (old.name, tail)

/-- A recognized entry at the start of a line. -/
structure Found where
  indent : Text
  /-- The mark with its space, or nothing. -/
  mark : Text
  /-- The selection as written. -/
  written : Text
  tail : Text

def Found.length (f : Found) : Nat :=
  f.indent.length + 2 + f.mark.length + f.written.length + f.tail.length

/-- Looks for an entry at the start of a line; `marked` admits the mark. -/
def find? (form : Text → Option (Text × Text)) (marked : Bool) (s : Text) : Option Found := do
  let indent := s.takeWhile isBlankChar
  let r ← Text.after? "- " (s.dropWhile isBlankChar)
  let plain := (form r).map fun f => ⟨indent, [], f.1, f.2⟩
  if marked then
    match (Text.after? "override " r).bind form with
    | some f => some ⟨indent, "override ", f.1, f.2⟩
    | none => plain
  else plain

/-- Replaces every recognized entry and counts them. `skip` characters belong to the entry that
was replaced last, and `atStart` tells that a line begins. -/
def substitute (find : Text → Option Found) (new : Text) : (skip : Nat) → (atStart : Bool) →
    Text → Text × Nat
  | _, _, [] => ([], 0)
  | k + 1, _, c :: s => substitute find new k (c == '\n') s
  | 0, atStart, c :: s =>
    match if atStart then find (c :: s) else none with
    | some f =>
      let (out, n) := substitute find new (f.length - 1) (c == '\n') s
      (f.indent ++ "- " ++ f.mark ++ new ++ f.tail ++ out, n + 1)
    | none =>
      let (out, n) := substitute find new 0 (c == '\n') s
      (c :: out, n)

/-- A selection as a path, or as a bare name for a file beside the root document. -/
def Selection.asPath (s : Selection) : Text :=
  if s.group = Defaults.rootGroup then s.name else s.group ++ '/' :: s.name

/-- A selection as a mapping, or as a bare name for a file beside the root document. -/
def Selection.asMapping (s : Selection) : Text :=
  if s.group = Defaults.rootGroup then s.name else s.group ++ ": " ++ s.name

/-- The text with every entry for `old` changed to `new`, and the number of entries. -/
def entry (s : Text) (old new : Selection) : Text × Nat :=
  let (s, n) := substitute (find? (pathForm? old) true) new.asPath 0 true s
  let (s, m) := substitute (find? (mappingForm? old) true) new.asMapping 0 true s
  if old.group = Defaults.rootGroup then
    let (s, k) := substitute (find? (bareForm? old) false) new.asPath 0 true s
    (s, n + m + k)
  else (s, n + m)

/-- Why an entry cannot be rewritten. -/
inductive Fault where
  | noRootDocument
  | entryNotFound (old : Selection) (path : Path)
  | io (path : Path) (fault : FileFault)
deriving DecidableEq

def Fault.message : Fault → Text
  | .noRootDocument => "no root document is loaded"
  | .entryNotFound old path =>
    "could not find defaults entry for " ++ old.group ++ "/" ++ old.name ++ " in " ++ path
  | .io path fault => "I/O error on " ++ path ++ ": " ++ fault.message

/-- Rewrites an entry in a file; a file without one is left as it is. -/
def inFile (t : FileTree) (p : Path) (old new : Selection) : Except Fault (FileTree × Nat) := do
  let s ← (t.readText p).mapError (.io p)
  let (s, n) := entry s old new
  if n = 0 then .error (.entryNotFound old p)
  else
    let t ← (t.write p (.text s)).mapError (.io p)
    .ok (t, n)

end LayeredConfig.Rewrite
