import LayeredConfig.Yaml.Cursor

/-!
# Block scalars

Literal and folded scalars: the header with its indentation digit and chomping sign, and the
lines below it.
-/
namespace LayeredConfig.Yaml.Block

inductive Chomping where
  | strip
  | clip
  | keep
deriving DecidableEq

structure Header where
  literal : Bool
  chomping : Chomping
  /-- The indentation digit. -/
  digit : Option Nat

def chomping? : Char → Option Chomping
  | '+' => some .keep
  | '-' => some .strip
  | _ => none

def digit? (c : Char) : Option Nat :=
  if '0' ≤ c ∧ c ≤ '9' then some (c.toNat - '0'.toNat) else none

/-- The signs after the indicator, in either order, and how many there are. -/
def signs (r : Text) : Chomping × Option Nat × Nat :=
  match r with
  | [] => (.clip, none, 0)
  | a :: r =>
    match chomping? a, digit? a with
    | some ch, _ =>
      match r.head?.bind digit? with
      | some d => (ch, some d, 2)
      | none => (ch, none, 1)
    | none, some d =>
      match r.head?.bind chomping? with
      | some ch => (ch, some d, 2)
      | none => (.clip, some d, 1)
    | none, none => (.clip, none, 0)

/-- Reads the header line and its comment, up to and with its line break. -/
def header (c : Cursor) : Except Fault (Header × Cursor) :=
  let literal := c.peek = some '|'
  let c := c.next
  let (chomping, digit, count) := signs c.rest
  if digit = some 0 then .error .lexical
  else
    let c := (c.skip count).skipRun isSpaceOrTab
    let c := if c.peek = some '#' then c.skipRun (fun x => !isBreak x) else c
    if c.atEnd || c.atBreak then .ok (⟨literal, chomping, digit⟩, c.next) else .error .lexical

/-- Skips indentation up to `indent` columns, or any if none is known, and reads the line breaks
of empty lines. The largest column reached is in `widest`. -/
def emptyLines (indent : Option Nat) : (fuel : Nat) → (widest : Nat) → (out : Text) → Cursor →
    Except Fault (Nat × Text × Cursor)
  | 0, widest, out, c => .ok (widest, out, c)
  | fuel + 1, widest, out, c =>
    let open_ := match indent with
      | none => true
      | some n => c.column < n
    match c.rest with
    | ' ' :: _ =>
      if open_ then emptyLines indent fuel (max widest (c.column + 1)) out c.next
      else .ok (widest, out, c)
    | '\t' :: _ => if open_ then .error .lexical else .ok (widest, out, c)
    | x :: _ =>
      if isBreak x then emptyLines indent fuel widest (out ++ [x]) c.next
      else .ok (widest, out, c)
    | [] => .ok (widest, out, c)

/-- What has been read of the lines. -/
structure Lines where
  out : Text
  /-- The line break after the last line that holds something. -/
  lead : Text
  /-- The line breaks of the empty lines after it. -/
  more : Text
  /-- Whether that line begins with a blank. -/
  blankLine : Bool

/-- Reads the lines that begin in the column `indent`. In a folded scalar a single line break
between two lines that begin with no blank becomes a space, and the first of several is
dropped. -/
def body (literal : Bool) (indent : Nat) : (fuel : Nat) → Lines → Cursor →
    Except Fault (Lines × Cursor)
  | 0, l, c => .ok (l, c)
  | fuel + 1, l, c =>
    if c.column = indent ∧ ¬ c.atEnd then do
      let blank := c.peek.any isSpaceOrTab
      let joint :=
        if ¬ literal ∧ l.lead = ['\n'] ∧ ¬ l.blankLine ∧ ¬ blank then
          if l.more.isEmpty then [' '] else l.more
        else l.lead ++ l.more
      let (line, c) := c.takeRun fun x => !isBreak x
      let lead := c.rest.take 1
      let c := c.next
      let (_, more, c) ← emptyLines (some indent) (c.rest.length + 1) 0 [] c
      body literal indent fuel ⟨l.out ++ joint ++ line, lead, more, blank⟩ c
    else .ok (l, c)

/-- Reads a block scalar inside a block that is indented by `parent` columns, `-1` at the top
level. -/
def read (parent : Int) (c : Cursor) : Except Fault (Text × Cursor) := do
  let (h, c) ← header c
  let known := h.digit.map fun d => (if 0 ≤ parent then parent.toNat + d else d)
  let (widest, more, c) ← emptyLines known (c.rest.length + 1) 0 [] c
  let indent := known.getD (max widest (max (parent + 1).toNat 1))
  let (l, c) ← body h.literal indent (c.rest.length + 1) ⟨[], [], more, false⟩ c
  .ok (match h.chomping with
    | .strip => l.out
    | .clip => l.out ++ l.lead
    | .keep => l.out ++ l.lead ++ l.more, c)

end LayeredConfig.Yaml.Block
