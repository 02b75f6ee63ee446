import LayeredConfig.Text.Basic
import LayeredConfig.Yaml.Fault

/-!
# Reading position

The text that is still to be read with the line and column where it starts, and the classes of
characters that the lexer tells apart.
-/
namespace LayeredConfig.Yaml

/-- Line feed, line separator and paragraph separator. Other line ends are written as line
feeds before reading. -/
def isBreak (c : Char) : Bool := c == '\n' || c == '\u2028' || c == '\u2029'

def isSpaceOrTab (c : Char) : Bool := c == ' ' || c == '\t'

/-- Letters, digits, `_` and `-`, of ASCII. -/
def isWordChar (c : Char) : Bool := c.isAlphanum || c == '_' || c == '-'

/-- The characters a document may hold. -/
def isAllowed (c : Char) : Bool :=
  let n := c.toNat
  n == 0x09 || n == 0x0A || n == 0x0D || (0x20 ≤ n && n ≤ 0x7E) || n == 0x85 ||
    (0xA0 ≤ n && n ≤ 0xD7FF) || (0xE000 ≤ n && n ≤ 0xFFFD) || 0x10000 ≤ n

/-- `s` with CR LF, CR and NEL written as LF. -/
def normalizeBreaks : Text → Text
  | [] => []
  | '\r' :: '\n' :: s => '\n' :: normalizeBreaks s
  | c :: s => (if c = '\r' ∨ c = '\u0085' then '\n' else c) :: normalizeBreaks s

structure Cursor where
  rest : Text
  line : Nat
  column : Nat
deriving Inhabited

namespace Cursor

def start (s : Text) : Cursor := ⟨s, 0, 0⟩

/-- The position after one more character. -/
def next (c : Cursor) : Cursor :=
  match c.rest with
  | [] => c
  | x :: r => if isBreak x then ⟨r, c.line + 1, 0⟩ else ⟨r, c.line, c.column + 1⟩

def skip : (count : Nat) → Cursor → Cursor
  | 0, c => c
  | n + 1, c => skip n c.next

/-- The run of characters of a class that holds no line break, and the position after it. -/
def takeRun (p : Char → Bool) (c : Cursor) : Text × Cursor :=
  let run := c.rest.takeWhile p
  (run, ⟨c.rest.drop run.length, c.line, c.column + run.length⟩)

def skipRun (p : Char → Bool) (c : Cursor) : Cursor := (c.takeRun p).2

def peek (c : Cursor) : Option Char := c.rest.head?

def atEnd (c : Cursor) : Bool := c.rest.isEmpty

def atBreak (c : Cursor) : Bool := c.rest.head?.any isBreak

end Cursor

/-- Whether a text begins with white space or is at its end. -/
def gapAhead : Text → Bool
  | [] => true
  | c :: _ => isSpaceOrTab c || isBreak c

/-- Whether a document marker stands at the start of a line. -/
def Cursor.atMarker (c : Cursor) : Bool :=
  c.column = 0 &&
    match c.rest with
    | '-' :: '-' :: '-' :: r => gapAhead r
    | '.' :: '.' :: '.' :: r => gapAhead r
    | _ => false

/-- The white space between two parts of a scalar. -/
structure Gap where
  /-- Blanks before the first line break. -/
  blanks : Text
  /-- Whether there is a line break, also an escaped one. -/
  broken : Bool
  /-- The first line break; nothing if it is escaped. -/
  first : Text
  /-- The line breaks after it. -/
  more : Text

namespace Gap

def empty : Gap := ⟨[], false, [], []⟩

def escapedBreak : Gap := ⟨[], true, [], []⟩

/-- What the gap is folded to: blanks stand for themselves, one line break for a space, and of
several line breaks the first is dropped. -/
def text (g : Gap) : Text :=
  if g.broken then
    if g.first = ['\n'] then (if g.more.isEmpty then [' '] else g.more) else g.first ++ g.more
  else g.blanks

/-- Reads white space into the gap. A tab that stands before the column `indent` on a new line
is a fault. -/
def read (indent : Nat) : (fuel : Nat) → Gap → Cursor → Except Fault (Gap × Cursor)
  | 0, g, c => .ok (g, c)
  | fuel + 1, g, c =>
    match c.rest with
    | [] => .ok (g, c)
    | x :: _ =>
      if isSpaceOrTab x then
        if g.broken then
          if x = '\t' ∧ c.column < indent then .error .lexical else read indent fuel g c.next
        else read indent fuel { g with blanks := g.blanks ++ [x] } c.next
      else if isBreak x then
        if g.broken then read indent fuel { g with more := g.more ++ [x] } c.next
        else read indent fuel ⟨[], true, [x], []⟩ c.next
      else .ok (g, c)

end Gap
end LayeredConfig.Yaml
