import LayeredConfig.Yaml.Printer.Style

/-!
# The pen

What has been written, and what the next mark depends on: the column, whether white space was
written last, and whether the line so far holds only indentation and indicators.
-/
namespace LayeredConfig.Yaml.Printer

structure Pen where
  /-- The text so far, the latest character first. -/
  written : Text
  column : Nat
  spaced : Bool
  fresh : Bool

namespace Pen

def start : Pen := ⟨[], 0, true, true⟩

def text (p : Pen) : Text := p.written.reverse

def put (p : Pen) (c : Char) : Pen := { p with written := c :: p.written, column := p.column + 1 }

def putText (p : Pen) (s : Text) : Pen := s.foldl put p

/-- Writes a line break, which is a line feed unless it is another character of that kind. -/
def putBreak (p : Pen) (c : Char) : Pen := { p with written := c :: p.written, column := 0 }

/-- Goes to the given column, on a new line if this one is in use. -/
def indent (p : Pen) (column : Nat) : Pen :=
  let p := if ¬ p.fresh || p.column > column || (p.column = column && ¬ p.spaced) then
    p.putBreak '\n' else p
  let p := p.putText (List.replicate (column - p.column) ' ')
  { p with spaced := true, fresh := true }

/-- Writes an indicator; `apart` asks for white space before it, and the line stays fresh only
behind a `leading` one. -/
def indicator (p : Pen) (s : Text) (apart leading : Bool) : Pen :=
  let p := if apart && ¬ p.spaced then p.put ' ' else p
  { p.putText s with spaced := false, fresh := p.fresh && leading }

/-- The digits of a number in base 16, with upper case letters and leading zeros. -/
def hex (width n : Nat) : Text :=
  let ds := (Nat.toDigits 16 n).map Char.toUpper
  List.replicate (width - ds.length) '0' ++ ds

/-- The escape of a character in double quotes. -/
def escape (c : Char) : Text :=
  let n := c.toNat
  match n with
  | 0x00 => "\\0"
  | 0x07 => "\\a"
  | 0x08 => "\\b"
  | 0x09 => "\\t"
  | 0x0A => "\\n"
  | 0x0B => "\\v"
  | 0x0C => "\\f"
  | 0x0D => "\\r"
  | 0x1B => "\\e"
  | 0x22 => "\\\""
  | 0x5C => "\\\\"
  | 0x85 => "\\N"
  | 0xA0 => "\\_"
  | 0x2028 => "\\L"
  | 0x2029 => "\\P"
  | _ =>
    if n ≤ 0xFF then '\\' :: 'x' :: hex 2 n
    else if n ≤ 0xFFFF then '\\' :: 'u' :: hex 4 n
    else '\\' :: 'U' :: hex 8 n

def needsEscape (c : Char) : Bool :=
  ¬ isPrintable c || isBreak c || c == '"' || c == '\\'

def plain (p : Pen) (s : Text) : Pen :=
  let p := if ¬ p.spaced && ¬ s.isEmpty then p.put ' ' else p
  { p.putText s with spaced := false, fresh := false }

/-- Writes the characters between single quotes; `broken` tells that a line break came last. -/
def singleBody (column : Nat) : (broken : Bool) → Text → Pen → Pen
  | broken, [], p => if broken then p.indent column else p
  | broken, c :: s, p =>
    if c = ' ' then singleBody column broken s (p.put c)
    else if isBreak c then
      let p := if ¬ broken && c == '\n' then p.putBreak '\n' else p
      singleBody column true s { p.putBreak c with fresh := true }
    else
      let p := if broken then p.indent column else p
      let p := if c = '\'' then p.put '\'' else p
      singleBody column false s { p.put c with fresh := false }

def single (p : Pen) (column : Nat) (s : Text) : Pen :=
  let p := singleBody column false s (p.indicator ['\''] true false)
  { p.indicator ['\''] false false with spaced := false, fresh := false }

def double (p : Pen) (s : Text) : Pen :=
  let p := p.indicator ['"'] true false
  let p := p.putText (s.flatMap fun c => if needsEscape c then escape c else [c])
  { p.indicator ['"'] false false with spaced := false, fresh := false }

/-- The signs of a literal block: an indentation digit where the text begins with white space,
and how its last line breaks are kept. -/
def literalSigns (s : Text) : Text :=
  let digit : Text := if s.head?.any (fun c => c == ' ' || isBreak c) then ['2'] else []
  let ends : Text := match s.reverse with
    | [] => ['-']
    | c :: r =>
      if ¬ isBreak c then ['-'] else if r.head?.all isBreak then ['+'] else []
  digit ++ ends

/-- Writes the lines of a literal block; `broken` tells that a line begins. -/
def literalBody (column : Nat) : (broken : Bool) → Text → Pen → Pen
  | _, [], p => p
  | broken, c :: s, p =>
    if isBreak c then literalBody column true s { p.putBreak c with fresh := true }
    else
      let p := if broken then p.indent column else p
      literalBody column false s { p.put c with fresh := false }

def literal (p : Pen) (column : Nat) (s : Text) : Pen :=
  let p := (p.indicator ['|'] true false).indicator (literalSigns s) false false
  literalBody column true s { p.putBreak '\n' with spaced := true, fresh := true }

/-- Writes a scalar in a style; its further lines begin in the given column. -/
def scalar (p : Pen) (column : Nat) (style : Style) (s : Text) : Pen :=
  match style with
  | .plain => p.plain s
  | .single => p.single column s
  | .double => p.double s
  | .literal => p.literal column s

end Pen
end LayeredConfig.Yaml.Printer
