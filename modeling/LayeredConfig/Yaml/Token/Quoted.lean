import LayeredConfig.Yaml.Cursor

/-!
# Quoted scalars

The text of a scalar in single or double quotes, with its escapes resolved and its line breaks
folded.
-/
namespace LayeredConfig.Yaml.Quoted

/-- The character of a one-letter escape. -/
def shortEscape? : Char → Option Char
  | '0' => some (.ofNat 0)
  | 'a' => some (.ofNat 0x07)
  | 'b' => some (.ofNat 0x08)
  | 't' | '\t' => some '\t'
  | 'n' => some '\n'
  | 'v' => some (.ofNat 0x0B)
  | 'f' => some (.ofNat 0x0C)
  | 'r' => some '\r'
  | 'e' => some (.ofNat 0x1B)
  | ' ' => some ' '
  | '"' => some '"'
  | '/' => some '/'
  | '\\' => some '\\'
  | 'N' => some (.ofNat 0x85)
  | '_' => some (.ofNat 0xA0)
  | 'L' => some (.ofNat 0x2028)
  | 'P' => some (.ofNat 0x2029)
  | _ => none

/-- The number of hexadecimal digits after a numeric escape's letter. -/
def escapeWidth? : Char → Option Nat
  | 'x' => some 2
  | 'u' => some 4
  | 'U' => some 8
  | _ => none

/-- The character after a backslash and how many characters its escape takes. -/
def escape? : Text → Option (Char × Nat)
  | [] => none
  | c :: r =>
    match shortEscape? c with
    | some x => some (x, 1)
    | none => do
      let width ← escapeWidth? c
      let ds := r.take width
      guard (ds.length = width)
      let n ← Text.digits? 16 ds
      guard (n.isValidChar)
      some (.ofNat n, width + 1)

/-- How a run of characters without white space ends. -/
inductive RunEnd where
  | gap
  | close
  | escapedBreak

/-- Reads characters up to white space, the closing quote or an escaped line break. -/
def run (single : Bool) : (fuel : Nat) → (out : Text) → Cursor →
    Except Fault (Text × RunEnd × Cursor)
  | 0, out, c => .ok (out, .gap, c)
  | fuel + 1, out, c =>
    match c.rest with
    | [] => .ok (out, .gap, c)
    | x :: r =>
      if isSpaceOrTab x || isBreak x then .ok (out, .gap, c)
      else if single then
        if x = '\'' then
          match r with
          | '\'' :: _ => run single fuel (out ++ ['\'']) (c.skip 2)
          | _ => .ok (out, .close, c.next)
        else run single fuel (out ++ [x]) c.next
      else if x = '"' then .ok (out, .close, c.next)
      else if x = '\\' then
        if r.head?.any isBreak then .ok (out, .escapedBreak, c.skip 2)
        else match escape? r with
          | some (e, n) => run single fuel (out ++ [e]) (c.skip (n + 1))
          | none => .error .lexical
      else run single fuel (out ++ [x]) c.next

/-- Reads the lines of a quoted scalar up to its closing quote. -/
def lines (single : Bool) : (fuel : Nat) → (out : Text) → Cursor → Except Fault (Text × Cursor)
  | 0, _, _ => .error .lexical
  | fuel + 1, out, c => do
    if c.atMarker || c.atEnd then .error .lexical
    else
      let (part, ending, c) ← run single (c.rest.length + 1) [] c
      let follow (g : Gap) : Except Fault (Text × Cursor) := do
        let (g, c) ← Gap.read 0 (c.rest.length + 1) g c
        lines single fuel (out ++ part ++ g.text) c
      match ending with
      | .close => .ok (out ++ part, c)
      | .gap => follow .empty
      | .escapedBreak => follow .escapedBreak

/-- Reads a scalar from its opening quote on. -/
def read (single : Bool) (c : Cursor) : Except Fault (Text × Cursor) :=
  lines single (c.rest.length + 1) [] c.next

end LayeredConfig.Yaml.Quoted
