import LayeredConfig.Yaml.Token.Basic

/-!
# Tags, anchors and directives

The tokens that begin with `!`, `&`, `*` and `%`.
-/
namespace LayeredConfig.Yaml

/-- The characters of a tag; flow indicators only where the tag is delimited. -/
def isTagChar (delimited : Bool) (c : Char) : Bool :=
  isWordChar c || [';', '/', '?', ':', '@', '&', '=', '+', '$', '.', '%', '!', '~', '*', '\'',
    '(', ')'].contains c || (delimited && (c == ',' || c == '[' || c == ']'))

/-- The bytes of a run of percent escapes. -/
def escapedBytes : Text → Option (List Nat)
  | [] => some []
  | '%' :: a :: b :: r => do
    let n ← Text.digits? 16 [a, b]
    let ns ← escapedBytes r
    some (n :: ns)
  | _ => none

/-- The length of a UTF-8 sequence by its first byte, and the bits that byte holds. -/
def leadByte? (b : Nat) : Option (Nat × Nat) :=
  if b < 0x80 then some (1, b)
  else if 0xC0 ≤ b ∧ b < 0xE0 then some (2, b - 0xC0)
  else if 0xE0 ≤ b ∧ b < 0xF0 then some (3, b - 0xE0)
  else if 0xF0 ≤ b ∧ b < 0xF8 then some (4, b - 0xF0)
  else none

/-- The character of a complete UTF-8 sequence. -/
def charOfBytes? : List Nat → Option Char
  | [] => none
  | b :: rest => do
    let (width, bits) ← leadByte? b
    guard (rest.length + 1 = width)
    guard (rest.all fun x => 0x80 ≤ x && x < 0xC0)
    let n := rest.foldl (fun acc x => acc * 64 + (x - 0x80)) bits
    guard n.isValidChar
    guard ((Char.ofNat n).utf8Size = width)
    some (.ofNat n)

/-- The text of a tag with its percent escapes resolved. -/
def tagText : (fuel : Nat) → Text → Option Text
  | 0, _ => some []
  | _, [] => some []
  | fuel + 1, c :: r =>
    if c = '%' then do
      let first ← escapedBytes ((c :: r).take 3)
      let (width, _) ← leadByte? (first.headD 0)
      let bytes ← escapedBytes ((c :: r).take (3 * width))
      let x ← charOfBytes? bytes
      let more ← tagText fuel (r.drop (3 * width - 1))
      some (x :: more)
    else (tagText fuel r).map (c :: ·)

/-- Reads the characters of a tag. -/
def readTagText (delimited : Bool) (c : Cursor) : Except Fault (Text × Cursor) :=
  let (raw, c) := c.takeRun (isTagChar delimited)
  match tagText (raw.length + 1) raw with
  | some s => .ok (s, c)
  | none => .error .lexical

/-- Reads a `!`, word characters and a closing `!`, if there is one. -/
def readHandle (c : Cursor) : Text × Cursor :=
  let (word, c) := c.next.takeRun isWordChar
  if c.peek = some '!' then ('!' :: word ++ ['!'], c.next) else ('!' :: word, c)

/-- Reads a tag from its `!` on. -/
def readTag (flow : Bool) (c : Cursor) : Except Fault (TagMark × Cursor) := do
  let (mark, c) ← match c.rest with
    | '!' :: '<' :: _ => do
      let (s, c) ← readTagText true (c.skip 2)
      if s.isEmpty || c.peek ≠ some '>' then .error .lexical else .ok (⟨[], s⟩, c.next)
    | _ => do
      let (handle, after) := readHandle c
      if 2 ≤ handle.length ∧ handle.getLast? = some '!' then
        let (s, c) ← readTagText false after
        if s.isEmpty then .error .lexical else .ok (⟨handle, s⟩, c)
      else
        let (s, c) ← readTagText false after
        let suffix := handle.drop 1 ++ s
        .ok (if suffix.isEmpty then ⟨[], ['!']⟩ else ⟨['!'], suffix⟩, c)
  if gapAhead c.rest || (flow && c.peek = some ',') then .ok (mark, c) else .error .lexical

/-- Reads the name of an anchor or a reference, after its sign. -/
def readAnchorName (c : Cursor) : Except Fault (Text × Cursor) :=
  let (name, c) := c.next.takeRun isWordChar
  let ends := gapAhead c.rest ||
    c.peek.any fun x => ['?', ':', ',', ']', '\x7d', '%', '@', '\x60'].contains x
  if name.isEmpty || ¬ ends then .error .lexical else .ok (name, c)

/-- Reads a number of at most nine digits. -/
def readVersionNumber (c : Cursor) : Except Fault (Nat × Cursor) :=
  let (ds, c) := c.takeRun Char.isDigit
  if 9 < ds.length then .error .lexical
  else match Text.digits? 10 ds with
    | some n => .ok (n, c)
    | none => .error .lexical

/-- Reads what stands in a directive line after its name. -/
def readDirectiveBody (name : Text) (c : Cursor) : Except Fault (Token × Cursor) := do
  let c := c.skipRun isSpaceOrTab
  if name = "YAML".toList then
    let (major, c) ← readVersionNumber c
    if c.peek = some '.' then
      let (minor, c) ← readVersionNumber c.next
      .ok (.versionDirective major minor, c)
    else .error .lexical
  else if name = "TAG".toList then
    if c.peek ≠ some '!' then .error .lexical
    else
      let (handle, c) := readHandle c
      if handle.getLast? ≠ some '!' || ¬ c.peek.any isSpaceOrTab then .error .lexical
      else
        let (lead, c) ← readTagText true (c.skipRun isSpaceOrTab)
        if lead.isEmpty || ¬ gapAhead c.rest then .error .lexical
        else .ok (.tagDirective handle lead, c)
  else .error .lexical

/-- Reads a directive line from its `%` on. -/
def readDirective (c : Cursor) : Except Fault (Token × Cursor) := do
  let (name, c) := c.next.takeRun isWordChar
  if name.isEmpty || ¬ gapAhead c.rest then .error .lexical
  else
    let (token, c) ← readDirectiveBody name c
    let c := c.skipRun isSpaceOrTab
    let c := if c.peek = some '#' then c.skipRun (fun x => !isBreak x) else c
    if c.atEnd || c.atBreak then .ok (token, c.next) else .error .lexical

end LayeredConfig.Yaml
