import LayeredConfig.Yaml.Printer.Pen

/-!
# Writing documents

Block style with two columns of indentation. A sequence that is the value of a mapping stands in
the mapping's own column. A key that fits on its line is followed by a colon; any other key gets
a question mark and its value a line with a colon.
-/
namespace LayeredConfig.Yaml

/-- The bytes of a character in UTF-8. -/
def utf8Bytes (c : Char) : List Nat :=
  let n := c.toNat
  if n < 0x80 then [n]
  else if n < 0x800 then [0xC0 + n / 64, 0x80 + n % 64]
  else if n < 0x10000 then [0xE0 + n / 4096, 0x80 + n / 64 % 64, 0x80 + n % 64]
  else [0xF0 + n / 262144, 0x80 + n / 4096 % 64, 0x80 + n / 64 % 64, 0x80 + n % 64]

namespace Printer

/-- The characters of a tag that are written as they are. -/
def isTagLiteral (c : Char) : Bool :=
  isWordChar c || [';', '/', '?', ':', '@', '&', '=', '+', '$', ',', '.', '~', '*', '\'', '(', ')',
    '[', ']'].contains c

def tagSuffix (name : Text) : Text :=
  name.flatMap fun c =>
    if isTagLiteral c then [c] else (utf8Bytes c).flatMap fun b => '%' :: Pen.hex 2 b

/-- The written form of a tag. -/
def tagText (name : Text) : Text :=
  if name = ['!'] then "!<%21>" else '!' :: tagSuffix name

/-- Writes the tag of a node. -/
def putTag (p : Pen) : Option Text → Pen
  | none => p
  | some name => p.indicator (tagText name) true false

/-- The text and the wanted style of a scalar. -/
def scalar? : Value → Option (Text × Style)
  | .null => some ("null", .plain)
  | .bool true => some ("true", .plain)
  | .bool false => some ("false", .plain)
  | .number n => some (n.text, .plain)
  | .string s => some (s, .wanted s)
  | .sequence [] => some ("[]", .plain)
  | .mapping [] => some ("\x7b\x7d", .plain)
  | _ => none

/-- The longest key, in bytes, that is written on the line of its value. -/
def keyLimit : Nat := 128

/-- The bytes a tag adds to the length of a key. -/
def tagLength (tag : Option Text) : Nat :=
  match tag with
  | none => 0
  | some ['!'] => 1
  | some name => 1 + Text.byteLength name

def isSimpleKeyUnder (tag : Option Text) (v : Value) : Bool :=
  match v with
  | .sequence [] | .mapping [] => tagLength tag ≤ keyLimit
  | v =>
    match scalar? v with
    | some (s, _) => ¬ (Shape.of s).multiline && tagLength tag + Text.byteLength s ≤ keyLimit
    | none => false

/-- Whether a key is written on the line of its value. -/
def isSimpleKey : Value → Bool
  | .tagged tag v => isSimpleKeyUnder (some tag) v
  | v => isSimpleKeyUnder none v

/-- Where a node is written. -/
structure Place where
  /-- The column of the block around it, nothing at the top level. -/
  indent : Option Nat
  /-- Whether it belongs to a mapping. -/
  inMapping : Bool
  simpleKey : Bool

def Place.inner (i : Option Nat) : Nat :=
  match i with
  | none => 0
  | some n => n + 2

mutual
/-- Writes a node under the tag it has, if any. -/
def putUnder (tag : Option Text) (at_ : Place) : Value → Pen → Pen
  | .tagged name v, p => putUnder (some name) at_ v p
  | .sequence [], p => ((putTag p tag).indicator ['['] true false).indicator [']'] false false
  | .mapping [], p =>
    ((putTag p tag).indicator ['\x7b'] true false).indicator ['\x7d'] false false
  | .sequence (v :: rest), p =>
    let p := putTag p tag
    let column := match at_.indent with
      | some n => if at_.inMapping && ¬ p.fresh then n else n + 2
      | none => 0
    putItems column (v :: rest) p
  | .mapping (e :: rest), p => putEntries (Place.inner at_.indent) (e :: rest) (putTag p tag)
  | v, p =>
    match scalar? v with
    | none => p
    | some (s, wanted) =>
      let style := Style.fit (Shape.of s) s.isEmpty at_.simpleKey wanted
      (putTag p tag).scalar (match at_.indent with
        | none => 2
        | some n => n + 2) style s

def putItems (column : Nat) : List Value → Pen → Pen
  | [], p => p
  | v :: rest, p =>
    let p := (p.indent column).indicator ['-'] true true
    putItems column rest (putUnder none ⟨some column, false, false⟩ v p)

def putEntries (column : Nat) : List (Value × Value) → Pen → Pen
  | [], p => p
  | (k, v) :: rest, p =>
    let p := p.indent column
    let p :=
      if isSimpleKey k then
        (putUnder none ⟨some column, true, true⟩ k p).indicator [':'] false false
      else
        let p := putUnder none ⟨some column, true, false⟩ k (p.indicator ['?'] true true)
        (p.indent column).indicator [':'] true true
    putEntries column rest (putUnder none ⟨some column, true, false⟩ v p)
end

/-- Whether a key, as the only one of its mapping, leaves no place for the mapping's start. -/
def hidesStart : Value → Bool
  | .tagged .. => true
  | .mapping [_] => true
  | _ => false

mutual
/-- Whether a node can be written. A mapping of one entry whose key is tagged or again a mapping
of one entry cannot, unless it is tagged itself. -/
def isWritable (tagged : Bool) : Value → Bool
  | .tagged _ v => isWritable true v
  | .sequence items => areWritable items
  | .mapping [(k, v)] =>
    (tagged || ¬ hidesStart k) && isWritable false k && isWritable false v
  | .mapping entries => entriesWritable entries
  | _ => true

def areWritable : List Value → Bool
  | [] => true
  | v :: rest => isWritable false v && areWritable rest

def entriesWritable : List (Value × Value) → Bool
  | [] => true
  | (k, v) :: rest => isWritable false k && isWritable false v && entriesWritable rest
end

end Printer

/-- The text of a document; nothing if its value cannot be written. -/
def render? (v : Value) : Option Text :=
  if Printer.isWritable false v then
    let p := Printer.putUnder none ⟨none, false, false⟩ v .start
    some (p.indent 0).text
  else none

end LayeredConfig.Yaml
