import LayeredConfig.Yaml.Token.Quoted
import LayeredConfig.Yaml.Token.Block
import LayeredConfig.Yaml.Token.Plain
import LayeredConfig.Yaml.Token.Tag

/-!
# From text to tokens

The lexer keeps the columns of the open blocks and, for each level of brackets, the place where
a key could have begun. A colon makes such a candidate a key after the fact: the key token, and
with it a new block if the column asks for one, goes in front of the candidate.
-/
namespace LayeredConfig.Yaml

/-- A token that could turn out to begin a key. -/
structure Candidate where
  /-- The number of tokens before it. -/
  position : Nat
  line : Nat
  column : Nat
  /-- Whether nothing but a key can stand there. -/
  required : Bool
deriving Inhabited

structure Lexer where
  cursor : Cursor
  /-- The tokens so far, the latest first. -/
  tokens : List Token
  /-- The column of the innermost block, `-1` outside all blocks. -/
  indent : Int
  /-- The columns of the blocks around it, innermost first. -/
  outer : List Int
  /-- The candidate of the innermost brackets. -/
  candidate : Option Candidate
  /-- The candidates of the brackets around them, one for each open bracket. -/
  candidates : List (Option Candidate)
  /-- Whether a key may begin here. -/
  keyAllowed : Bool

namespace Lexer

def start (s : Text) : Lexer :=
  { cursor := .start s, tokens := [], indent := -1, outer := [], candidate := none,
    candidates := [], keyAllowed := true }

/-- Whether the position is inside brackets. -/
def inFlow (l : Lexer) : Bool := ¬ l.candidates.isEmpty

def emit (l : Lexer) (t : Token) : Lexer := { l with tokens := t :: l.tokens }

/-- Puts a token behind the first `position` ones. -/
def emitAt (l : Lexer) (position : Nat) (t : Token) : Lexer :=
  let later := l.tokens.length - position
  { l with tokens := l.tokens.take later ++ t :: l.tokens.drop later }

/-- Opens a block in a column to the right of the innermost one. -/
def openBlock (l : Lexer) (column position : Nat) (t : Token) : Lexer :=
  if l.inFlow then l
  else if l.indent < column then
    { l.emitAt position t with outer := l.indent :: l.outer, indent := column }
  else l

/-- Closes the blocks to the right of a column. -/
def closeBlocks (column : Int) : (fuel : Nat) → Lexer → Lexer
  | 0, l => l
  | fuel + 1, l =>
    if l.indent ≤ column then l
    else closeBlocks column fuel
      { l.emit .blockEnd with indent := l.outer.headD (-1), outer := l.outer.drop 1 }

def unindent (l : Lexer) (column : Int) : Lexer :=
  if l.inFlow then l else closeBlocks column (l.outer.length + 1) l

def dropCandidate (l : Lexer) : Except Fault Lexer :=
  match l.candidate with
  | some k => if k.required then .error .lexical else .ok { l with candidate := none }
  | none => .ok l

/-- Notes that a key could begin at the next token. -/
def noteCandidate (l : Lexer) : Except Fault Lexer :=
  if l.keyAllowed then do
    let l ← l.dropCandidate
    let required := ¬ l.inFlow && l.indent = l.cursor.column
    .ok { l with candidate := some ⟨l.tokens.length, l.cursor.line, l.cursor.column, required⟩ }
  else .ok l

/-- Whether a candidate can no longer be a key: a key lies on one line and has at most 1024
characters. -/
def isStale (c : Cursor) (k : Candidate) : Bool := k.line < c.line || k.column + 1024 < c.column

def dropStale (l : Lexer) : Except Fault Lexer :=
  let check (k : Option Candidate) : Except Fault (Option Candidate) :=
    match k with
    | some k =>
      if isStale l.cursor k then (if k.required then .error .lexical else .ok none)
        else .ok (some k)
    | none => .ok none
  do
    let candidates ← l.candidates.mapM check
    let candidate ← check l.candidate
    .ok { l with candidate, candidates }

/-- Skips white space, comments and line breaks, and a byte order mark at the start of the text,
which takes a column. Outside brackets a key may begin on a new line; where one may begin, tabs are
no white space. -/
def skipGap : (fuel : Nat) → Lexer → Lexer
  | 0, l => l
  | fuel + 1, l =>
    let c := l.cursor
    let c := if c.column = 0 ∧ c.line = 0 ∧ c.peek = some '\ufeff' then c.next else c
    let c := c.skipRun fun x => x == ' ' || ((l.inFlow || ¬ l.keyAllowed) && x == '\t')
    let c := if c.peek = some '#' then c.skipRun (fun x => !isBreak x) else c
    if c.atBreak then
      skipGap fuel { l with cursor := c.next, keyAllowed := l.keyAllowed || ¬ l.inFlow }
    else { l with cursor := c }

def openFlow (l : Lexer) (t : Token) : Except Fault Lexer := do
  let l ← l.noteCandidate
  .ok { l.emit t with
    candidates := l.candidate :: l.candidates, candidate := none, keyAllowed := true,
    cursor := l.cursor.next }

def closeFlow (l : Lexer) (t : Token) : Except Fault Lexer := do
  let l ← l.dropCandidate
  let l := match l.candidates with
    | k :: rest => { l with candidate := k, candidates := rest }
    | [] => l
  .ok { l.emit t with keyAllowed := false, cursor := l.cursor.next }

def flowEntry (l : Lexer) : Except Fault Lexer := do
  let l ← l.dropCandidate
  .ok { l.emit .flowEntry with keyAllowed := true, cursor := l.cursor.next }

/-- Opens a block at the position itself, where a key may begin. -/
def openBlockHere (l : Lexer) (t : Token) : Except Fault Lexer :=
  if l.inFlow then .ok l
  else if l.keyAllowed then .ok (l.openBlock l.cursor.column l.tokens.length t)
  else .error .lexical

def blockEntry (l : Lexer) : Except Fault Lexer := do
  let l ← l.openBlockHere .blockSequenceStart
  let l ← l.dropCandidate
  .ok { l.emit .blockEntry with keyAllowed := true, cursor := l.cursor.next }

def key (l : Lexer) : Except Fault Lexer := do
  let l ← l.openBlockHere .blockMappingStart
  let l ← l.dropCandidate
  .ok { l.emit .key with keyAllowed := ¬ l.inFlow, cursor := l.cursor.next }

/-- A colon: turns the candidate into a key if there is one. -/
def value (l : Lexer) : Except Fault Lexer :=
  match l.candidate with
  | some k =>
    let l := (l.emitAt k.position .key).openBlock k.column k.position .blockMappingStart
    .ok { l.emit .value with candidate := none, keyAllowed := false, cursor := l.cursor.next }
  | none => do
    let l ← l.openBlockHere .blockMappingStart
    .ok { l.emit .value with keyAllowed := ¬ l.inFlow, cursor := l.cursor.next }

/-- A token that can begin a key and after which none can begin. -/
def node (l : Lexer) (read : Cursor → Except Fault (Token × Cursor)) : Except Fault Lexer := do
  let l ← l.noteCandidate
  let (t, c) ← read l.cursor
  .ok { l.emit t with keyAllowed := false, cursor := c }

def plain (l : Lexer) : Except Fault Lexer := do
  let l ← l.noteCandidate
  let (s, broken, c) ← Plain.read l.inFlow l.indent l.cursor
  .ok { l.emit (.scalar s true) with keyAllowed := broken, cursor := c }

def blockScalar (l : Lexer) : Except Fault Lexer := do
  let l ← l.dropCandidate
  let (s, c) ← Block.read l.indent l.cursor
  .ok { l.emit (.scalar s false) with keyAllowed := true, cursor := c }

/-- A token that stands outside all blocks. -/
def outside (l : Lexer) : Except Fault Lexer := do
  let l ← (l.unindent (-1)).dropCandidate
  .ok { l with keyAllowed := false }

def directive (l : Lexer) : Except Fault Lexer := do
  let l ← l.outside
  let (t, c) ← readDirective l.cursor
  .ok { l.emit t with cursor := c }

def marker (l : Lexer) (t : Token) : Except Fault Lexer := do
  let l ← l.outside
  .ok { l.emit t with cursor := l.cursor.skip 3 }

/-- Whether a plain scalar may begin with `x`, before the text `r`. -/
def beginsPlain (flow : Bool) (x : Char) (r : Text) : Bool :=
  ¬ (isSpaceOrTab x || isBreak x || ['-', '?', ':', ',', '[', ']', '\x7b', '\x7d', '#', '&', '*',
    '!', '|', '>', '\'', '"', '%', '@', '\x60'].contains x) ||
    (x == '-' && ¬ r.head?.any isSpaceOrTab) ||
    (¬ flow && (x == '?' || x == ':') && ¬ gapAhead r)

/-- Reads the token that begins with `x`. -/
def token (l : Lexer) (x : Char) (r : Text) : Except Fault Lexer :=
  let flow := l.inFlow
  if l.cursor.column = 0 && x == '%' then l.directive
  else if l.cursor.atMarker then l.marker (if x = '-' then .documentStart else .documentEnd)
  else if x == '[' then l.openFlow .flowSequenceStart
  else if x == '\x7b' then l.openFlow .flowMappingStart
  else if x == ']' then l.closeFlow .flowSequenceEnd
  else if x == '\x7d' then l.closeFlow .flowMappingEnd
  else if x == ',' then l.flowEntry
  else if x == '-' && gapAhead r then l.blockEntry
  else if x == '?' && (flow || gapAhead r) then l.key
  else if x == ':' && (flow || gapAhead r) then l.value
  else if x == '*' then l.node fun c => (readAnchorName c).map fun p => (.alias p.1, p.2)
  else if x == '&' then l.node fun c => (readAnchorName c).map fun p => (.anchor p.1, p.2)
  else if x == '!' then l.node fun c => (readTag flow c).map fun p => (.tag p.1, p.2)
  else if (x == '|' || x == '>') && ¬ flow then l.blockScalar
  else if x == '\'' || x == '"' then
    l.node fun c => (Quoted.read (x == '\'') c).map fun p => (.scalar p.1 false, p.2)
  else if beginsPlain flow x r then l.plain
  else .error .lexical

/-- Reads all tokens. -/
def run : (fuel : Nat) → Lexer → Except Fault (List Token)
  | 0, _ => .error .lexical
  | fuel + 1, l => do
    let l ← (skipGap (l.cursor.rest.length + 1) l).dropStale
    let l := l.unindent l.cursor.column
    match l.cursor.rest with
    | [] =>
      let l ← l.outside
      .ok l.tokens.reverse
    | x :: r =>
      let l ← l.token x r
      run fuel l

end Lexer

/-- The tokens of a text. -/
def tokens (s : Text) : Except Fault (List Token) :=
  if s.all isAllowed then
    let s := normalizeBreaks s
    Lexer.run (s.length + 2) (.start s)
  else .error .character

end LayeredConfig.Yaml
