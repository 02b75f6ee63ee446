import LayeredConfig.Json.Basic

/-!
# Reading JSON

One value with white space around it. Each reader returns the rest of the text, or nothing where
the text is no JSON.
-/
namespace LayeredConfig.JsonValue

def isSpace (c : Char) : Bool := c = ' ' || c = '\n' || c = '\r' || c = '\t'

def skipSpace (s : Text) : Text := s.dropWhile isSpace

/-- The number that four hexadecimal digits stand for. -/
def unit? : Text → Option (Nat × Text)
  | a :: b :: c :: d :: r => (Text.digits? 16 [a, b, c, d]).map (·, r)
  | _ => none

def isLeading (unit : Nat) : Bool := 0xD800 ≤ unit && unit ≤ 0xDBFF

def isTrailing (unit : Nat) : Bool := 0xDC00 ≤ unit && unit ≤ 0xDFFF

/-- An escaped trailing surrogate at the start of a text. -/
def trailing? : Text → Option (Nat × Text)
  | '\\' :: 'u' :: r => (unit? r).filter fun p => isTrailing p.1
  | _ => none

def combine (leading trailing : Nat) : Char :=
  Char.ofNat ((leading - 0xD800) * 0x400 + (trailing - 0xDC00) + 0x10000)

/-- The character that an escape of one letter stands for. -/
def escaped? : Char → Option Char
  | '"' => some '"'
  | '\\' => some '\\'
  | '/' => some '/'
  | 'b' => some '\x08'
  | 'f' => some '\x0c'
  | 'n' => some '\n'
  | 'r' => some '\r'
  | 't' => some '\t'
  | _ => none

def cons (c : Char) (p : JsonText × Text) : JsonText × Text := (p.1.map (c :: ·), p.2)

/-- What stands up to the closing quote. -/
def quoted? : (fuel : Nat) → Text → Option (JsonText × Text)
  | 0, _ => none
  | _ + 1, [] => none
  | _ + 1, '"' :: r => some (some [], r)
  | n + 1, '\\' :: 'u' :: r => do
    let (unit, r) ← unit? r
    if isTrailing unit then (quoted? n r).map fun p => (none, p.2)
    else if isLeading unit then
      match trailing? r with
      | some (low, r) => (quoted? n r).map (cons (combine unit low))
      | none => (quoted? n r).map fun p => (none, p.2)
    else (quoted? n r).map (cons (Char.ofNat unit))
  | _ + 1, ['\\'] => none
  | n + 1, '\\' :: c :: r => do
    let c ← escaped? c
    (quoted? n r).map (cons c)
  | n + 1, c :: r => if c.toNat < 0x20 then none else (quoted? n r).map (cons c)

def isDigit (c : Char) : Bool := '0' ≤ c && c ≤ '9'

/-- A nonempty run of digits. -/
def digits? (s : Text) : Option (Text × Text) :=
  match s.takeWhile isDigit with
  | [] => none
  | ds => some (ds, s.dropWhile isDigit)

/-- Digits without a leading zero. -/
def whole? : Text → Option (Text × Text)
  | '0' :: r => if (r.head?.map isDigit).getD false then none else some (['0'], r)
  | s => digits? s

def fraction? : Text → Option (Text × Text)
  | '.' :: r => (digits? r).map fun p => ('.' :: p.1, p.2)
  | s => some ([], s)

def power? : Text → Option (Text × Text)
  | [] => some ([], [])
  | e :: r =>
    if e = 'e' ∨ e = 'E' then
      match r with
      | '+' :: r => (digits? r).map fun p => (e :: '+' :: p.1, p.2)
      | '-' :: r => (digits? r).map fun p => (e :: '-' :: p.1, p.2)
      | r => (digits? r).map fun p => (e :: p.1, p.2)
    else some ([], e :: r)

def number? (s : Text) : Option (Text × Text) := do
  let (sign, s) : Text × Text := match s with
    | '-' :: r => (['-'], r)
    | s => ([], s)
  let (whole, s) ← whole? s
  let (fraction, s) ← fraction? s
  let (power, s) ← power? s
  some (sign ++ whole ++ fraction ++ power, s)

mutual

def readValue? : (fuel : Nat) → Text → Option (JsonValue × Text)
  | 0, _ => none
  | n + 1, s =>
    match skipSpace s with
    | '"' :: r => (quoted? (r.length + 1) r).map fun p => (.string p.1, p.2)
    | '[' :: r =>
      match skipSpace r with
      | ']' :: r => some (.array [], r)
      | r => (readItems? n r).map fun p => (.array p.1, p.2)
    | '\x7b' :: r =>
      match skipSpace r with
      | '\x7d' :: r => some (.object [], r)
      | r => (readEntries? n r).map fun p => (.object p.1, p.2)
    | s =>
      match Text.after? "null" s, Text.after? "true" s, Text.after? "false" s with
      | some r, _, _ => some (.null, r)
      | _, some r, _ => some (.bool true, r)
      | _, _, some r => some (.bool false, r)
      | none, none, none => (number? s).map fun p => (.number p.1, p.2)

/-- The items up to a closing bracket, of which there is at least one. -/
def readItems? : (fuel : Nat) → Text → Option (List JsonValue × Text)
  | 0, _ => none
  | n + 1, s => do
    let (v, r) ← readValue? n s
    match skipSpace r with
    | ']' :: r => some ([v], r)
    | ',' :: r => (readItems? n r).map fun p => (v :: p.1, p.2)
    | _ => none

/-- The entries up to a closing brace, of which there is at least one. -/
def readEntries? : (fuel : Nat) → Text → Option (List (JsonText × JsonValue) × Text)
  | 0, _ => none
  | n + 1, s =>
    match skipSpace s with
    | '"' :: r => do
      let (key, r) ← quoted? (r.length + 1) r
      match skipSpace r with
      | ':' :: r =>
        let (v, r) ← readValue? n r
        match skipSpace r with
        | '\x7d' :: r => some ([(key, v)], r)
        | ',' :: r => (readEntries? n r).map fun p => ((key, v) :: p.1, p.2)
        | _ => none
      | _ => none
    | _ => none

end

/-- The value that a text holds. -/
def read? (s : Text) : Option JsonValue := do
  let (v, r) ← readValue? (2 * s.length + 2) s
  if (skipSpace r).isEmpty then some v else none

end LayeredConfig.JsonValue
