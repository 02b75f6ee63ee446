import LayeredConfig.Yaml.Value

/-!
# Types of plain scalars

What a scalar without quotes stands for. Decimal digits with a leading zero are no number, and
neither is a decimal text that no finite double is near to.
-/
namespace LayeredConfig.Yaml.Scalar

def isNullWord (s : Text) : Bool :=
  s = "null".toList || s = "Null".toList || s = "NULL".toList || s = "~".toList

def bool? (s : Text) : Option Bool :=
  if s = "true".toList || s = "True".toList || s = "TRUE".toList then some true
  else if s = "false".toList || s = "False".toList || s = "FALSE".toList then some false
  else none

/-- Whether `s`, apart from a sign, is a zero followed by more digits. -/
def hasLeadingZero (s : Text) : Bool :=
  let body := match s with
    | '-' :: r => r
    | '+' :: r => r
    | _ => s
  match body with
  | '0' :: d :: r => (d :: r).all Char.isDigit
  | _ => false

/-- The magnitude of an integer with its radix mark, or in decimal without one. -/
def magnitude? (s : Text) : Option Nat :=
  let marked : Option Nat := match s with
    | '0' :: 'x' :: r => Text.digits? 16 r
    | '0' :: 'o' :: r => Text.digits? 8 r
    | '0' :: 'b' :: r => Text.digits? 2 r
    | _ => none
  marked.orElse fun _ => Text.digits? 10 s

/-- The sign and the magnitude of an integer: whether it is negative, and its absolute value. -/
def signed? (s : Text) : Option (Bool × Nat) :=
  if hasLeadingZero s then none
  else match s with
    | '-' :: r => (magnitude? r).map (true, ·)
    | '+' :: r => (magnitude? r).map (false, ·)
    | _ => (magnitude? s).map (false, ·)

/-- Whether an integer fits into a word of the given width, signed if it is negative. -/
def fits (width : Nat) (n : Bool × Nat) : Bool :=
  if n.1 then n.2 ≤ Nat.pow 2 (width - 1) else n.2 < Nat.pow 2 width

/-- An integer, if `s` is the text of one and it has 64 bits. -/
def int? (s : Text) : Option Int :=
  match signed? s with
  | some n => if fits 64 n then some (if n.1 then -(n.2 : Int) else n.2) else none
  | none => none

/-- Whether `s` is an integer of more than 64 and at most 128 bits, which has no type. -/
def isWideInt (s : Text) : Bool :=
  match signed? s with
  | some n => ¬ fits 64 n && fits 128 n
  | none => false

/-- An exponent with its sign. -/
def exponent? (s : Text) : Option Int :=
  match s with
  | '-' :: r => (Text.digits? 10 r).map fun n => -(n : Int)
  | '+' :: r => (Text.digits? 10 r).map Int.ofNat
  | _ => (Text.digits? 10 s).map Int.ofNat

/-- A decimal number without a sign: digits with or without a point and an exponent. -/
def decimal? (negative : Bool) (s : Text) : Option Double := do
  let whole := s.takeWhile Char.isDigit
  let r := s.dropWhile Char.isDigit
  let (frac, r) := match r with
    | '.' :: t => (t.takeWhile Char.isDigit, t.dropWhile Char.isDigit)
    | _ => ([], r)
  let mantissa ← Text.digits? 10 (whole ++ frac)
  let power ← match r with
    | [] => some 0
    | c :: t => if c = 'e' ∨ c = 'E' then exponent? t else none
  some (.ofDecimal negative mantissa (power - frac.length))

/-- A double, if `s` is the text of one. -/
def float? (s : Text) : Option Double :=
  let body := match s with
    | '+' :: r => r
    | _ => s
  if body = ".inf".toList || body = ".Inf".toList || body = ".INF".toList then
    some (.infinite false)
  else if s = "-.inf".toList || s = "-.Inf".toList || s = "-.INF".toList then
    some (.infinite true)
  else if s = ".nan".toList || s = ".NaN".toList || s = ".NAN".toList then some .nan
  else
    let d := match s with
      | '+' :: r => decimal? false r
      | '-' :: r => decimal? true r
      | _ => decimal? false s
    d.filter Double.isFinite

/-- The value of a scalar without quotes; nothing for an integer that has no type. -/
def plain? (s : Text) : Option Value :=
  if s.isEmpty || isNullWord s then some .null
  else match bool? s with
    | some b => some (.bool b)
    | none =>
      match int? s with
      | some i => some (.number (.int i))
      | none =>
        if isWideInt s then none
        else if hasLeadingZero s then some (.string s)
        else match float? s with
          | some d => some (.number (.float d))
          | none => some (.string s)

end LayeredConfig.Yaml.Scalar
