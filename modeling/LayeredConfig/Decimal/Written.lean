import LayeredConfig.Decimal.Double
import LayeredConfig.Text.Basic

/-!
# Doubles of written numbers

The double of a number as JSON writes it. The digits are collected into a whole number below
`2 ^ 64`, which is then scaled by one power of ten: what is rounded is the whole number, the power
and the result, so that numbers of many digits may come out one unit beside the nearest double.
-/
namespace LayeredConfig.Double

/-- Digits that have been collected, and the power of ten they are to be scaled by. -/
structure Digits where
  value : Nat
  exponent : Int
  /-- A digit did not fit. -/
  full : Bool
deriving DecidableEq

def Digits.add? (d : Digits) (c : Char) : Option Nat :=
  let n := 10 * d.value + (c.toNat - '0'.toNat)
  if d.full ∨ Nat.pow 2 64 ≤ n then none else some n

/-- A digit before the point. One that does not fit counts as a zero. -/
def Digits.addWhole (d : Digits) (c : Char) : Digits :=
  match d.add? c with
  | some n => { d with value := n }
  | none => { d with exponent := d.exponent + 1, full := true }

/-- A digit after the point. One that does not fit is dropped. -/
def Digits.addFraction (d : Digits) (c : Char) : Digits :=
  match d.add? c with
  | some n => { d with value := n, exponent := d.exponent - 1 }
  | none => { d with full := true }

def negate : Double → Double
  | .nan => .nan
  | .infinite negative => .infinite !negative
  | .finite negative m e => .finite (!negative) m e

def isZero : Double → Bool
  | .finite _ 0 _ => true
  | _ => false

/-- The double nearest to a power of ten. -/
def powerOfTen (n : Nat) : Double := ofDecimal false 1 n

/-- `d` scaled by a power of ten; nothing if the result is out of range. Below the smallest power
there is, it is scaled in steps, of which the third at the latest ends at zero. -/
def scaled? : (fuel : Nat) → Double → Int → Option Double
  | 0, d, _ => some d
  | fuel + 1, d, exponent =>
    if 308 < exponent then if d.isZero then some d else none
    else if 0 ≤ exponent then
      let product := d.mul (powerOfTen exponent.toNat)
      if product.isFinite then some product else none
    else if -308 ≤ exponent then some (d.div (powerOfTen (-exponent).toNat))
    else if d.isZero then some d
    else scaled? fuel (d.div (powerOfTen 308)) (exponent + 308)

/-- The limit of a written exponent. -/
def exponentLimit : Nat := Nat.pow 2 31

def ofDigits? (d : Digits) (power : Option (Bool × Nat)) : Option Double :=
  let start := ofRatio false d.value 1
  match power with
  | none => scaled? 5 start d.exponent
  | some (negative, n) =>
    if exponentLimit ≤ n then
      if d.value ≠ 0 ∧ ¬ negative then none else some (zero false)
    else scaled? 5 start (if negative then d.exponent - n else d.exponent + n)

/-- The sign and the magnitude of a written exponent. -/
def powerOf? (s : Text) : Option (Bool × Nat) :=
  match s with
  | '-' :: r => (Text.digits? 10 r).map (true, ·)
  | '+' :: r => (Text.digits? 10 r).map (false, ·)
  | r => (Text.digits? 10 r).map (false, ·)

/-- The double of a number in JSON's form; nothing if it is out of range. -/
def ofWritten? (s : Text) : Option Double :=
  let (negative, s) : Bool × Text := match s with
    | '-' :: r => (true, r)
    | s => (false, s)
  let isMark (c : Char) : Bool := c = 'e' || c = 'E'
  let mantissa := s.takeWhile fun c => ¬ isMark c
  let power := powerOf? ((s.dropWhile fun c => ¬ isMark c).drop 1)
  let whole := mantissa.takeWhile (· ≠ '.')
  let fraction := (mantissa.dropWhile (· ≠ '.')).drop 1
  let d := whole.foldl Digits.addWhole ⟨0, 0, false⟩
  let d := fraction.foldl Digits.addFraction { d with full := false }
  (ofDigits? d power).map fun d => if negative then d.negate else d

end LayeredConfig.Double
