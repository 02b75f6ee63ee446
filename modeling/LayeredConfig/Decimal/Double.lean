/-!
# Doubles

The binary64 numbers as exact values: a sign, a mantissa and a power of two. Every operation
computes an exact rational and rounds it once, to nearest with ties to even.
-/
namespace LayeredConfig

/-- A binary64 number. The finite ones are `mantissa * 2 ^ exponent`, with a mantissa below
`2 ^ 53` and an exponent not below `-1074`, as `Double.ofRatio` makes them. -/
inductive Double where
  | nan
  | infinite (negative : Bool)
  | finite (negative : Bool) (mantissa : Nat) (exponent : Int)
deriving DecidableEq, Inhabited

namespace Double

def zero (negative : Bool) : Double := .finite negative 0 (-1074)

/-- `num / den` to the nearest natural number, a half to the even neighbour. -/
def roundDiv (num den : Nat) : Nat :=
  let q := num / den
  let r := num % den
  if 2 * r > den ∨ (2 * r = den ∧ q % 2 = 1) then q + 1 else q

/-- `num / (den * 2 ^ e)` as a pair of naturals. -/
def scale (num den : Nat) (e : Int) : Nat × Nat :=
  if 0 ≤ e then (num, den * Nat.pow 2 e.toNat) else (num * Nat.pow 2 (-e).toNat, den)

/-- The double nearest to `num / den`. -/
def ofRatio (negative : Bool) (num den : Nat) : Double :=
  if num = 0 then zero negative
  else
    let guess := (num.log2 : Int) - den.log2 - 52
    let (n, d) := scale num den guess
    let e := if n < d * Nat.pow 2 52 then guess - 1 else guess
    let e := if e < -1074 then -1074 else e
    let (n, d) := scale num den e
    let m := roundDiv n d
    let (m, e) := if m = Nat.pow 2 53 then (Nat.pow 2 52, e + 1) else (m, e)
    if e > 971 then .infinite negative else .finite negative m e

/-- The double nearest to `mantissa * 10 ^ exponent`. -/
def ofDecimal (negative : Bool) (mantissa : Nat) (exponent : Int) : Double :=
  if mantissa = 0 then zero negative
  -- A text of this many places is out of range on either side, whatever its digits.
  else if exponent > 400 then .infinite negative
  else if exponent + (Nat.toDigits 10 mantissa).length < -400 then zero negative
  else if 0 ≤ exponent then ofRatio negative (mantissa * Nat.pow 10 exponent.toNat) 1
  else ofRatio negative mantissa (Nat.pow 10 (-exponent).toNat)

/-- The magnitude of a finite double as a fraction. -/
def magnitude (mantissa : Nat) (exponent : Int) : Nat × Nat :=
  if 0 ≤ exponent then (mantissa * Nat.pow 2 exponent.toNat, 1)
  else (mantissa, Nat.pow 2 (-exponent).toNat)

def isFinite : Double → Bool
  | .finite .. => true
  | _ => false

/-- Plus zero for either zero; every other double unchanged. -/
def dropZeroSign : Double → Double
  | .finite _ 0 _ => zero false
  | d => d

/-- The product of two finite doubles; anything else is no number. -/
def mul : Double → Double → Double
  | .finite s m e, .finite t n f =>
    let (p, q) := magnitude (m * n) (e + f)
    ofRatio (s != t) p q
  | _, _ => .nan

/-- The quotient of two finite doubles, of which the second is not zero. -/
def div : Double → Double → Double
  | .finite s m e, .finite t n f =>
    if n = 0 then .nan
    else
      let (p, q) := magnitude m e
      let (u, v) := magnitude n f
      ofRatio (s != t) (p * v) (q * u)
  | _, _ => .nan

/-- A key that grows with the double, where minus zero comes right before plus zero. It relies on
what `ofRatio` makes: a mantissa is below `2 ^ 52` only with the least exponent. -/
def rank : Double → Int
  | .nan => Nat.pow 2 65
  | .infinite negative => if negative then -(Nat.pow 2 64 : Nat) else Nat.pow 2 64
  | .finite negative mantissa exponent =>
    let r := (exponent + 1074) * Nat.pow 2 52 + mantissa
    if negative then -r - 1 else r

end Double
end LayeredConfig
