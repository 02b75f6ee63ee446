import LayeredConfig.Decimal.Double
import LayeredConfig.Text.Basic

/-!
# Shortest decimal text

The fewest digits that read back as the same double, and of those the nearest. The search
works on exact fractions: on each decimal grid, coarse to fine, it tries the two neighbours
of the value.
-/
namespace LayeredConfig.Double

/-- The least `k` with `num / den < 10 ^ k`, found upwards from `start`. -/
def decimalOrder (num den : Nat) : (fuel : Nat) → (start : Int) → Int
  | 0, k => k
  | fuel + 1, k =>
    let below := if 0 ≤ k then num < den * Nat.pow 10 k.toNat else num * Nat.pow 10 (-k).toNat < den
    if below then k else decimalOrder num den fuel (k + 1)

/-- The reals that round to a double, as fractions over one denominator. -/
structure Interval where
  low : Nat
  value : Nat
  high : Nat
  den : Nat
  closed : Bool

/-- The interval of `mantissa * 2 ^ exponent`: its ends are halfway to the neighbours and
belong to it when the mantissa is even. -/
def Interval.of (mantissa : Nat) (exponent : Int) : Interval :=
  -- Quarters of a unit in the last place: below a power of two the neighbour is half as far.
  let below := if mantissa = Nat.pow 2 52 ∧ exponent > -1074 then 1 else 2
  let (unit, den) :=
    if 2 ≤ exponent then (Nat.pow 2 (exponent - 2).toNat, 1)
    else (1, Nat.pow 2 (2 - exponent).toNat)
  { low := (4 * mantissa - below) * unit
    value := 4 * mantissa * unit
    high := (4 * mantissa + 2) * unit
    den := den
    closed := mantissa % 2 = 0 }

/-- Whether `num / den` lies in the interval. -/
def Interval.contains (i : Interval) (num den : Nat) : Bool :=
  let a := num * i.den
  if i.closed then i.low * den ≤ a ∧ a ≤ i.high * den else i.low * den < a ∧ a < i.high * den

/-- The point of the grid of step `10 ^ place` that lies in the interval and is nearest to
its value; of two equally near ones the even multiple. -/
def Interval.onGrid (i : Interval) (place : Int) : Option Nat :=
  let up := if 0 ≤ place then Nat.pow 10 place.toNat else 1
  let down := if 0 ≤ place then 1 else Nat.pow 10 (-place).toNat
  let d := i.value * down / (i.den * up)
  let hit (n : Nat) : Bool := i.contains (n * up) down
  -- Twice the value against the middle of the two neighbours.
  let twice := 2 * i.value * down
  let middle := (2 * d + 1) * i.den * up
  match hit d, hit (d + 1) with
  | false, false => none
  | true, false => some d
  | false, true => some (d + 1)
  | true, true =>
    if twice < middle then some d
    else if middle < twice then some (d + 1)
    else some (if d % 2 = 0 then d else d + 1)

/-- The digits and the decimal place of their last, from the coarsest grid that has one. -/
def Interval.search (i : Interval) (order : Int) : (fuel count : Nat) → Nat × Int
  | 0, count => (0, order - count)
  | fuel + 1, count =>
    match i.onGrid (order - count) with
    | some n => (n, order - count)
    | none => i.search order fuel (count + 1)

/-- Moves trailing zeros of `n` into the place of its last digit. -/
def dropZeros : (fuel n : Nat) → (place : Int) → Nat × Int
  | 0, n, place => (n, place)
  | fuel + 1, n, place =>
    if n ≠ 0 ∧ n % 10 = 0 then dropZeros fuel (n / 10) (place + 1) else (n, place)

/-- The shortest digits of a positive finite double and the place of the last one. -/
def shortest (mantissa : Nat) (exponent : Int) : Nat × Int :=
  let i := Interval.of mantissa exponent
  let order := decimalOrder i.value i.den 700 (-330)
  let (n, place) := i.search order 17 1
  dropZeros 20 n place

/-- The text of digits whose last one has the given place: positional with a point while the
point falls within sixteen digits or five places before them, else with an exponent. -/
def placeDigits (n : Nat) (place : Int) : Text :=
  let ds := Text.ofNat n
  let point := (ds.length : Int) + place
  if 0 ≤ place ∧ point ≤ 16 then ds ++ List.replicate place.toNat '0' ++ ['.', '0']
  else if 0 < point ∧ point ≤ 16 then ds.take point.toNat ++ '.' :: ds.drop point.toNat
  else if -5 < point ∧ point ≤ 0 then '0' :: '.' :: List.replicate (-point).toNat '0' ++ ds
  else
    let power := 'e' :: Text.ofInt (point - 1)
    match ds with
    | [] => power
    | [d] => d :: power
    | d :: rest => d :: '.' :: rest ++ power

/-- The text of a double: its shortest digits, and `.inf`, `-.inf` or `.nan`. -/
def text : Double → Text
  | .nan => ".nan"
  | .infinite false => ".inf"
  | .infinite true => "-.inf"
  | .finite negative mantissa exponent =>
    let body : Text :=
      if mantissa = 0 then "0.0"
      else
        let (n, place) := shortest mantissa exponent
        placeDigits n place
    if negative then '-' :: body else body

end LayeredConfig.Double
