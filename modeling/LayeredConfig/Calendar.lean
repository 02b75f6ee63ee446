import LayeredConfig.Text.Basic

/-!
# Calendar

Dates and times of day in UTC, of seconds counted from the beginning of 1970. The year is that of
the Gregorian calendar, carried on in both directions, with a year 0.
-/
namespace LayeredConfig

structure DateTime where
  year : Int
  month : Nat
  day : Nat
  hour : Nat
  minute : Nat
  second : Nat
deriving DecidableEq, Inhabited

namespace DateTime

/-- The days of 400 years. -/
def daysOfEra : Int := 146097

/-- The days from the first of March of year 0 to the beginning of 1970. -/
def daysBefore1970 : Int := 719468

/-- Year, month and day of a day, which is counted from the beginning of 1970. Years are taken to
begin in March, so that a leap day is the last of its year. -/
def date (day : Int) : Int × Nat × Nat :=
  let z := day + daysBefore1970
  let era := z / daysOfEra
  let ofEra := (z % daysOfEra).toNat
  let year := (ofEra - ofEra / 1460 + ofEra / 36524 - ofEra / 146096) / 365
  let ofYear := ofEra - (365 * year + year / 4 - year / 100)
  let month := (5 * ofYear + 2) / 153
  let dayOfMonth := ofYear - (153 * month + 2) / 5 + 1
  let inMarch := if month < 10 then month + 3 else month - 9
  (400 * era + year + if inMarch ≤ 2 then 1 else 0, inMarch, dayOfMonth)

def ofSeconds (s : Int) : DateTime :=
  let (year, month, day) := date (s / 86400)
  let ofDay := (s % 86400).toNat
  ⟨year, month, day, ofDay / 3600, ofDay / 60 % 60, ofDay % 60⟩

/-- Four digits, and a sign for years that have more or lie before year 0. -/
def yearText (year : Int) : Text :=
  if 0 ≤ year ∧ year ≤ 9999 then Text.zeroPadded 4 year.toNat
  else (if year < 0 then '-' else '+') :: Text.zeroPadded 4 year.natAbs

def twoDigits (n : Nat) : Text := Text.zeroPadded 2 n

/-- The form `2025-01-31 23:59:59`. -/
def text (d : DateTime) : Text :=
  yearText d.year ++ '-' :: twoDigits d.month ++ '-' :: twoDigits d.day ++ ' ' ::
    twoDigits d.hour ++ ':' :: twoDigits d.minute ++ ':' :: twoDigits d.second

/-- The form `20250131_235959`. -/
def compact (d : DateTime) : Text :=
  yearText d.year ++ twoDigits d.month ++ twoDigits d.day ++ '_' ::
    twoDigits d.hour ++ twoDigits d.minute ++ twoDigits d.second

end DateTime
end LayeredConfig
