/-!
# Text

A text is its list of characters. This file holds the cuts and joins that the rest of the
library is written with: removing a known start, splitting once at a separator, splitting
into lines, and the decimal text of numbers.
-/
namespace LayeredConfig

abbrev Text := List Char

instance : Coe String Text := ⟨String.toList⟩

namespace Text

/-- What stands after `lead` in `s`, if `s` begins with it. -/
def after? : (lead s : Text) → Option Text
  | [], s => some s
  | _ :: _, [] => none
  | a :: lead, c :: s => if a = c then after? lead s else none

theorem after?_eq_some_iff {lead s r : Text} : after? lead s = some r ↔ s = lead ++ r := by
  induction lead generalizing s with
  | nil => simp [after?, eq_comm]
  | cons a lead ih =>
    cases s with
    | nil => simp [after?]
    | cons c s =>
      by_cases h : a = c
      · simp [after?, h, ih]
      · simp [after?, h, Ne.symm h]

def startsWith (lead s : Text) : Bool := (after? lead s).isSome

/-- Whether `part` stands somewhere in `s`. -/
def holds (part : Text) : Text → Bool
  | [] => part.isEmpty
  | c :: s => startsWith part (c :: s) || holds part s

/-- The parts of `s` before and after the first `sep`. -/
def splitFirst (sep : Char) : Text → Option (Text × Text)
  | [] => none
  | c :: s =>
    if c = sep then some ([], s)
    else (splitFirst sep s).map fun p => (c :: p.1, p.2)

/-- The parts of `s` before and after the last `sep`. -/
def splitLast (sep : Char) : Text → Option (Text × Text)
  | [] => none
  | c :: s =>
    match splitLast sep s with
    | some p => some (c :: p.1, p.2)
    | none => if c = sep then some ([], s) else none

/-- All parts of `s` between the separators; there is always at least one. -/
def splitAll (sep : Char) : Text → List Text
  | [] => [[]]
  | c :: s =>
    if c = sep then [] :: splitAll sep s
    else match splitAll sep s with
      | [] => [[c]]
      | p :: ps => (c :: p) :: ps

theorem splitAll_ne_nil (sep : Char) (s : Text) : splitAll sep s ≠ [] := by
  cases s with
  | nil => simp [splitAll]
  | cons c s =>
    simp only [splitAll]
    split
    · simp
    · split <;> simp

theorem splitFirst_eq_some {sep : Char} {s a b : Text} (h : splitFirst sep s = some (a, b)) :
    s = a ++ sep :: b ∧ sep ∉ a := by
  induction s generalizing a with
  | nil => simp [splitFirst] at h
  | cons c s ih =>
    simp only [splitFirst] at h
    split at h
    · simp_all
    · rename_i hc
      obtain ⟨⟨x, y⟩, hx, he⟩ := Option.map_eq_some_iff.1 h
      cases he
      obtain ⟨hs, hn⟩ := ih hx
      exact ⟨by simp [hs], by simp [Ne.symm hc, hn]⟩

theorem splitFirst_eq_none_iff {sep : Char} {s : Text} : splitFirst sep s = none ↔ sep ∉ s := by
  induction s with
  | nil => simp [splitFirst]
  | cons c s ih =>
    by_cases hc : c = sep
    · simp [splitFirst, hc]
    · simp [splitFirst, hc, ih, Ne.symm hc]

/-- The texts one after the other, `sep` between each two. -/
def joinWith (sep : Text) (parts : List Text) : Text := sep.intercalate parts

/-- The lines of `s` without their ends, which are LF or CR LF. A last line that holds
nothing is no line. -/
def lines (s : Text) : List Text :=
  let parts := splitAll '\n' s
  let ended := parts.dropLast.map fun line =>
    if line.getLast? = some '\r' then line.dropLast else line
  match parts.getLast? with
  | some [] | none => ended
  | some last => ended ++ [last]

def replaceChar (old new : Char) (s : Text) : Text := s.map fun c => if c = old then new else c

/-- ASCII letters in lower case. The words that are compared this way are ASCII, and no
other character has one of their letters as its lower case. -/
def lower (s : Text) : Text := s.map Char.toLower

def ofNat (n : Nat) : Text := Nat.toDigits 10 n

def ofInt : Int → Text
  | .ofNat n => ofNat n
  | .negSucc n => '-' :: ofNat (n + 1)

/-- The value of a nonempty run of digits in the given base. -/
def digits? (base : Nat) (s : Text) : Option Nat :=
  if s.isEmpty then none
  else s.foldl (fun acc c => acc.bind fun n => (digitOf c).map fun d => base * n + d) (some 0)
where
  digitOf (c : Char) : Option Nat :=
    let v := if '0' ≤ c ∧ c ≤ '9' then c.toNat - '0'.toNat
      else if 'a' ≤ c ∧ c ≤ 'f' then c.toNat - 'a'.toNat + 10
      else if 'A' ≤ c ∧ c ≤ 'F' then c.toNat - 'A'.toNat + 10
      else base
    if v < base then some v else none

/-- A position in a sequence: decimal digits, perhaps after a plus sign, within 64 bits. -/
def index? (s : Text) : Option Nat :=
  let body := match s with
    | '+' :: r => r
    | _ => s
  (digits? 10 body).filter (· < Nat.pow 2 64)

/-- `s` filled with blanks up to `width` characters. -/
def padRight (width : Nat) (s : Text) : Text := s ++ List.replicate (width - s.length) ' '

def padLeft (width : Nat) (s : Text) : Text := List.replicate (width - s.length) ' ' ++ s

/-- `n` with leading zeros up to `width` digits. -/
def zeroPadded (width n : Nat) : Text :=
  let ds := ofNat n
  List.replicate (width - ds.length) '0' ++ ds

/-- The number of bytes of `s` in UTF-8. -/
def byteLength : Text → Nat
  | [] => 0
  | c :: s => c.utf8Size + byteLength s

end Text
end LayeredConfig
