import LayeredConfig.Text.Basic

/-!
# Digits

The decimal text of a natural number consists of digits, and it is read as that number.
-/
namespace LayeredConfig.Text

theorem isDigit_of_mem_ofNat {n : Nat} {c : Char} (h : c ∈ ofNat n) :
    c.isDigit = true :=
  Nat.isDigit_of_mem_toDigits (by decide) (by decide) h

theorem noSlash_ofNat (n : Nat) : '/' ∉ ofNat n := fun h => by
  have hdigit := isDigit_of_mem_ofNat h
  revert hdigit
  decide

theorem noSlash_zeroPadded (width n : Nat) : '/' ∉ zeroPadded width n := by
  rw [zeroPadded, List.mem_append, List.mem_replicate]
  rintro (⟨-, h⟩ | h)
  · revert h
    decide
  · exact noSlash_ofNat n h

theorem digitOf_of_isDigit {c : Char} (h : c.isDigit = true) :
    digits?.digitOf 10 c = some (c.toNat - '0'.toNat) := by
  have hrange : '0' ≤ c ∧ c ≤ '9' := by
    simpa [Char.isDigit, Char.le_def] using h
  have hle : c.toNat ≤ '9'.toNat := hrange.2
  have hlt : c.toNat - '0'.toNat < 10 := by
    have hzero : '0'.toNat = 48 := rfl
    have hnine : '9'.toNat = 57 := rfl
    omega
  rw [digits?.digitOf, if_pos hrange]
  exact if_pos hlt

/-- Digits have the value that they spell. -/
theorem digits?_of_isDigit {s : Text} (hne : s ≠ []) (h : ∀ c ∈ s, c.isDigit = true) :
    digits? 10 s = some (Nat.ofDigitChars 10 s 0) := by
  have hfold : ∀ n, s.foldl (fun acc c => acc.bind fun n =>
      (digits?.digitOf 10 c).map fun d => 10 * n + d) (some n) =
        some (Nat.ofDigitChars 10 s n) := by
    clear hne
    induction s with
    | nil => exact fun _ => rfl
    | cons c s ih =>
      obtain ⟨hc, hs⟩ := List.forall_mem_cons.1 h
      intro n
      rw [List.foldl_cons, Option.bind_some, digitOf_of_isDigit hc, Option.map_some, ih hs,
        Nat.ofDigitChars_cons]
  rw [digits?, if_neg (by simpa using hne)]
  exact hfold 0

theorem digits?_ofNat (n : Nat) : digits? 10 (ofNat n) = some n := by
  have hne : ofNat n ≠ [] := Nat.toDigits_ne_nil
  rw [digits?_of_isDigit hne fun c hc => isDigit_of_mem_ofNat hc, ofNat,
    Nat.ofDigitChars_ten_toDigits]

/-- The text of a number is read as its position as long as it fits. -/
theorem index?_ofNat (n : Nat) : index? (ofNat n) = (some n).filter (· < Nat.pow 2 64) := by
  have hplus : ∀ r, ofNat n ≠ '+' :: r := by
    intro r hr
    have hdigit : '+'.isDigit = true := isDigit_of_mem_ofNat (hr ▸ List.mem_cons_self)
    cases hdigit
  unfold index?
  dsimp only
  split
  · next r hr => exact absurd hr (hplus r)
  · rw [digits?_ofNat]

end LayeredConfig.Text
