import LayeredConfig.Yaml.Scalar

/-!
# Scalars that are strings

A slash or a blank stands in no null, no boolean and no number, so that a plain scalar with one of
them is a string.
-/
namespace LayeredConfig

/-- A text with a character that is no digit is no number. -/
theorem Text.digits?_eq_none {base : Nat} {s : Text} {c : Char} (hc : c ∈ s)
    (hdigit : digits?.digitOf base c = none) : digits? base s = none := by
  have hnone : ∀ r : Text, r.foldl (fun acc c =>
      acc.bind fun n => (digits?.digitOf base c).map fun d => base * n + d) (none : Option Nat) =
        none := by
    intro r
    induction r with
    | nil => rfl
    | cons a r ih => exact ih
  have hfold : ∀ (s : Text) (acc : Option Nat), c ∈ s → s.foldl (fun acc c =>
      acc.bind fun n => (digits?.digitOf base c).map fun d => base * n + d) acc = none := by
    intro s
    induction s with
    | nil =>
      intro acc hs
      cases hs
    | cons a s ih =>
      intro acc hs
      rw [List.foldl_cons]
      rcases List.mem_cons.1 hs with rfl | hs
      · cases acc with
        | none => exact hnone s
        | some n => simpa [hdigit] using hnone s
      · exact ih _ hs
  rw [digits?]
  split
  · rfl
  · exact hfold s (some 0) hc

namespace Yaml.Scalar

/-- The two characters that are looked at here. -/
def IsApart (c : Char) : Prop := c = '/' ∨ c = ' '

variable {s : Text} {c : Char}

theorem digits?_of_apart (base : Nat) (ha : IsApart c) (hc : c ∈ s) :
    Text.digits? base s = none := by
  refine Text.digits?_eq_none hc ?_
  rcases ha with rfl | rfl <;> simp [Text.digits?.digitOf]

/-- A word in which neither of them stands is another text. -/
theorem ne_of_apart (ha : IsApart c) (hc : c ∈ s) {w : Text}
    (hw : w.all (fun x => x != '/' && x != ' ') = true) : s ≠ w := by
  rintro rfl
  have := List.all_eq_true.1 hw c hc
  rcases ha with rfl | rfl <;> simp at this

theorem isNullWord_of_apart (ha : IsApart c) (hc : c ∈ s) : isNullWord s = false := by
  have hne : ∀ w : Text, w.all (fun x => x != '/' && x != ' ') = true → decide (s = w) = false :=
    fun w hw => decide_eq_false (ne_of_apart ha hc hw)
  rw [isNullWord, hne _ (by decide), hne _ (by decide), hne _ (by decide), hne _ (by decide)]
  rfl

theorem bool?_of_apart (ha : IsApart c) (hc : c ∈ s) : bool? s = none := by
  have hne : ∀ w : Text, w.all (fun x => x != '/' && x != ' ') = true → decide (s = w) = false :=
    fun w hw => decide_eq_false (ne_of_apart ha hc hw)
  rw [bool?, hne _ (by decide), hne _ (by decide), hne _ (by decide), hne _ (by decide),
    hne _ (by decide), hne _ (by decide)]
  rfl

/-- It stands behind what a text begins with, if it does not stand in there. -/
theorem mem_of_mem_append (ha : IsApart c) (lead : Text) {r : Text}
    (hlead : lead.all (fun x => x != '/' && x != ' ') = true) (hc : c ∈ lead ++ r) : c ∈ r := by
  rcases List.mem_append.1 hc with h | h
  · exact absurd rfl (ne_of_apart ha h hlead)
  · exact h

theorem magnitude?_of_apart (ha : IsApart c) (hc : c ∈ s) : magnitude? s = none := by
  have hten := digits?_of_apart 10 ha hc
  unfold magnitude?
  split
  · next r =>
    rw [digits?_of_apart 16 ha (mem_of_mem_append ha ['0', 'x'] rfl hc), hten]
    rfl
  · next r =>
    rw [digits?_of_apart 8 ha (mem_of_mem_append ha ['0', 'o'] rfl hc), hten]
    rfl
  · next r =>
    rw [digits?_of_apart 2 ha (mem_of_mem_append ha ['0', 'b'] rfl hc), hten]
    rfl
  · rw [hten]
    rfl

theorem signed?_of_apart (ha : IsApart c) (hc : c ∈ s) : signed? s = none := by
  unfold signed?
  split
  · rfl
  · split
    · rw [magnitude?_of_apart ha (mem_of_mem_append ha ['-'] rfl hc)]
      rfl
    · rw [magnitude?_of_apart ha (mem_of_mem_append ha ['+'] rfl hc)]
      rfl
    · rw [magnitude?_of_apart ha hc]
      rfl

theorem exponent?_of_apart (ha : IsApart c) (hc : c ∈ s) : exponent? s = none := by
  unfold exponent?
  split
  · rw [digits?_of_apart 10 ha (mem_of_mem_append ha ['-'] rfl hc)]
    rfl
  · rw [digits?_of_apart 10 ha (mem_of_mem_append ha ['+'] rfl hc)]
    rfl
  · rw [digits?_of_apart 10 ha hc]
    rfl

theorem not_isDigit_of_apart (ha : IsApart c) : c.isDigit = false := by
  rcases ha with rfl | rfl <;> rfl

/-- It stands behind the digits at the start. -/
theorem mem_dropWhile_of_apart (ha : IsApart c) (hc : c ∈ s) : c ∈ s.dropWhile Char.isDigit := by
  have hsplit := hc
  rw [← List.takeWhile_append_dropWhile (p := Char.isDigit) (l := s)] at hsplit
  refine (List.mem_append.1 hsplit).resolve_left fun h => ?_
  have hdigit := List.all_eq_true.1 List.all_takeWhile c h
  rw [not_isDigit_of_apart ha] at hdigit
  cases hdigit

theorem decimal?_of_apart (negative : Bool) (ha : IsApart c) (hc : c ∈ s) :
    decimal? negative s = none := by
  have hrest := mem_dropWhile_of_apart ha hc
  rw [decimal?]
  split
  next frac r heq =>
  have hr : c ∈ r := by
    split at heq
    · next t hpoint =>
      cases heq
      rw [hpoint] at hrest
      exact mem_dropWhile_of_apart ha (mem_of_mem_append ha ['.'] rfl hrest)
    · cases heq
      exact hrest
  cases Text.digits? 10 (s.takeWhile Char.isDigit ++ frac) with
  | none => rfl
  | some mantissa =>
    cases r with
    | nil => cases hr
    | cons x t =>
      show (if x = 'e' ∨ x = 'E' then _ else _) = none
      split
      · next hx =>
        have ht : c ∈ t := (List.mem_cons.1 hr).resolve_left (by
          rcases ha with rfl | rfl <;> rcases hx with rfl | rfl <;> decide)
        rw [exponent?_of_apart ha ht]
        rfl
      · rfl

theorem float?_of_apart (ha : IsApart c) (hc : c ∈ s) : float? s = none := by
  have hword : ∀ {r : Text}, c ∈ r → ∀ u v w : Text,
      (u ++ v ++ w).all (fun x => x != '/' && x != ' ') = true →
        (decide (r = u) || decide (r = v) || decide (r = w)) = false := by
    intro r hr u v w hall
    rw [List.all_append, List.all_append, Bool.and_eq_true, Bool.and_eq_true] at hall
    rw [decide_eq_false (ne_of_apart ha hr hall.1.1), decide_eq_false (ne_of_apart ha hr hall.1.2),
      decide_eq_false (ne_of_apart ha hr hall.2)]
    rfl
  unfold float?
  extract_lets body d
  have hbody : c ∈ body := by
    dsimp only [body]
    split
    · exact mem_of_mem_append ha ['+'] rfl hc
    · exact hc
  have hd : d = none := by
    dsimp only [d]
    split
    · exact decimal?_of_apart false ha (mem_of_mem_append ha ['+'] rfl hc)
    · exact decimal?_of_apart true ha (mem_of_mem_append ha ['-'] rfl hc)
    · exact decimal?_of_apart false ha hc
  rw [hword hbody _ _ _ (by decide), hword hc _ _ _ (by decide), hword hc _ _ _ (by decide), hd]
  rfl

/-- A plain scalar with a slash or a blank is a string. -/
theorem plain?_of_apart (ha : IsApart c) (hc : c ∈ s) : plain? s = some (.string s) := by
  have hne : s.isEmpty = false := by
    cases s with
    | nil => cases hc
    | cons a s => rfl
  have hint : int? s = none := by rw [int?, signed?_of_apart ha hc]
  have hwide : isWideInt s = false := by rw [isWideInt, signed?_of_apart ha hc]
  rw [plain?, hne, isNullWord_of_apart ha hc, bool?_of_apart ha hc, hint, hwide,
    float?_of_apart ha hc]
  simp

end Yaml.Scalar
end LayeredConfig
