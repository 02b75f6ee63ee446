import LayeredConfig.Text.Basic

/-!
# Blanks

The white space of Unicode, trimming, and the words of a text.
-/
namespace LayeredConfig.Text

/-- The characters with the Unicode property White_Space. -/
def isBlank (c : Char) : Bool :=
  let n := c.toNat
  (0x09 ≤ n && n ≤ 0x0D) || n == 0x20 || n == 0x85 || n == 0xA0 || n == 0x1680 ||
    (0x2000 ≤ n && n ≤ 0x200A) || n == 0x2028 || n == 0x2029 || n == 0x202F ||
    n == 0x205F || n == 0x3000

def trimStart (s : Text) : Text := s.dropWhile isBlank

def trimEnd (s : Text) : Text := (s.reverse.dropWhile isBlank).reverse

/-- `s` without the white space at its two ends. -/
def trim (s : Text) : Text := trimEnd (trimStart s)

theorem trim_of_unblank {s : Text} (h : ∀ c ∈ s, isBlank c = false) : trim s = s := by
  have hstart : ∀ r : Text, (∀ c ∈ r, isBlank c = false) → r.dropWhile isBlank = r := by
    intro r hr
    cases r with
    | nil => rfl
    | cons c r => simp [hr c List.mem_cons_self]
  rw [trim, trimStart, trimEnd, hstart s h,
    hstart s.reverse (fun c hc => h c (List.mem_reverse.1 hc)), List.reverse_reverse]

/-- The maximal runs of characters that are no white space. `word` holds the run that is
being read. -/
def wordsFrom (word : Text) : Text → List Text
  | [] => if word.isEmpty then [] else [word]
  | c :: s =>
    if isBlank c then
      if word.isEmpty then wordsFrom [] s else word :: wordsFrom [] s
    else wordsFrom (word ++ [c]) s

def words (s : Text) : List Text := wordsFrom [] s

/-- The words of `s` on one line, one space between each two. -/
def singleLine (s : Text) : Text := joinWith " " (words s)

end LayeredConfig.Text
