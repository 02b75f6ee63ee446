import LayeredConfig.Proofs.Yaml.Lexing

/-!
# The tokens of a list

A document that begins with a key and, below it, a block sequence with one item to a line. Each item
is a phrase or a pair of phrases. What comes behind the sequence is arbitrary: it is only asked to
begin a line.
-/
namespace LayeredConfig.Yaml

open Outcome

/-- An item that fits on a line. -/
inductive Item where
  | phrase (s : Text) (hs : IsPhrase s)
  | pair (key : Text) (hkey : IsPhrase key) (blanks : Nat) (name : Text) (hname : IsPhrase name)

namespace Item

def text : Item → Text
  | phrase s _ => s
  | pair key _ blanks name _ => key ++ ':' :: (List.replicate (blanks + 1) ' ' ++ name)

def tokens : Item → List Token
  | phrase s _ => [.scalar s true]
  | pair key _ _ name _ =>
    [.blockMappingStart, .key, .scalar key true, .value, .scalar name true, .blockEnd]

theorem isSettled (i : Item) (r : Text) : IsSettled (i.text ++ r) := by
  cases i with
  | phrase s hs => exact hs.isSettled r
  | pair key hkey blanks name hname =>
    rw [text, List.append_assoc]
    exact hkey.isSettled _

end Item

/-- An item with the rest of its line and the lines below it that hold at most a comment. -/
structure ItemLine where
  item : Item
  tail : Text
  below : List Text
  filled : ∀ s ∈ tail :: below, IsFiller s
  /-- A comment does not touch the item. -/
  apart : tail.head? ≠ some '#'

namespace ItemLine

def tokens (l : ItemLine) : List Token := .blockEntry :: l.item.tokens

/-- The column of the next item, or of what follows the sequence. -/
def column (k : Nat) : List ItemLine → Nat
  | [] => 0
  | _ :: _ => k

/-- The text of a sequence from its first dash on, and what follows it. -/
def block (k : Nat) (rest : Text) : List ItemLine → Text
  | [] => rest
  | l :: ls =>
    '-' :: ' ' :: (l.item.text ++ (margin (l.tail :: l.below) (column k ls) ++ block k rest ls))

theorem column_le (k : Nat) (ls : List ItemLine) : column k ls ≤ k := by
  cases ls with
  | nil => exact Nat.zero_le k
  | cons l ls => exact Nat.le_refl k

theorem isSettled_block {k : Nat} {rest : Text} (hrest : IsSettled rest) (ls : List ItemLine) :
    IsSettled (block k rest ls) := by
  cases ls with
  | nil => exact hrest
  | cons l ls =>
    intro x hx
    cases hx
    decide

end ItemLine

/-- The tokens of a sequence that stands in the column `k`: in the first one it has no marks of its
own around it. -/
def listTokens (k : Nat) (ls : List ItemLine) : List Token :=
  if k = 0 then ls.flatMap ItemLine.tokens
  else .blockSequenceStart :: (ls.flatMap ItemLine.tokens ++ [.blockEnd])

/-- The tokens of a document that begins with a list under a key. -/
def headTokens (key : Text) (k : Nat) (ls : List ItemLine) : List Token :=
  .blockMappingStart :: .key :: .scalar key true :: .value :: listTokens k ls

namespace Lexer

open ItemLine

variable {T : List Token} {indent : Int} {outer : List Int} {found : List Token}

/-- An item up to the end of its line. -/
theorem Finds.item (i : Item) {t : Text} {ts : List Text} (hts : ∀ s ∈ t :: ts, IsFiller s)
    (hmark : t.head? ≠ some '#') {k : Nat} {r : Text} (hr : IsSettled r) (hk : (k : Int) ≤ indent)
    {line column : Nat} (hcolumn : column ≠ 0) (hindent : indent < column)
    (h : Finds
      (idle ⟨i.text ++ (margin (t :: ts) k ++ r), line, column⟩ T indent outer true) found) :
    Finds
      ((idle ⟨r, line + (t :: ts).length, k⟩ (i.tokens.reverse ++ T) indent outer true).unindent k)
      found := by
  cases i with
  | phrase s hs => exact h.line hs hts hmark hr hk hcolumn hindent
  | pair key hkey blanks name hname =>
    rw [Item.text, List.append_assoc, List.cons_append, List.append_assoc] at h
    obtain ⟨l, hsettle, h⟩ := h.key hkey rfl (Or.inl hcolumn) hindent
    rw [settle_blanks (hname.isSettled _) (by omega)] at hsettle
    cases hsettle
    have h := h.line hname hts hmark hr (by omega) (by omega) (by omega)
    rwa [unindent_idle_of_lt (by omega)] at h

/-- All items of a sequence, from behind the dash of the first one. -/
theorem Finds.items {k : Nat} {rest : Text} (hrest : IsSettled rest) (l : ItemLine)
    (ls : List ItemLine) {line : Nat}
    (h : Finds (idle ⟨l.item.text ++ (margin (l.tail :: l.below) (column k ls) ++ block k rest ls),
      line, k + 2⟩ (.blockEntry :: T) k outer true) found) : ∃ line',
    Finds ((idle ⟨rest, line', 0⟩ (((l :: ls).flatMap ItemLine.tokens).reverse ++ T) k outer
      true).unindent 0) found := by
  induction ls generalizing l T line with
  | nil =>
    have h := h.item l.item l.filled l.apart hrest (by exact_mod_cast Nat.zero_le k) (by omega)
      (by omega)
    exact ⟨line + (l.tail :: l.below).length, by simpa [ItemLine.tokens, column, block] using h⟩
  | cons next ls ih =>
    have h := h.item l.item l.filled l.apart (isSettled_block hrest (next :: ls))
      (by exact_mod_cast column_le k (next :: ls)) (by omega) (by omega)
    rw [unindent_flat_of_le (by exact Int.le_refl _)] at h
    have h := ih next (h.dash (next.item.isSettled _))
    simpa [ItemLine.tokens] using h

/-- The items of a sequence below a mapping in the first column. -/
theorem Finds.list {k : Nat} {rest : Text} (hrest : IsSettled rest) (l : ItemLine)
    (ls : List ItemLine) {line : Nat}
    (h : Finds (idle ⟨block k rest (l :: ls), line, k⟩ T 0 outer true) found) : ∃ line',
    Finds (idle ⟨rest, line', 0⟩ ((listTokens k (l :: ls)).reverse ++ T) 0 outer true) found := by
  cases k with
  | zero =>
    obtain ⟨line', h⟩ := Finds.items (k := 0) hrest l ls (h.dash (l.item.isSettled _))
    rw [unindent_flat_of_le (show ((0 : Nat) : Int) ≤ 0 from Int.le_refl _)] at h
    exact ⟨line', h⟩
  | succ k =>
    obtain ⟨line', h⟩ := Finds.items hrest l ls (h.firstDash (l.item.isSettled _) (by omega))
    rw [unindent_idle_of_lt (by omega), unindent_flat_of_le (Int.le_refl _)] at h
    exact ⟨line', by simpa [listTokens] using h⟩

/-- A document that begins with a list under a key: its first tokens, and where they end. -/
theorem finds_of_list {key : Text} (hkey : IsPhrase key)
    (hbegin : key.head? ≠ some '-' ∧ key.head? ≠ some '.') {above : List Text}
    (habove : ∀ s ∈ above, IsFiller s) {t : Text} {ts : List Text} (hts : ∀ s ∈ t :: ts, IsFiller s)
    (hmark : t.head? ≠ some '#') {k : Nat} (l : ItemLine) (ls : List ItemLine) {rest : Text}
    (hrest : IsSettled rest) {fuel : Nat}
    (h : run fuel (start (margin above 0 ++ (key ++ ':' :: (margin (t :: ts) k ++
      block k rest (l :: ls))))) = .ok found) : ∃ line,
    Finds (idle ⟨rest, line, 0⟩ (headTokens key k (l :: ls)).reverse 0 [-1] true) found := by
  obtain ⟨l₁, hsettle, h⟩ := finds_of_run h
  rw [start_eq_idle, settle_margin habove (hkey.isSettled _) (by split <;> omega)] at hsettle
  cases hsettle
  simp only [ite_self, Nat.zero_add, Bool.true_or] at h
  obtain ⟨l₂, hsettle, h⟩ := h.key hkey (Plain.gapAhead_margin (hts t List.mem_cons_self) hmark k _)
    (Or.inr hbegin) (by omega)
  rw [settle_margin hts (isSettled_block hrest (l :: ls)) (by simp)] at hsettle
  cases hsettle
  simp only [List.cons_ne_nil, if_false] at h
  obtain ⟨line, h⟩ := Finds.list hrest l ls h
  exact ⟨line, by simpa [headTokens] using h⟩

end Lexer
end LayeredConfig.Yaml
