import LayeredConfig.Proofs.Defaults.Occurrences
import LayeredConfig.Proofs.Defaults.Selected
import LayeredConfig.Text.Letter

/-!
# Items that are entries for a selection

Groups and names that are made of letters, digits, `_` and `-`, and what the value of an item must
be to be decoded as an entry for them. A colon or the mark of a comment in a scalar is found again
in what the scalar is decoded to.
-/
namespace LayeredConfig.Rewrite

open Defaults
open Yaml (isPlainChar isAllowed)

def isNameChar (c : Char) : Bool := Text.isLetterOrNumber c || c == '_' || c == '-'

/-- A text that is made of letters, digits, `_` and `-`. -/
def IsName (s : Text) : Prop := s ≠ [] ∧ ∀ c ∈ s, isNameChar c = true

instance (s : Text) : Decidable (IsName s) :=
  decidable_of_iff (s ≠ [] ∧ s.all isNameChar = true) (by rw [IsName, List.all_eq_true])

/-- Ranges that hold no letter: white space, surrogates, the mark of the byte order, and what is no
character. -/
def unlettered : List (Nat × Nat) :=
  [(0x80, 0xA0), (0x1680, 0x1680), (0x2000, 0x200A), (0x2028, 0x202F), (0x205F, 0x205F),
    (0x3000, 0x3000), (0xD800, 0xDFFF), (0xFEFF, 0xFEFF), (0xFFFE, 0xFFFF)]

theorem letterRanges_apart : ∀ r ∈ Text.letterRanges, ∀ u ∈ unlettered, r.2 < u.1 ∨ u.2 < r.1 := by
  decide +kernel

theorem isNameChar_ascii : ∀ n < 0x80, isNameChar (Char.ofNat n) = true →
    isPlainChar (Char.ofNat n) = true ∧ isAllowed (Char.ofNat n) = true ∧ Char.ofNat n ≠ '/' := by
  decide +kernel

/-- A character of a name has no meaning of its own. -/
theorem isPlainChar_of_name {c : Char} (h : isNameChar c = true) :
    isPlainChar c = true ∧ isAllowed c = true ∧ c ≠ '/' := by
  by_cases hascii : c.toNat < 0x80
  · have hall := isNameChar_ascii c.toNat hascii
    rw [Char.ofNat_toNat] at hall
    exact hall h
  have hletter : ∃ r ∈ Text.letterRanges, r.1 ≤ c.toNat ∧ c.toNat ≤ r.2 := by
    have hmark : c ≠ '_' ∧ c ≠ '-' := by
      constructor <;> rintro rfl <;> exact hascii (by decide)
    simpa [isNameChar, Text.isLetterOrNumber, hascii, hmark] using h
  obtain ⟨r, hr, hlow, hhigh⟩ := hletter
  have hout : ∀ u ∈ unlettered, c.toNat < u.1 ∨ u.2 < c.toNat := by
    intro u hu
    rcases letterRanges_apart r hr u hu with hlt | hlt <;> omega
  simp only [unlettered, List.forall_mem_cons] at hout
  have hblank : Text.isBlank c = false := by
    simp [Text.isBlank]
    omega
  have hsign : ∀ x ∈ ['?', ':', ',', '[', ']', '\x7b', '\x7d', '#', '&', '*', '!', '|', '>', '\'',
      '"', '%', '@', '\x60', '\ufeff'], (decide (x.toNat < 0x80) || x.toNat == 0xFEFF) = true :=
    List.all_eq_true.1 (by decide)
  refine ⟨Yaml.isPlainChar_iff.2 ⟨hblank, fun hmem => ?_⟩, ?_, ?_⟩
  · have hc := hsign c hmem
    simp only [Bool.or_eq_true, decide_eq_true_eq, beq_iff_eq] at hc
    omega
  · simp [isAllowed]
    omega
  · rintro rfl
    exact hascii (by decide)

namespace IsName

variable {s : Text}

theorem plain (h : IsName s) : ∀ c ∈ s, isPlainChar c = true :=
  fun c hc => (isPlainChar_of_name (h.2 c hc)).1

theorem plain_allowed (h : IsName s) : ∀ c ∈ s, isPlainChar c = true ∧ isAllowed c = true :=
  fun c hc => ⟨h.plain c hc, (isPlainChar_of_name (h.2 c hc)).2.1⟩

theorem noSlash (h : IsName s) : '/' ∉ s := fun hmem => (isPlainChar_of_name (h.2 _ hmem)).2.2 rfl

theorem isPart (h : IsName s) : IsPart s := by
  refine ⟨h.1, fun c hc => ?_⟩
  obtain ⟨hblank, hsign⟩ := Yaml.isPlainChar_iff.1 (h.plain c hc)
  have hcolon : c ≠ ':' := by
    rintro rfl
    exact hsign (by decide)
  have hmark : c ≠ '#' := by
    rintro rfl
    exact hsign (by decide)
  simp [isPartChar, hblank, hcolon, hmark]

end IsName

structure Selection.IsNamed (s : Selection) : Prop where
  group : IsName s.group
  name : IsName s.name

theorem Selection.IsNamed.isSimple {s : Selection} (h : s.IsNamed) : s.IsSimple :=
  ⟨h.group.isPart, h.name.isPart, h.name.noSlash⟩

/-- Whether an entry selects exactly the group and the name: as a group's name, or for files beside
the root document as a bare name. -/
def IsFor (s : Selection) : DefaultsEntry → Prop
  | .group g => g.group = s.group ∧ g.name = s.name
  | .bare name => s.group = rootGroup ∧ name = s.name
  | .selfMarker | .unrecognized _ => False

/-- Whether an item is decoded as one entry, which selects the group and the name. -/
def Selects (s : Selection) (item : Value) : Prop := ∃ x, decodeItem item = [x] ∧ IsFor s x

variable {s : Selection} {v : Value} {t : Text}

/-- A scalar selects what its text does, if it is a string. -/
theorem selects_scalar (h : Yaml.Scalar.plain? t = some v) :
    Selects s v ↔ IsVerbatim t ∧ IsFor s (decodeText t) := by
  simp only [Selects, decodeItem_scalar h, List.cons.injEq, and_true, exists_eq_left']
  split
  · next hverbatim => simp [hverbatim]
  · next hverbatim => simp [hverbatim, IsFor]

theorem not_selects_sequence (items : List Value) : ¬ Selects s (.sequence items) := by
  rintro ⟨x, hx, hfor⟩
  cases hx
  exact hfor

/-- The characters of which a name could be held to end before them. -/
def IsStop (c : Char) : Prop := c = '#' ∨ c = ':'

theorem IsStop.not_mem_name {c : Char} (hc : IsStop c) {r : Text} (h : IsName r) : c ∉ r := by
  rcases hc with rfl | rfl <;> exact h.isPart.not_mem (by decide)

theorem mem_splitOverride {c : Char} (hc : IsStop c) {key : Text} (hmem : c ∈ key) :
    c ∈ (splitOverride key).1 := by
  have hblank : Text.isBlank c = false := by rcases hc with rfl | rfl <;> rfl
  have hmark : c ∉ "override ".toList := by rcases hc with rfl | rfl <;> decide
  have hdrop : ∀ r : Text, c ∈ r → c ∈ r.dropWhile Text.isBlank := by
    intro r hr
    rw [← List.takeWhile_append_dropWhile (p := Text.isBlank) (l := r)] at hr
    refine (List.mem_append.1 hr).resolve_left fun h => ?_
    have hall := List.all_eq_true.1 List.all_takeWhile c h
    rw [hblank] at hall
    cases hall
  rw [splitOverride]
  split
  · exact hmem
  · cases h : Text.after? "override " key with
    | none => exact hmem
    | some r =>
      rw [Text.after?_eq_some_iff.1 h] at hmem
      have hr := (List.mem_append.1 hmem).resolve_left hmark
      exact List.mem_reverse.2 (hdrop _ (List.mem_reverse.2 (hdrop r hr)))

theorem not_isFor_decodeText (h : s.IsNamed) {c : Char} (hc : IsStop c) (hmem : c ∈ t) :
    ¬ IsFor s (decodeText t) := by
  have hbody := mem_splitOverride hc hmem
  rw [decodeText]
  split
  · exact id
  · dsimp only
    cases hsplit : Text.splitLast '/' (splitOverride t).1 with
    | none =>
      rintro ⟨-, rfl⟩
      exact hc.not_mem_name h.name hmem
    | some p =>
      obtain ⟨hw, -⟩ := Text.splitLast_eq_some hsplit
      rw [hw] at hbody
      dsimp only
      split
      · exact id
      · rintro ⟨hgroup, hname⟩
        have hslash : c ≠ '/' := by rcases hc with rfl | rfl <;> decide
        rcases List.mem_append.1 hbody with hmem | hmem
        · exact hc.not_mem_name h.group (hgroup ▸ hmem)
        · exact hc.not_mem_name h.name (hname ▸ (List.mem_cons.1 hmem).resolve_left hslash)

/-- Neither a scalar nor a key with one of these characters is part of an entry for names. -/
theorem not_selects_of_stop (h : s.IsNamed) {c : Char} (hc : IsStop c) (hmem : c ∈ t)
    (hv : Yaml.Scalar.plain? t = some v ∨
      ∃ key w es, Yaml.Scalar.plain? t = some key ∧ v = .mapping ((key, w) :: es)) :
      ¬ Selects s v := by
  rcases hv with hv | ⟨key, w, es, hkey, rfl⟩
  · exact fun hselects => not_isFor_decodeText h hc hmem ((selects_scalar hv).1 hselects).2
  · rintro ⟨x, hx, hfor⟩
    obtain ⟨rfl, -⟩ := List.cons.inj hx
    rw [decodePair] at hfor
    split at hfor
    · next key' name hk hn =>
      obtain ⟨-, rfl⟩ := (text?_eq_some_iff hkey).1 hk
      exact hc.not_mem_name h.group (hfor.1 ▸ mem_splitOverride hc hmem)
    · exact hfor

theorem isFor_path (h : s.IsNamed) (marked : Bool) :
    IsFor s (decodeText (markText marked ++ (s.group ++ '/' :: s.name))) := by
  have hplain : ∀ c ∈ s.group ++ '/' :: s.name, isPlainChar c = true :=
    List.forall_mem_append.2 ⟨h.group.plain, List.forall_mem_cons.2 ⟨by decide, h.name.plain⟩⟩
  have hself : markText marked ++ (s.group ++ '/' :: s.name) ≠ selfMarker := by
    intro heq
    have hmem : '/' ∈ markText marked ++ (s.group ++ '/' :: s.name) := by simp
    rw [heq] at hmem
    exact absurd hmem (by decide)
  rw [decodeText, if_neg hself]
  dsimp only
  rw [splitOverride_marked marked hplain, Text.splitLast_append s.group h.name.noSlash]
  simp [h.group.1, h.name.1, IsFor]

theorem isFor_bare (h : s.IsNamed) (hroot : s.group = rootGroup) :
    IsFor s (decodeText s.name) ↔ s.name ≠ selfMarker := by
  have hbody : (splitOverride s.name).1 = s.name := splitOverride_marked false h.name.plain
  rw [decodeText]
  split
  · next hself => simp [IsFor, hself]
  · next hself =>
    dsimp only
    rw [hbody]
    cases hsplit : Text.splitLast '/' s.name with
    | none => simp [IsFor, hroot, hself]
    | some p =>
      refine absurd ?_ h.name.noSlash
      rw [(Text.splitLast_eq_some hsplit).1]
      exact List.mem_append_right _ List.mem_cons_self

/-- A group with a name behind it selects both if they are strings, and the name is the one that is
asked for. -/
theorem selects_pair (h : s.IsNamed) {marked : Bool} {key w : Value}
    (hkey : Yaml.Scalar.plain? (markText marked ++ s.group) = some key)
    (hw : Yaml.Scalar.plain? t = some w) : Selects s (.mapping [(key, w)]) ↔
      (marked = true ∨ IsVerbatim s.group) ∧ IsVerbatim t ∧ t = s.name := by
  obtain ⟨b, hitem⟩ := decodeItem_pair h.group.plain hkey hw
  simp only [Selects, hitem, List.cons.injEq, and_true, exists_eq_left']
  split
  · next hstrings => simp [IsFor, hstrings]
  · next hnot => exact iff_of_false id fun hsound => hnot ⟨hsound.1, hsound.2.1⟩

end LayeredConfig.Rewrite
