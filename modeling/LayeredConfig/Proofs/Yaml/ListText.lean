import LayeredConfig.Proofs.Yaml.Growth
import LayeredConfig.Proofs.Yaml.ListNode

/-!
# Reading a list

What a text that begins with a list under a key is read as, if it can be read at all.
-/
namespace LayeredConfig.Yaml

open Outcome ItemLine

/-- What follows a list: nothing, or a line that begins neither with white space nor with a comment
or a dash. -/
def BeginsLine (s : Text) : Prop :=
  ∀ x ∈ s.head?, Text.isBlank x = false ∧ x ≠ '#' ∧ x ≠ '-' ∧ x ≠ '\ufeff'

theorem normalizeBreaks_cons {c : Char} (hcr : c ≠ '\r') (hnel : c ≠ '\u0085') (s : Text) :
    normalizeBreaks (c :: s) = c :: normalizeBreaks s := by
  rw [normalizeBreaks.eq_3 c s (fun t h => absurd h hcr), if_neg (by simp [hcr, hnel])]

/-- Where no carriage return and no next line stands, breaks are written as they should be. -/
theorem normalizeBreaks_append {s : Text} (hs : ∀ x ∈ s, x ≠ '\r' ∧ x ≠ '\u0085') (r : Text) :
    normalizeBreaks (s ++ r) = s ++ normalizeBreaks r := by
  induction s with
  | nil => rfl
  | cons c s ih =>
    obtain ⟨⟨hcr, hnel⟩, hs⟩ := List.forall_mem_cons.1 hs
    rw [List.cons_append, normalizeBreaks_cons hcr hnel, ih hs, List.cons_append]

theorem BeginsLine.normalizeBreaks {s : Text} (h : BeginsLine s) :
    BeginsLine (normalizeBreaks s) := by
  cases s with
  | nil => exact h
  | cons c s =>
    have hblank := (h c rfl).1
    have hcr : c ≠ '\r' := by
      rintro rfl
      cases hblank
    have hnel : c ≠ '\u0085' := by
      rintro rfl
      cases hblank
    rw [normalizeBreaks_cons hcr hnel]
    exact h

theorem BeginsLine.isSettled {s : Text} (h : BeginsLine s) : IsSettled s := by
  intro x hx
  obtain ⟨hblank, hmark, -, hbom⟩ := h x hx
  refine ⟨?_, ?_, hmark, hbom⟩
  · cases hc : isSpaceOrTab x with
    | false => rfl
    | true => rw [isBlank_of_isSpaceOrTab hc] at hblank; cases hblank
  · cases hc : isBreak x with
    | false => rfl
    | true => rw [isBlank_of_isBreak hc] at hblank; cases hblank

/-- A text in which only line feeds, line separators and paragraph separators end lines. -/
def IsNormal (s : Text) : Prop := ∀ x ∈ s, x ≠ '\r' ∧ x ≠ '\u0085'

theorem isNormal_append {s r : Text} : IsNormal (s ++ r) ↔ IsNormal s ∧ IsNormal r :=
  List.forall_mem_append

theorem isNormal_cons {c : Char} {s : Text} :
    IsNormal (c :: s) ↔ (c ≠ '\r' ∧ c ≠ '\u0085') ∧ IsNormal s :=
  List.forall_mem_cons

theorem isNormal_blanks (n : Nat) : IsNormal (List.replicate n ' ') := by
  intro x hx
  rw [List.eq_of_mem_replicate hx]
  decide

theorem IsFiller.isNormal {s : Text} (h : IsFiller s) : IsNormal s := by
  intro x hx
  have hx := h.unbroken x hx
  simp only [endsLine, Bool.or_eq_false_iff, beq_eq_false_iff_ne] at hx
  exact ⟨hx.1.2, hx.2⟩

theorem isNormal_margin {ts : List Text} (hts : ∀ s ∈ ts, IsFiller s) (k : Nat) :
    IsNormal (margin ts k) := by
  induction ts with
  | nil => exact isNormal_blanks k
  | cons s ts ih =>
    obtain ⟨hs, hts⟩ := List.forall_mem_cons.1 hts
    rw [margin_cons, isNormal_append, isNormal_cons]
    exact ⟨hs.isNormal, by decide, ih hts⟩

theorem isNormal_of_plain {w : Text} (hw : ∀ c ∈ w, isPlainChar c = true) : IsNormal w := by
  intro x hx
  have hblank := (isPlainChar_iff.1 (hw x hx)).1
  constructor <;> rintro rfl <;> cases hblank

theorem IsPhrase.isNormal {s : Text} (h : IsPhrase s) : IsNormal s := by
  induction h with
  | word hw => exact isNormal_of_plain hw.plain
  | more hw hs ih =>
    rw [isNormal_append, isNormal_cons]
    exact ⟨isNormal_of_plain hw.plain, by decide, ih⟩

theorem Item.isNormal (i : Item) : IsNormal i.text := by
  cases i with
  | phrase s hs => exact hs.isNormal
  | pair key hkey blanks name hname =>
    rw [Item.text, isNormal_append, isNormal_cons, isNormal_append]
    exact ⟨hkey.isNormal, by decide, isNormal_blanks _, hname.isNormal⟩

/-- What follows a list does not matter to the text of the list. -/
theorem normalizeBreaks_block (k : Nat) (rest : Text) (ls : List ItemLine) :
    normalizeBreaks (block k rest ls) = block k (normalizeBreaks rest) ls := by
  induction ls with
  | nil => rfl
  | cons l ls ih =>
    rw [block, normalizeBreaks_cons (by decide) (by decide),
      normalizeBreaks_cons (by decide) (by decide), normalizeBreaks_append l.item.isNormal,
      normalizeBreaks_append (isNormal_margin l.filled _), ih]
    rfl

/-- **The list at the beginning of a document is read item by item.** If the document can be read,
its first entry holds the values of the items, whatever the rest of the document is. -/
theorem read_list {key : Text} (hkey : IsPhrase key)
    (hbegin : key.head? ≠ some '-' ∧ key.head? ≠ some '.') {above : List Text}
    (habove : ∀ s ∈ above, IsFiller s) {t : Text} {ts : List Text} (hts : ∀ s ∈ t :: ts, IsFiller s)
    (hmark : t.head? ≠ some '#') {k : Nat} (l : ItemLine) (ls : List ItemLine) {rest : Text}
    (hrest : BeginsLine rest) {v : Value}
    (h : read (margin above 0 ++ (key ++ ':' :: (margin (t :: ts) k ++ block k rest (l :: ls)))) =
      .ok v) : ∃ kv vs es,
    Scalar.plain? key = some kv ∧ (l :: ls).map (·.item.value?) = vs.map some ∧
      v = .mapping ((kv, .sequence vs) :: es) := by
  obtain ⟨found, htokens, h⟩ := bind_eq_ok.1 h
  obtain ⟨n, hnode, h⟩ := bind_eq_ok.1 h
  obtain ⟨⟨v', followed⟩, hbuild, h⟩ := bind_eq_ok.1 h
  cases h
  rw [tokens] at htokens
  split at htokens
  · dsimp only at htokens
    rw [normalizeBreaks_append (isNormal_margin habove 0), normalizeBreaks_append hkey.isNormal,
      normalizeBreaks_cons (by decide) (by decide), normalizeBreaks_append (isNormal_margin hts k),
      normalizeBreaks_block] at htokens
    have hrest := hrest.normalizeBreaks
    obtain ⟨line, hfinds⟩ :=
      Lexer.finds_of_list hkey hbegin habove hts hmark l ls hrest.isSettled htokens
    obtain ⟨more, rfl, hmore⟩ := hfinds.beginning fun hdash => (hrest _ hdash).2.2.1 rfl
    rw [List.reverse_reverse] at hnode
    obtain ⟨entries, rfl⟩ := Node.ofTokens_list l ls hmore hnode
    exact build_list hbuild
  · cases htokens

end LayeredConfig.Yaml
