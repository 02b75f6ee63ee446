import LayeredConfig.Proofs.Outcome
import LayeredConfig.Proofs.Yaml.Gaps
import LayeredConfig.Text.Blank

/-!
# Plain words

Scalars that are made of plain words, as they are read before a colon and at the end of a line.
-/
namespace LayeredConfig.Yaml

open Outcome

/-- A character without a meaning of its own: no white space, and none of the signs that begin or
end something else. A dash and a point are plain as well. -/
def isPlainChar (c : Char) : Bool :=
  ¬ Text.isBlank c && ¬ ['?', ':', ',', '[', ']', '\x7b', '\x7d', '#', '&', '*', '!', '|', '>',
    '\'', '"', '%', '@', '\x60', '\ufeff'].contains c

/-- A word that stands for itself in a document. A dash alone begins an item of a list. -/
structure IsWord (w : Text) : Prop where
  nonempty : w ≠ []
  notDash : w ≠ ['-']
  plain : ∀ c ∈ w, isPlainChar c = true

theorem isWord_iff {w : Text} : IsWord w ↔ w ≠ [] ∧ w ≠ ['-'] ∧ w.all isPlainChar = true := by
  rw [List.all_eq_true]
  exact ⟨fun h => ⟨h.nonempty, h.notDash, h.plain⟩, fun h => ⟨h.1, h.2.1, h.2.2⟩⟩

instance (w : Text) : Decidable (IsWord w) := decidable_of_iff' _ isWord_iff

/-- One word, or several with a blank between each two. -/
inductive IsPhrase : Text → Prop
  | word {w : Text} (h : IsWord w) : IsPhrase w
  | more {w s : Text} (h : IsWord w) (hs : IsPhrase s) : IsPhrase (w ++ ' ' :: s)

theorem isPlainChar_iff {c : Char} : isPlainChar c = true ↔ Text.isBlank c = false ∧
    c ∉ ['?', ':', ',', '[', ']', '\x7b', '\x7d', '#', '&', '*', '!', '|', '>', '\'', '"', '%', '@',
      '\x60', '\ufeff'] := by
  simp [isPlainChar]

theorem not_mem_of_plain {s : Text} (h : ∀ c ∈ s, isPlainChar c = true) {c : Char}
    (hc : isPlainChar c = false) : c ∉ s := fun hmem => by
  rw [h c hmem] at hc
  cases hc

theorem isBlank_of_isSpaceOrTab {c : Char} (h : isSpaceOrTab c = true) : Text.isBlank c = true := by
  simp only [isSpaceOrTab, Bool.or_eq_true, beq_iff_eq] at h
  rcases h with rfl | rfl <;> rfl

theorem isBlank_of_isBreak {c : Char} (h : isBreak c = true) : Text.isBlank c = true := by
  simp only [isBreak, Bool.or_eq_true, beq_iff_eq] at h
  rcases h with (rfl | rfl) | rfl <;> rfl

theorem isPlainChar_not_blank {c : Char} (h : isPlainChar c = true) :
    isSpaceOrTab c = false ∧ isBreak c = false := by
  have hblank := (isPlainChar_iff.1 h).1
  constructor
  · cases hc : isSpaceOrTab c with
    | false => rfl
    | true => rw [isBlank_of_isSpaceOrTab hc] at hblank; cases hblank
  · cases hc : isBreak c with
    | false => rfl
    | true => rw [isBlank_of_isBreak hc] at hblank; cases hblank

theorem IsWord.exists_cons {w : Text} (h : IsWord w) :
    ∃ x r, w = x :: r ∧ isPlainChar x = true := by
  cases w with
  | nil => exact absurd rfl h.nonempty
  | cons x r => exact ⟨x, r, rfl, h.plain x List.mem_cons_self⟩

theorem IsPhrase.exists_cons {s : Text} (h : IsPhrase s) :
    ∃ x r, s = x :: r ∧ isPlainChar x = true := by
  cases h with
  | word h => exact h.exists_cons
  | more h hs =>
    obtain ⟨x, r, rfl, hx⟩ := h.exists_cons
    exact ⟨x, r ++ ' ' :: _, rfl, hx⟩

theorem IsPhrase.isSettled {s : Text} (h : IsPhrase s) (r : Text) : IsSettled (s ++ r) := by
  obtain ⟨x, s, rfl, hx⟩ := h.exists_cons
  obtain ⟨hblank, hbreak⟩ := isPlainChar_not_blank hx
  have hmark := (isPlainChar_iff.1 hx).2
  intro y hy
  cases hy
  refine ⟨hblank, hbreak, ?_, ?_⟩ <;> rintro rfl <;> simp at hmark

/-- A phrase that begins with a dash goes on with a plain character. -/
theorem IsPhrase.of_dash {s : Text} (h : IsPhrase ('-' :: s)) :
    ∃ y r, s = y :: r ∧ isPlainChar y = true := by
  have hword : ∀ w : Text, IsWord ('-' :: w) → ∃ y r, w = y :: r ∧ isPlainChar y = true := by
    intro w hw
    cases w with
    | nil => exact absurd rfl hw.notDash
    | cons y w => exact ⟨y, w, rfl, hw.plain y (by simp)⟩
  generalize hp : '-' :: s = p at h
  cases h with
  | word hw =>
    subst hp
    exact hword s hw
  | @more w s' hw hs =>
    obtain ⟨x, w, rfl, -⟩ := hw.exists_cons
    obtain ⟨rfl, rfl⟩ := List.cons.inj hp
    obtain ⟨y, r, rfl, hy⟩ := hword w hw
    exact ⟨y, r ++ ' ' :: s', rfl, hy⟩

namespace Plain

/-- What ends a word: white space, a colon before white space, or the end of the text. -/
def EndsWord (r : Text) : Prop := gapAhead r = true ∨ ∃ r', r = ':' :: r' ∧ gapAhead r' = true

theorem run_word {w r : Text} (hw : ∀ c ∈ w, isPlainChar c = true) (hr : EndsWord r) :
    run false (w ++ r) = .ok w := by
  induction w with
  | nil =>
    rcases hr with hr | ⟨r, rfl, hr⟩
    · cases r with
      | nil => rfl
      | cons x r =>
        simp only [gapAhead] at hr
        simp [run, hr]
    · simp [run, isSpaceOrTab, isBreak, hr]
  | cons c w ih =>
    obtain ⟨hc, hw⟩ := List.forall_mem_cons.1 hw
    obtain ⟨hblank, hbreak⟩ := isPlainChar_not_blank hc
    have hcolon : c ≠ ':' := by
      rintro rfl
      simp [isPlainChar] at hc
    rw [List.cons_append, run, ih hw]
    simp [hblank, hbreak, hcolon, Except.map]

theorem skip_word {w : Text} (hw : ∀ c ∈ w, isBreak c = false) (r : Text) (line column : Nat) :
    (⟨w ++ r, line, column⟩ : Cursor).skip w.length = ⟨r, line, column + w.length⟩ := by
  induction w generalizing column with
  | nil => rfl
  | cons c w ih =>
    obtain ⟨hc, hw⟩ := List.forall_mem_cons.1 hw
    rw [List.cons_append, List.length_cons, Cursor.skip,
      Cursor.next_cons hc, ih hw]
    congr 1
    omega

/-- A word begins no document marker where it stands behind something, or begins otherwise. -/
theorem atMarker_word {w : Text} (hw : IsWord w) (r : Text) {line column : Nat}
    (h : column ≠ 0 ∨ w.head? ≠ some '-' ∧ w.head? ≠ some '.') :
    (⟨w ++ r, line, column⟩ : Cursor).atMarker = false := by
  obtain ⟨x, w, rfl, -⟩ := hw.exists_cons
  rw [Cursor.atMarker, Bool.and_eq_false_iff]
  rcases h with h | ⟨hdash, hpoint⟩
  · exact Or.inl (by simp [h])
  · right
    split
    · next heq =>
      exact absurd (congrArg some (List.cons.inj heq).1) hdash
    · next heq =>
      exact absurd (congrArg some (List.cons.inj heq).1) hpoint
    · rfl

theorem atMarker_phrase {s : Text} (hs : IsPhrase s) (r : Text) {line column : Nat}
    (h : column ≠ 0 ∨ s.head? ≠ some '-' ∧ s.head? ≠ some '.') :
    (⟨s ++ r, line, column⟩ : Cursor).atMarker = false := by
  cases hs with
  | word hw => exact atMarker_word hw r h
  | @more w s hw hs =>
    obtain ⟨x, w, rfl, -⟩ := hw.exists_cons
    rw [List.append_assoc]
    exact atMarker_word hw _ h

/-- One run of characters is read, and what follows it decides whether a further one is looked
for. -/
theorem parts_step {w r : Text} (hw : ∀ c ∈ w, isBreak c = false)
    (hrun : run false (w ++ r) = .ok w)
    (i fuel : Nat) (out : Text) (gap : Gap) {line column : Nat}
    (hmarker : (⟨w ++ r, line, column⟩ : Cursor).atMarker = false)
    (hmark : (w ++ r).head? ≠ some '#') :
    parts false i (fuel + 1) out gap ⟨w ++ r, line, column⟩ =
      let next := if w = [] then out else out ++ gap.text ++ w
      if r ≠ [] ∧ gapAhead r = true then do
        let (g, c) ← Gap.read i (r.length + 1) .empty ⟨r, line, column + w.length⟩
        if c.column < i then .ok (next, g.broken, c) else parts false i fuel next g c
      else .ok (next, w.isEmpty && gap.broken, ⟨r, line, column + w.length⟩) := by
  have hpeek : (⟨w ++ r, line, column⟩ : Cursor).peek ≠ some '#' := hmark
  rw [parts]
  simp only [hmarker, hpeek, hrun, skip_word hw, ok_bind]
  by_cases hgap : r ≠ [] ∧ gapAhead r = true
  · by_cases hempty : w = [] <;> simp [hempty, hgap, Cursor.atEnd]
  · have hstop : r = [] ∨ gapAhead r = false := by
      by_cases hr : r = []
      · exact Or.inl hr
      · exact Or.inr (Bool.eq_false_iff.2 fun hahead => hgap ⟨hr, hahead⟩)
    rw [if_neg hgap]
    by_cases hempty : w = []
    · simp [hempty, hstop, Cursor.atEnd]
    · have hfull : w.isEmpty = false := by simpa using hempty
      simp [hempty, hfull, hstop, Cursor.atEnd]

theorem parts_word {w r : Text} (hw : IsWord w) (hr : EndsWord r) (i fuel : Nat) (out : Text)
    (gap : Gap) {line column : Nat}
    (hcolumn : column ≠ 0 ∨ w.head? ≠ some '-' ∧ w.head? ≠ some '.') :
    parts false i (fuel + 1) out gap ⟨w ++ r, line, column⟩ =
      if r ≠ [] ∧ gapAhead r = true then do
        let (g, c) ← Gap.read i (r.length + 1) .empty ⟨r, line, column + w.length⟩
        if c.column < i then .ok (out ++ gap.text ++ w, g.broken, c)
        else parts false i fuel (out ++ gap.text ++ w) g c
      else .ok (out ++ gap.text ++ w, false, ⟨r, line, column + w.length⟩) := by
  have hmark : (w ++ r).head? ≠ some '#' := fun h =>
    ((IsPhrase.word hw).isSettled r _ h).2.2.1 rfl
  have hbreak : ∀ c ∈ w, isBreak c = false := fun c hc => (isPlainChar_not_blank (hw.plain c hc)).2
  have hempty : w.isEmpty = false := by simpa using hw.nonempty
  rw [parts_step hbreak (run_word hw.plain hr) i fuel out gap (atMarker_word hw r hcolumn) hmark]
  simp only [hw.nonempty, if_false, hempty, Bool.false_and]

/-- The blank between two words of a phrase. -/
theorem read_blank (i fuel : Nat) {r : Text} (hr : IsSettled r) (line column : Nat) :
    Gap.read i (fuel + 1) .empty ⟨' ' :: r, line, column⟩ =
      .ok (⟨[' '], false, [], []⟩, ⟨r, line, column + 1⟩) := by
  have hblank : isSpaceOrTab ' ' = true := rfl
  rw [Gap.read]
  simp only [hblank, if_true, Cursor.next_cons (show isBreak ' ' = false from rfl)]
  exact Gap.read_settled i fuel _ hr line (column + 1)

/-- A phrase is read word by word. -/
theorem parts_phrase {s r : Text} (hs : IsPhrase s) (hr : EndsWord r) {i : Nat} (fuel : Nat)
    (out : Text) (gap : Gap) {line column : Nat}
    (hcolumn : column ≠ 0 ∨ s.head? ≠ some '-' ∧ s.head? ≠ some '.') (hindent : i ≤ column)
    (hfuel : s.length ≤ fuel) : ∃ fuel',
    parts false i (fuel + 1) out gap ⟨s ++ r, line, column⟩ =
      if r ≠ [] ∧ gapAhead r = true then do
        let (g, c) ← Gap.read i (r.length + 1) .empty ⟨r, line, column + s.length⟩
        if c.column < i then .ok (out ++ gap.text ++ s, g.broken, c)
        else parts false i fuel' (out ++ gap.text ++ s) g c
      else .ok (out ++ gap.text ++ s, false, ⟨r, line, column + s.length⟩) := by
  induction hs generalizing fuel out gap column with
  | word hw => exact ⟨fuel, parts_word hw hr i fuel out gap hcolumn⟩
  | @more w s hw hs ih =>
    have hsettled : IsSettled (s ++ r) := hs.isSettled r
    have hblank : EndsWord (' ' :: (s ++ r)) := Or.inl rfl
    have hcolumn' : column ≠ 0 ∨ w.head? ≠ some '-' ∧ w.head? ≠ some '.' := by
      obtain ⟨x, w, rfl, -⟩ := hw.exists_cons
      exact hcolumn
    simp only [List.length_append, List.length_cons] at hfuel
    obtain ⟨fuel, rfl⟩ := Nat.exists_eq_add_of_le' (show 1 ≤ fuel by omega)
    have hlater : ¬ column + w.length + 1 < i := by omega
    have hthere : column + w.length + 1 ≠ 0 := Nat.succ_ne_zero _
    obtain ⟨fuel', hrest⟩ := ih fuel (out ++ gap.text ++ w) ⟨[' '], false, [], []⟩ (Or.inl hthere)
      (Nat.le_of_not_lt hlater) (by omega)
    refine ⟨fuel', ?_⟩
    rw [List.append_assoc, List.cons_append, parts_word hw hblank i (fuel + 1) out gap hcolumn',
      if_pos ⟨List.cons_ne_nil _ _, rfl⟩, read_blank i _ hsettled, ok_bind]
    simp only [if_neg hlater]
    rw [hrest]
    have hlength : column + w.length + 1 + s.length = column + (w ++ ' ' :: s).length := by
      simp only [List.length_append, List.length_cons]
      omega
    have htext : out ++ gap.text ++ w ++ Gap.text ⟨[' '], false, [], []⟩ ++ s =
        out ++ gap.text ++ (w ++ ' ' :: s) := by
      simp [Gap.text]
    rw [hlength, htext]

/-- A phrase before a colon is read as it stands. -/
theorem read_key {s r : Text} (hs : IsPhrase s) (hr : gapAhead r = true) {parent : Int}
    (line : Nat) {column : Nat} (hcolumn : column ≠ 0 ∨ s.head? ≠ some '-' ∧ s.head? ≠ some '.')
    (hindent : parent < column) :
    read false parent ⟨s ++ ':' :: r, line, column⟩ =
      .ok (s, false, ⟨':' :: r, line, column + s.length⟩) := by
  have hends : EndsWord (':' :: r) := Or.inr ⟨r, rfl, hr⟩
  obtain ⟨fuel', hparts⟩ := parts_phrase hs hends (i := (parent + 1).toNat)
    (s ++ ':' :: r).length [] .empty hcolumn (by omega) (by simp)
  have hcolon : ¬ (':' :: r ≠ [] ∧ gapAhead (':' :: r) = true) := by
    simp [gapAhead, isSpaceOrTab, isBreak]
  rw [read, hparts, if_neg hcolon]
  simp [Gap.empty, Gap.text]

/-- No further word is looked for in a comment. -/
theorem parts_comment (i fuel : Nat) (out : Text) (gap : Gap) (r : Text) (line column : Nat) :
    parts false i fuel out gap ⟨'#' :: r, line, column⟩ =
      .ok (out, gap.broken, ⟨'#' :: r, line, column⟩) := by
  cases fuel with
  | zero => rfl
  | succ fuel => simp [parts, Cursor.peek]

theorem gapAhead_margin {t : Text} {ts : List Text} (ht : IsFiller t) (hmark : t.head? ≠ some '#')
    (k : Nat) (r : Text) : gapAhead (margin (t :: ts) k ++ r) = true := by
  obtain ⟨n, comment, rfl, hcomment, -⟩ := ht
  rw [margin_cons]
  cases n with
  | zero =>
    rcases hcomment with rfl | hcomment
    · rfl
    · exact absurd hcomment hmark
  | succ n => rfl

/-- A phrase at the end of a line is read with a part of the gap behind it, and the rest of the gap
is skipped afterwards. -/
theorem read_line {s : Text} (hs : IsPhrase s) {t : Text} {ts : List Text}
    (hts : ∀ x ∈ t :: ts, IsFiller x) (hmark : t.head? ≠ some '#') {k : Nat} {r : Text}
    (hr : IsSettled r) {parent : Int} (hk : (k : Int) ≤ parent) (line : Nat) {column : Nat}
    (hcolumn : column ≠ 0 ∨ s.head? ≠ some '-' ∧ s.head? ≠ some '.')
    (hindent : parent < column) : ∃ broken c,
    read false parent ⟨s ++ (margin (t :: ts) k ++ r), line, column⟩ = .ok (s, broken, c) ∧
      ∀ l : Lexer, l.inFlow = false →
        Lexer.skipGap (c.rest.length + 1) { l with cursor := c, keyAllowed := broken } =
          { l with cursor := ⟨r, line + (t :: ts).length, k⟩, keyAllowed := true } := by
  have hgap : gapAhead (margin (t :: ts) k ++ r) = true :=
    gapAhead_margin (hts t List.mem_cons_self) hmark k r
  have hsome : margin (t :: ts) k ++ r ≠ [] := by
    rw [margin_cons]
    simp
  obtain ⟨fuel', hparts⟩ := parts_phrase hs (Or.inl hgap) (i := (parent + 1).toNat)
    (s ++ (margin (t :: ts) k ++ r)).length [] .empty hcolumn (by omega) (by simp)
  obtain ⟨g, us, j, line', column', hread, hle, hlines, hus, hbroken, hend⟩ :=
    Gap.read_margin (parent + 1).toNat hts k hr .empty line (column + s.length)
      ((margin (t :: ts) k ++ r).length + 1) (by rw [List.length_append]; omega)
  refine ⟨g.broken, ⟨margin us j ++ r, line', column'⟩, ?_, ?_⟩
  · rw [read, hparts, if_pos ⟨hsome, hgap⟩, hread, ok_bind]
    simp only [List.nil_append, Gap.empty, Gap.text, Bool.false_eq_true, if_false]
    rcases hend with ⟨rfl, rfl, rfl⟩ | ⟨⟨c, us', rfl⟩, rfl⟩
    · rw [if_pos (show _ < (parent + 1).toNat by omega)]
    · split
      · rfl
      · rw [margin_cons]
        exact parts_comment _ _ _ _ _ _ _
  · intro l hflow
    have hfuel : us.length < (margin us j ++ r).length + 1 := by
      have := length_margin us j
      simp only [List.length_append]
      omega
    rw [Lexer.skipGap_margin (l := { l with keyAllowed := g.broken }) hflow hus hr line' column' _
      hfuel]
    rw [hlines]
    rcases hend with ⟨rfl, rfl, rfl⟩ | ⟨⟨c, us', rfl⟩, rfl⟩
    · have hlater : line < line' := by
        simp only [List.length_nil, List.length_cons] at hlines
        omega
      simp [hbroken, hlater]
    · simp

end Plain
end LayeredConfig.Yaml
