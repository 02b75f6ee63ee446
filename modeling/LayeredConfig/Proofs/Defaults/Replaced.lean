import Mathlib.Data.List.TakeWhile
import LayeredConfig.Proofs.Defaults.Selected

/-!
# Replacing a choice on its line

Each of the passes of a rewrite looks for one way of writing the old choice. On the line of an entry
it puts the new spelling in the place of the old one, if the entry is spelled in that way; the mark
before it and the end of the line stay.
-/
namespace LayeredConfig

open Yaml (IsWord IsFiller isPlainChar not_mem_of_plain)
open Rewrite

namespace Choice

theorem isWord_asPath (c : Choice) : IsWord c.selection.asPath := by
  rw [Selection.asPath]
  split
  · exact c.name.isWord
  · refine ⟨by simp, ?_, ?_⟩
    · intro h
      have hmem : '/' ∈ ['-'] := h ▸ List.mem_append_right _ List.mem_cons_self
      exact absurd hmem (by decide)
    · exact List.forall_mem_append.2 ⟨c.group.isWord.plain,
        List.forall_mem_cons.2 ⟨by decide, c.name.isWord.plain⟩⟩

/-- The choice as a path, or as a bare name for a file beside the root document. -/
def path (c : Choice) : Word := ⟨c.selection.asPath, c.isWord_asPath⟩

/-- The choice as a mapping, or as a bare name for a file beside the root document. -/
def mapping (c : Choice) : Spelling :=
  if c.group.text = Defaults.rootGroup then .scalar c.name else .pair c.group 0 c.name

theorem text_mapping (c : Choice) : c.mapping.text = c.selection.asMapping := by
  rw [mapping, Selection.asMapping]
  by_cases h : c.group.text = Defaults.rootGroup
  · rw [if_pos h, if_pos (show c.selection.group = _ from h)]
    rfl
  · rw [if_neg h, if_neg (show c.selection.group ≠ _ from h)]
    simp [Spelling.text, selection]

def isPath (c : Choice) : Spelling → Bool
  | .scalar w => w.text = c.group.text ++ '/' :: c.name.text
  | .pair _ _ _ => false

def isMapping (c : Choice) : Spelling → Bool
  | .scalar _ => false
  | .pair g _ n => g.text = c.group.text ∧ n.text = c.name.text

def isBare (c : Choice) : Spelling → Bool
  | .scalar w => w.text = c.name.text
  | .pair _ _ _ => false

end Choice

/-- The entry with another spelling. -/
def EntryLine.respell (new : Spelling) (e : EntryLine) : EntryLine := { e with spelling := new }

/-- The entry with another spelling, if it is spelled in a given way. -/
def EntryLine.replace (is : Spelling → Bool) (new : Spelling) (e : EntryLine) : EntryLine :=
  if is e.spelling then e.respell new else e

/-- A bare name is replaced only where no mark stands before it. -/
def EntryLine.replaceBare (old new : Choice) (e : EntryLine) : EntryLine :=
  if e.marked then e else e.replace old.isBare (.scalar new.path)

theorem isBlankChar_replicate (n : Nat) : ∀ x ∈ List.replicate n ' ', isBlankChar x = true := by
  intro x hx
  rw [List.eq_of_mem_replicate hx]
  rfl

theorem isBlankChar_of_plain {c : Char} (h : isPlainChar c = true) : isBlankChar c = false :=
  (Yaml.isPlainChar_not_blank h).1

theorem isTight_of_plain {s : Text} (h : ∀ c ∈ s, isPlainChar c = true) : IsTight s where
  noComment := not_mem_of_plain h rfl
  noReturn := not_mem_of_plain h rfl
  last := fun x hx => isBlankChar_of_plain (h x (List.mem_of_getLast? hx))

theorem Word.isTight (w : Word) : IsTight w.text := isTight_of_plain w.isWord.plain

theorem Word.noColon (w : Word) : ':' ∉ w.text := not_mem_of_plain w.isWord.plain rfl

theorem Word.noLineFeed (w : Word) : '\n' ∉ w.text := not_mem_of_plain w.isWord.plain rfl

theorem Spelling.isTight (s : Spelling) : IsTight s.text := by
  cases s with
  | scalar w => exact w.isTight
  | pair g blanks n =>
    have hbegin : '#' ∉ g.text ++ ':' :: List.replicate (blanks + 1) ' ' ∧
        '\r' ∉ g.text ++ ':' :: List.replicate (blanks + 1) ' ' := by
      simp [g.isTight.noComment, g.isTight.noReturn, List.mem_replicate]
    simpa [Spelling.text] using isTight_append hbegin n.isTight n.isWord.nonempty

theorem Spelling.noLineFeed (s : Spelling) : '\n' ∉ s.text := by
  cases s with
  | scalar w => exact w.noLineFeed
  | pair g blanks n => simp [Spelling.text, g.noLineFeed, n.noLineFeed, List.mem_replicate]

theorem isTight_marked (marked : Bool) (s : Spelling) : IsTight (markText marked ++ s.text) := by
  have hne : s.text ≠ [] := by
    cases s with
    | scalar w => exact w.isWord.nonempty
    | pair g blanks n => simp [Spelling.text]
  exact isTight_append (by cases marked <;> decide) s.isTight hne

theorem noLineFeed_marked (marked : Bool) (s : Spelling) : '\n' ∉ markText marked ++ s.text := by
  have hmark : '\n' ∉ markText marked := by cases marked <;> decide
  simp [hmark, s.noLineFeed]

/-- What may stand behind the last token of a line may stand behind a selection. -/
theorem isTail_of_isFiller {s : Text} (h : IsFiller s) : IsTail s := by
  obtain ⟨n, comment, rfl, hcomment, hbroken⟩ := h
  have hin : ∀ x ∈ comment, inComment x = true := by
    intro x hx
    have hx := hbroken x hx
    simp only [Yaml.endsLine, Bool.or_eq_false_iff, beq_eq_false_iff_ne] at hx
    have hlf : x ≠ '\n' := by
      rintro rfl
      exact absurd hx.1.1 (by decide)
    simp [inComment, hx.1.2, hlf]
  have hblanks := isBlankChar_replicate n
  rcases hcomment with rfl | hmark
  · have htail := Tail.isTail_text ⟨List.replicate n ' ', none, false, hblanks, by simp⟩
    simpa [Tail.text, Tail.commentText] using htail
  · obtain ⟨r, rfl⟩ := List.head?_eq_some_iff.1 hmark
    have hr : ∀ x ∈ r, inComment x = true := (List.forall_mem_cons.1 hin).2
    have htail := Tail.isTail_text ⟨List.replicate n ' ', some r, false, hblanks, by simpa using hr⟩
    simpa [Tail.text, Tail.commentText] using htail

namespace Rewrite

variable {form : Text → Option (Text × Text)} {A : Text → Prop}

/-- A line without a dash in front holds no entry. -/
theorem find?_eq_none {marked : Bool} {s : Text} (h : (s.dropWhile isBlankChar).head? ≠ some '-') :
    find? form marked s = none := by
  have hdash : Text.after? "- " (s.dropWhile isBlankChar) = none := by
    cases ha : Text.after? "- " (s.dropWhile isBlankChar) with
    | none => rfl
    | some r =>
      rw [Text.after?_eq_some_iff.1 ha] at h
      exact absurd rfl h
  rw [find?, hdash]
  rfl

/-- What begins with a plain character is not found where a blank stands, or nothing. -/
theorem form_eq_none (h : Accepts form A) (hbegin : ∀ w, A w → ∃ x ∈ w.head?, isPlainChar x = true)
    {s : Text} (hline : '\n' ∉ s) (hs : ∀ x ∈ s.head?, isPlainChar x = false) : form s = none := by
  cases hf : form s with
  | none => rfl
  | some f =>
    obtain ⟨hw, heq, -⟩ := h.sound s f.1 f.2 hline hf
    obtain ⟨x, hx, hplain⟩ := hbegin f.1 hw
    rw [hs x (by rw [heq, List.head?_append, hx]; rfl)] at hplain
    cases hplain

/-- The mark ends with its only blank. -/
theorem mark_cut {w d : Text} (h : markText true = w ++ ' ' :: d) : d = [] := by
  have hlength : 9 = w.length + (d.length + 1) := by
    have hlength := congrArg List.length h
    rwa [List.length_append, List.length_cons] at hlength
  have hblank : (markText true)[w.length]? = some ' ' := by
    rw [h]
    simp
  have honly : ∀ i < 9, (markText true)[i]? = some ' ' → i = 8 := by decide
  have hw := honly w.length (by omega) hblank
  exact List.length_eq_zero_iff.1 (by omega)

/-- What is taken for a mark where none stands is a word of its own: no plain character follows
it. -/
theorem after?_mark {s : Spelling} {tail r : Text} (ht : IsFiller tail)
    (hapart : tail.head? ≠ some '#')
    (h : Text.after? "override " (s.text ++ tail) = some r) :
    '\n' ∉ r ∧ ∀ x ∈ r.head?, isPlainChar x = false := by
  have hline : '\n' ∉ s.text ++ tail := fun hmem =>
    (List.mem_append.1 hmem).elim s.noLineFeed (isTail_of_isFiller ht).1
  refine ⟨not_mem_of_after? h hline, ?_⟩
  obtain ⟨n, comment, rfl, hcomment, -⟩ := ht
  have hcut : ∀ (w : Word) (u : Text), markText true ++ r = w.text ++ u →
      ∃ x d, markText true = w.text ++ x :: d ∧ u = x :: d ++ r := by
    intro w u heq
    rcases List.append_eq_append_iff.1 heq with ⟨d, hw, -⟩ | ⟨d, hmark, rfl⟩
    · exact absurd hw.symm (marked_ne_word d w)
    · cases d with
      | nil => exact absurd hmark (by simpa using marked_ne_word [] w)
      | cons x d => exact ⟨x, d, hmark, rfl⟩
  have heq := (Text.after?_eq_some_iff.1 h).symm
  cases s with
  | pair g blanks name =>
    simp only [Spelling.text, List.append_assoc, List.cons_append] at heq
    obtain ⟨x, d, hmark, hu⟩ := hcut g _ heq
    obtain ⟨rfl, -⟩ := List.cons.inj hu
    have hmem : ':' ∈ markText true := hmark ▸ List.mem_append_right _ List.mem_cons_self
    exact absurd hmem (by decide)
  | scalar w =>
    obtain ⟨x, d, hmark, hu⟩ := hcut w _ heq
    cases n with
    | zero =>
      rcases hcomment with rfl | hcomment
      · cases hu
      · exact absurd hcomment hapart
    | succ n =>
      rw [List.replicate_succ, List.cons_append, List.cons_append] at hu
      obtain ⟨rfl, hr⟩ := List.cons.inj hu
      obtain rfl := mark_cut hmark
      rw [List.nil_append] at hr
      rw [← hr]
      intro x hx
      cases n with
      | succ n =>
        cases hx
        rfl
      | zero =>
        rcases hcomment with rfl | hcomment
        · cases hx
        · cases hcomment.symm.trans hx
          rfl

open Classical in
/-- **A pass puts the new spelling in the place of the one it looks for.** -/
theorem rewriteLine_marked (h : Accepts form A)
    (hbegin : ∀ w, A w → ∃ x ∈ w.head?, isPlainChar x = true)
    (hmark : ∀ s : Spelling, ¬ A (markText true ++ s.text)) {is : Spelling → Bool}
    (his : ∀ s : Spelling, A s.text ↔ is s = true) (new : Spelling) (k : Nat) (e : EntryLine) :
    rewriteLine (find? form true) new.text (e.line k) = (e.replace is new).line k := by
  obtain ⟨marked, spelling, tail, below, filled, apart⟩ := e
  have htail := filled tail List.mem_cons_self
  have hform := h.exact spelling.isTight spelling.noLineFeed (isTail_of_isFiller htail)
  rw [EntryLine.line, rewriteLine, find?_item (isBlankChar_replicate k), if_pos rfl]
  cases marked with
  | true =>
    have hnone := h.exact (isTight_marked true spelling) (noLineFeed_marked true spelling)
      (isTail_of_isFiller htail)
    rw [if_neg (hmark spelling)] at hnone
    have hafter : Text.after? "override " (markText true ++ spelling.text ++ tail) =
        some (spelling.text ++ tail) := by
      rw [List.append_assoc]
      exact Text.after?_eq_some_iff.2 rfl
    rw [hafter, Option.bind_some, hform, hnone]
    by_cases hA : A spelling.text
    · simp [EntryLine.replace, EntryLine.respell, EntryLine.line, hA, (his spelling).1 hA, markText]
    · simp [EntryLine.replace, EntryLine.line, hA, mt (his spelling).2 hA, markText]
  | false =>
    have hnone : (Text.after? "override " (spelling.text ++ tail)).bind form = none := by
      cases hafter : Text.after? "override " (spelling.text ++ tail) with
      | none => rfl
      | some r =>
        obtain ⟨hline, hhead⟩ := after?_mark htail apart hafter
        exact form_eq_none h hbegin hline hhead
    have hunmarked : markText false ++ spelling.text ++ tail = spelling.text ++ tail := rfl
    rw [hunmarked, hnone, hform]
    by_cases hA : A spelling.text
    · simp [EntryLine.replace, EntryLine.respell, EntryLine.line, hA, (his spelling).1 hA, markText]
    · simp [EntryLine.replace, EntryLine.line, hA, mt (his spelling).2 hA, markText]

variable {old : Choice}

theorem rewriteLine_path (old new : Choice) (k : Nat) (e : EntryLine) :
    rewriteLine (find? (pathForm? old.selection) true) new.selection.asPath (e.line k) =
      (e.replace old.isPath (.scalar new.path)).line k := by
  have hplain : ∀ c ∈ old.group.text ++ '/' :: old.name.text, isPlainChar c = true :=
    List.forall_mem_append.2 ⟨old.group.isWord.plain,
      List.forall_mem_cons.2 ⟨by decide, old.name.isWord.plain⟩⟩
  refine rewriteLine_marked (accepts_pathForm? (isTight_of_plain hplain)) ?_ ?_ ?_
    (.scalar new.path) k e
  · rintro w rfl
    obtain ⟨x, r, hx, hxp⟩ := old.group.isWord.exists_cons
    exact ⟨x, by simp [Choice.selection, hx], hxp⟩
  · intro s hs
    refine not_mem_of_plain hplain (c := ' ') rfl ?_
    rw [← show markText true ++ s.text = old.group.text ++ '/' :: old.name.text from hs]
    exact List.mem_append_left _ (by decide)
  · intro s
    cases s with
    | scalar w => simp [Choice.isPath, Spelling.text, Choice.selection]
    | pair g blanks n =>
      refine iff_of_false (fun heq => not_mem_of_plain hplain (c := ':') rfl ?_)
        (by simp [Choice.isPath])
      rw [← show g.text ++ ':' :: _ = old.group.text ++ '/' :: old.name.text from heq]
      simp

theorem rewriteLine_bare (old new : Choice) (k : Nat) (e : EntryLine) :
    rewriteLine (find? (bareForm? old.selection) false) new.selection.asPath (e.line k) =
      (e.replaceBare old new).line k := by
  obtain ⟨marked, spelling, tail, below, filled, apart⟩ := e
  have htail := isTail_of_isFiller (filled tail List.mem_cons_self)
  have haccepts : Accepts (bareForm? old.selection) (· = old.name.text) :=
    accepts_bareForm? old.name.isTight
  have hform :=
    haccepts.exact (isTight_marked marked spelling) (noLineFeed_marked marked spelling) htail
  rw [EntryLine.line, rewriteLine,
    find?_item (isBlankChar_replicate k), if_neg Bool.false_ne_true, hform, EntryLine.replaceBare]
  cases marked with
  | true => simp [marked_ne_word, EntryLine.line]
  | false =>
    cases spelling with
    | scalar w =>
      by_cases hw : w.text = old.name.text
      · simp [EntryLine.replace, EntryLine.respell, EntryLine.line, Choice.isBare, Spelling.text,
          hw, markText, Choice.path]
      · simp [EntryLine.replace, EntryLine.line, Choice.isBare, Spelling.text, hw, markText]
    | pair g blanks n =>
      have hne : (Spelling.pair g blanks n).text ≠ old.name.text := by
        intro heq
        refine old.name.noColon ?_
        rw [← heq]
        simp [Spelling.text]
      simp [EntryLine.replace, EntryLine.line, Choice.isBare, hne, markText]

/-- A text is cut at its first colon. -/
theorem colon_cut {a b c d : Text} (ha : ':' ∉ a) (hc : ':' ∉ c)
    (h : a ++ ':' :: b = c ++ ':' :: d) :
    a = c ∧ b = d := by
  rcases List.append_eq_append_iff.1 h with ⟨m, rfl, hm⟩ | ⟨m, rfl, hm⟩
  · cases m with
    | nil => simpa using hm
    | cons x m =>
      obtain ⟨rfl, -⟩ := List.cons.inj hm
      exact absurd (List.mem_append_right _ List.mem_cons_self) hc
  · cases m with
    | nil => simpa using hm.symm
    | cons x m =>
      obtain ⟨rfl, -⟩ := List.cons.inj hm
      exact absurd (List.mem_append_right _ List.mem_cons_self) ha

theorem eq_nil_of_blank_plain {s : Text} (hblank : ∀ x ∈ s, isBlankChar x = true)
    (hplain : ∀ x ∈ s, isPlainChar x = true) : s = [] := by
  cases s with
  | nil => rfl
  | cons x s =>
    have hx := isBlankChar_of_plain (hplain x List.mem_cons_self)
    rw [hblank x List.mem_cons_self] at hx
    cases hx

theorem dropWhile_word {b : Text} (hb : ∀ x ∈ b, isBlankChar x = true) (w : Word) :
    (b ++ w.text).dropWhile isBlankChar = w.text := by
  obtain ⟨x, r, hx, hplain⟩ := w.isWord.exists_cons
  rw [List.dropWhile_append_of_pos hb, hx]
  simp [isBlankChar_of_plain hplain]

/-- A mapping that is spelled in an entry is cut at its colon. -/
theorem isPair_iff {g n : Word} {blanks : Nat} :
    IsPair old.selection (Spelling.pair g blanks n).text ↔
      g.text = old.group.text ∧ n.text = old.name.text := by
  have hblanks := isBlankChar_replicate (blanks + 1)
  constructor
  · rintro ⟨before, after, hblank, heq⟩
    obtain ⟨hbefore, hafter⟩ := List.forall_mem_append.1 hblank
    have hcolon : ':' ∉ old.group.text ++ before := by
      simp [old.group.noColon, not_mem_of_blank hbefore (show isBlankChar ':' = false from rfl)]
    obtain ⟨hg, hn⟩ := colon_cut g.noColon hcolon
      (show g.text ++ ':' :: (List.replicate (blanks + 1) ' ' ++ n.text) =
        old.group.text ++ before ++ ':' :: (after ++ old.name.text) by
          simpa [Spelling.text, Choice.selection] using heq)
    have hnil : before = [] := by
      refine eq_nil_of_blank_plain hbefore fun x hx => g.isWord.plain x ?_
      rw [hg]
      exact List.mem_append_right _ hx
    have hname := congrArg (List.dropWhile isBlankChar) hn
    rw [dropWhile_word hblanks, dropWhile_word hafter] at hname
    exact ⟨by simpa [hnil] using hg, hname⟩
  · rintro ⟨hg, hn⟩
    refine ⟨[], List.replicate (blanks + 1) ' ', hblanks, ?_⟩
    simp [Spelling.text, hg, hn, Choice.selection]

/-- A marked spelling is no mapping with the mark in its group. -/
theorem not_isPair_marked {s : Spelling} : ¬ IsPair old.selection (markText true ++ s.text) := by
  rintro ⟨before, after, hblank, heq⟩
  obtain ⟨hbefore, -⟩ := List.forall_mem_append.1 hblank
  have hcolon : ':' ∉ old.group.text ++ before := by
    simp [old.group.noColon, not_mem_of_blank hbefore (show isBlankChar ':' = false from rfl)]
  have hmark : ':' ∉ markText true := by decide
  cases s with
  | scalar w =>
    have hmem : ':' ∈ markText true ++ (Spelling.scalar w).text := by simp [heq]
    exact (List.mem_append.1 hmem).elim hmark w.noColon
  | pair g blanks n =>
    have hgroup : ':' ∉ markText true ++ g.text := by
      simp [hmark, g.noColon]
    obtain ⟨hg, -⟩ := colon_cut hgroup hcolon
      (show markText true ++ g.text ++ ':' :: (List.replicate (blanks + 1) ' ' ++ n.text) =
        old.group.text ++ before ++ ':' :: (after ++ old.name.text) by
          simpa [Spelling.text, Choice.selection] using heq)
    rcases List.append_eq_append_iff.1 hg with ⟨d, hgroup, -⟩ | ⟨d, -, rfl⟩
    · exact marked_ne_word d old.group hgroup.symm
    · have hnil := eq_nil_of_blank_plain (List.forall_mem_append.1 hbefore).2 g.isWord.plain
      exact g.isWord.nonempty hnil

theorem rewriteLine_mapping (old new : Choice) (k : Nat) (e : EntryLine) :
    rewriteLine (find? (mappingForm? old.selection) true) new.selection.asMapping (e.line k) =
      (e.replace old.isMapping new.mapping).line k := by
  have haccepts : Accepts (mappingForm? old.selection) (IsPair old.selection) := by
    refine accepts_mappingForm? old.group.isTight old.name.isTight ?_ old.name.isWord.nonempty
    intro x hx
    exact isBlankChar_of_plain (old.name.isWord.plain x (List.mem_of_mem_head? hx))
  rw [← Choice.text_mapping]
  refine rewriteLine_marked haccepts ?_ ?_ ?_ new.mapping k e
  · rintro w ⟨before, after, -, rfl⟩
    obtain ⟨x, r, hx, hxp⟩ := old.group.isWord.exists_cons
    exact ⟨x, by simp [Choice.selection, hx], hxp⟩
  · intro s
    exact not_isPair_marked
  · intro s
    cases s with
    | scalar w =>
      refine iff_of_false ?_ (by simp [Choice.isMapping])
      rintro ⟨before, after, -, heq⟩
      refine w.noColon ?_
      rw [show w.text = _ from heq]
      simp
    | pair g blanks n => simpa [Choice.isMapping] using isPair_iff

end Rewrite

end LayeredConfig
