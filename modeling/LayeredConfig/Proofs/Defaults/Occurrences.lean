import LayeredConfig.Proofs.Defaults.Entries
import LayeredConfig.Proofs.Files.Write
import LayeredConfig.Proofs.Text.Segments

/-!
# The lines that a rewrite changes

A rewrite changes the lines on which the old selection is written in one of the forms that the
passes look for, and each of them once: what a pass writes is not what a later pass looks for.
Assumed of a selection is that its group and its name can be told from what stands around them.
-/
namespace LayeredConfig.Rewrite

/-- A character that a group or a name may hold. -/
def isPartChar (c : Char) : Bool := !Text.isBlank c && c != ':' && c != '#'

/-- A group or a name that ends where a blank, a colon or a comment begins. -/
def IsPart (s : Text) : Prop := s ≠ [] ∧ ∀ c ∈ s, isPartChar c = true

instance (s : Text) : Decidable (IsPart s) :=
  decidable_of_iff (s ≠ [] ∧ s.all isPartChar = true) (by rw [IsPart, List.all_eq_true])

structure Selection.IsSimple (s : Selection) : Prop where
  group : IsPart s.group
  name : IsPart s.name
  noSlash : '/' ∉ s.name

theorem isBlankChar_of_part {c : Char} (h : isPartChar c = true) : isBlankChar c = false := by
  cases hc : isBlankChar c with
  | false => rfl
  | true =>
    simp only [isBlankChar, Bool.or_eq_true, beq_iff_eq] at hc
    rcases hc with rfl | rfl <;> exact absurd h (by decide)

theorem not_part_of_blank {c : Char} (h : isBlankChar c = true) : isPartChar c = false := by
  cases hc : isPartChar c with
  | false => rfl
  | true =>
    rw [isBlankChar_of_part hc] at h
    cases h

namespace IsPart

variable {s r : Text}

theorem not_mem (h : IsPart s) {c : Char} (hc : isPartChar c = false) : c ∉ s := fun hmem => by
  rw [h.2 c hmem] at hc
  cases hc

theorem exists_cons (h : IsPart s) : ∃ x r, s = x :: r ∧ isPartChar x = true := by
  cases s with
  | nil => exact absurd rfl h.1
  | cons x r => exact ⟨x, r, rfl, h.2 x List.mem_cons_self⟩

theorem isTight (h : IsPart s) : IsTight s where
  noComment := h.not_mem (by decide)
  noReturn := h.not_mem (by decide)
  last := fun x hx => isBlankChar_of_part (h.2 x (List.mem_of_getLast? hx))

theorem path (hs : IsPart s) (hr : IsPart r) : IsPart (s ++ '/' :: r) :=
  ⟨by simp, List.forall_mem_append.2 ⟨hs.2, List.forall_mem_cons.2 ⟨by decide, hr.2⟩⟩⟩

end IsPart

/-- A text that begins with a group or a name, with nothing or a colon behind it. -/
structure IsSpelling (s : Text) : Prop where
  tight : IsTight s
  noLineFeed : '\n' ∉ s
  begins : ∃ p q, s = p ++ q ∧ IsPart p ∧
    (q = [] ∨ ∃ b r, q = b ++ ':' :: r ∧ ∀ x ∈ b, isBlankChar x = true)

theorem IsPart.isSpelling {s : Text} (h : IsPart s) : IsSpelling s where
  tight := h.isTight
  noLineFeed := h.not_mem (by decide)
  begins := ⟨s, [], (List.append_nil s).symm, h, Or.inl rfl⟩

theorem IsPart.isSpelling_pair {g n b a : Text} (hg : IsPart g) (hn : IsPart n)
    (hblank : ∀ x ∈ b ++ a, isBlankChar x = true) : IsSpelling (g ++ b ++ ':' :: a ++ n) where
  tight := by
    have hmark := not_mem_of_blank hblank (show isBlankChar '#' = false from rfl)
    have hcr := not_mem_of_blank hblank (show isBlankChar '\r' = false from rfl)
    refine isTight_append ?_ hn.isTight hn.1
    simp only [List.mem_append, not_or] at hmark hcr
    simp [hg.isTight.noComment, hg.isTight.noReturn, hmark, hcr]
  noLineFeed := by
    have hline := not_mem_of_blank hblank (show isBlankChar '\n' = false from rfl)
    have hgroup := hg.not_mem (show isPartChar '\n' = false by decide)
    have hname := hn.not_mem (show isPartChar '\n' = false by decide)
    simp only [List.mem_append, not_or] at hline
    simp [hgroup, hname, hline]
  begins := ⟨g, b ++ ':' :: (a ++ n), by simp, hg,
    Or.inr ⟨b, a ++ n, rfl, (List.forall_mem_append.1 hblank).1⟩⟩

/-- What follows the part at the start and the blanks behind it. -/
def follow (s : Text) : Option Char := ((s.dropWhile isPartChar).dropWhile isBlankChar).head?

theorem follow_part {p r : Text} (hp : ∀ c ∈ p, isPartChar c = true)
    (hr : ∀ x ∈ r.head?, isPartChar x = false) :
    follow (p ++ r) = (r.dropWhile isBlankChar).head? := by
  have hstop : r.dropWhile isPartChar = r := by
    cases r with
    | nil => rfl
    | cons x r => simp [hr x rfl]
  rw [follow, List.dropWhile_append_of_pos hp, hstop]

theorem IsTail.head {t : Text} (h : IsTail t) : ∀ x ∈ t.head?, isPartChar x = false := by
  intro x hx
  cases hblank : isBlankChar x with
  | true => exact not_part_of_blank hblank
  | false =>
    obtain ⟨r, rfl⟩ := List.head?_eq_some_iff.1 hx
    have hmark := h.dropWhile x (by simp [hblank])
    rcases hmark with rfl | rfl <;> decide

/-- On its line a selection is not followed by another part. -/
theorem IsSpelling.follow {s t : Text} (hs : IsSpelling s) (ht : IsTail t) :
    ∀ x ∈ follow (s ++ t), isPartChar x = false := by
  obtain ⟨p, q, rfl, hp, rfl | ⟨b, r, rfl, hb⟩⟩ := hs.begins
  · rw [List.append_nil, follow_part hp.2 ht.head]
    intro x hx
    rcases ht.dropWhile x hx with rfl | rfl <;> decide
  · have hcolon : p ++ (b ++ ':' :: r) ++ t = p ++ (b ++ ':' :: (r ++ t)) := by simp
    have hhead : ∀ x ∈ (b ++ ':' :: (r ++ t)).head?, isPartChar x = false := by
      cases b with
      | nil =>
        rintro x ⟨⟩
        decide
      | cons y b =>
        rintro x ⟨⟩
        exact not_part_of_blank (hb y List.mem_cons_self)
    rw [hcolon, follow_part hp.2 hhead, List.dropWhile_append_of_pos hb]
    rintro x ⟨⟩
    decide

/-- A selection behind the mark is no selection without it. -/
theorem IsSpelling.marked_ne {w t w' t' : Text} (hw : IsSpelling w) (ht : IsTail t)
    (hw' : IsSpelling w') : markText true ++ (w' ++ t') ≠ w ++ t := by
  intro heq
  obtain ⟨p, q, rfl, hp, -⟩ := hw'.begins
  obtain ⟨x, r, rfl, hx⟩ := hp.exists_cons
  have hpart : ∀ c ∈ "override".toList, isPartChar c = true := List.all_eq_true.1 (by decide)
  have hfollow : Rewrite.follow (markText true ++ (x :: r ++ q ++ t')) = some x := by
    rw [show markText true = "override".toList ++ [' '] from rfl, List.append_assoc,
      follow_part hpart (by simp; decide)]
    rw [List.dropWhile_append_of_pos (by simp [isBlankChar]), List.cons_append, List.cons_append,
      List.dropWhile_cons_of_neg (by simp [isBlankChar_of_part hx])]
    rfl
  rw [heq] at hfollow
  have hnone := hw.follow ht x hfollow
  rw [hx] at hnone
  cases hnone

variable {form : Text → Option (Text × Text)} {A : Text → Prop}

/-- The line of an entry, from its parts. -/
def entryLine (indent : Text) (marked : Bool) (s t : Text) : Text :=
  indent ++ ("- " ++ (markText marked ++ (s ++ t)))

/-- What is found on a line comes from a text that the form accepts. -/
theorem exists_of_find? (h : Accepts form A) {marked : Bool} {line : Text} (hline : '\n' ∉ line)
    {f : Found} (hf : find? form marked line = some f) :
    ∃ indent b s t, (∀ x ∈ indent, isBlankChar x = true) ∧ (b = true → marked = true) ∧ A s ∧
      IsTail t ∧ entryLine indent b s t = line := by
  have hblank : ∀ x ∈ line.takeWhile isBlankChar, isBlankChar x = true :=
    fun x hx => List.all_eq_true.1 List.all_takeWhile x hx
  obtain ⟨r, hr, hf⟩ := Option.bind_eq_some_iff.1 hf
  have hrest := not_mem_of_after? hr (not_mem_dropWhile hline isBlankChar)
  have hwhole : line.takeWhile isBlankChar ++ ("- " ++ r) = line := by
    rw [← Text.after?_eq_some_iff.1 hr, List.takeWhile_append_dropWhile]
  have hplain : ∀ g, (form r).map (fun f => (⟨line.takeWhile isBlankChar, [], f.1, f.2⟩ : Found)) =
      some g → ∃ s t, A s ∧ IsTail t ∧ s ++ t = r := by
    intro g hg
    obtain ⟨⟨s, t⟩, hst, -⟩ := Option.map_eq_some_iff.1 hg
    obtain ⟨hs, heq, ht⟩ := h.sound r s t hrest hst
    exact ⟨s, t, hs, ht, heq.symm⟩
  dsimp only at hf
  split at hf
  · next hmarked =>
    split at hf
    · next g hg =>
      obtain ⟨r', hr', hg⟩ := Option.bind_eq_some_iff.1 hg
      obtain ⟨hs, heq, ht⟩ := h.sound r' g.1 g.2 (not_mem_of_after? hr' hrest) hg
      refine ⟨_, true, g.1, g.2, hblank, fun _ => hmarked, hs, ht, ?_⟩
      rw [entryLine, ← heq, show markText true ++ r' = r from (Text.after?_eq_some_iff.1 hr').symm,
        hwhole]
    · obtain ⟨s, t, hs, ht, heq⟩ := hplain f hf
      exact ⟨_, false, s, t, hblank, by simp, hs, ht, by rw [entryLine, heq]; exact hwhole⟩
  · obtain ⟨s, t, hs, ht, heq⟩ := hplain f hf
    exact ⟨_, false, s, t, hblank, by simp, hs, ht, by rw [entryLine, heq]; exact hwhole⟩

/-- A form that accepts spellings only finds on a line the spelling that is there. -/
theorem find?_entryLine [DecidablePred A] (h : Accepts form A) (hA : ∀ w, A w → IsSpelling w)
    {indent s t : Text} (hindent : ∀ x ∈ indent, isBlankChar x = true) (hs : IsSpelling s)
    (ht : IsTail t) (marked b : Bool) :
    find? form marked (entryLine indent b s t) =
      if A s ∧ (b = true → marked = true) then some ⟨indent, markText b, s, t⟩ else none := by
  have hform := h.exact hs.tight hs.noLineFeed ht
  rw [entryLine, find?_item hindent]
  cases b with
  | true =>
    have hafter : Text.after? "override " (markText true ++ (s ++ t)) = some (s ++ t) :=
      Text.after?_eq_some_iff.2 rfl
    have hnone : form (markText true ++ (s ++ t)) = none := by
      cases hf : form (markText true ++ (s ++ t)) with
      | none => rfl
      | some f =>
        have hline : '\n' ∉ markText true ++ (s ++ t) := by
          have hmark : '\n' ∉ markText true := by decide
          simp [hmark, hs.noLineFeed, ht.1]
        obtain ⟨hw, heq, hu⟩ := h.sound _ f.1 f.2 hline hf
        exact absurd heq ((hA _ hw).marked_ne hu hs)
    rw [hafter, Option.bind_some, hform, hnone]
    by_cases hs : A s <;> cases marked <;> simp [hs, markText]
  | false =>
    have hnone : (Text.after? "override " (s ++ t)).bind form = none := by
      cases hafter : Text.after? "override " (s ++ t) with
      | none => rfl
      | some r =>
        have hr : '\n' ∉ r :=
          not_mem_of_after? hafter fun h => (List.mem_append.1 h).elim hs.noLineFeed ht.1
        cases hf : form r with
        | none => exact hf
        | some f =>
          obtain ⟨hw, rfl, hu⟩ := h.sound _ f.1 f.2 hr hf
          exact absurd (Text.after?_eq_some_iff.1 hafter).symm (hs.marked_ne ht (hA _ hw))
    rw [show markText false ++ (s ++ t) = s ++ t from rfl, hnone, hform]
    by_cases hs : A s <;> cases marked <;> simp [hs, markText]

theorem noLineFeed_entryLine {indent s t : Text} (hindent : ∀ x ∈ indent, isBlankChar x = true)
    (hs : IsSpelling s) (ht : IsTail t) (b : Bool) : '\n' ∉ entryLine indent b s t := by
  have hmark : '\n' ∉ markText b := by cases b <;> decide
  simp [entryLine, not_mem_of_blank hindent (show isBlankChar '\n' = false from rfl), hmark,
    hs.noLineFeed, ht.1]

/-- One pass over the line of an entry. -/
theorem substitute_entryLine [DecidablePred A] (hform : OfLine form formLength) (h : Accepts form A)
    (hA : ∀ w, A w → IsSpelling w) {indent s t : Text}
    (hindent : ∀ x ∈ indent, isBlankChar x = true) (hs : IsSpelling s) (ht : IsTail t)
    (marked b : Bool) (new : Text) :
    substitute (find? form marked) new 0 true (entryLine indent b s t) =
      if A s ∧ (b = true → marked = true) then (entryLine indent b new t, 1)
      else (entryLine indent b s t, 0) := by
  rw [substitute_last (ofLine_find? hform marked) (noLineFeed_entryLine hindent hs ht b),
    rewriteLine, find?_entryLine h hA hindent hs ht]
  by_cases hfound : A s ∧ (b = true → marked = true)
  · rw [if_pos hfound, if_pos hfound]
    simp [entryLine]
  · rw [if_neg hfound, if_neg hfound]
    rfl

/-- A pass over a line on which its form does not occur. -/
theorem substitute_other (hform : OfLine form formLength) (h : Accepts form A) {marked : Bool}
    {line : Text} (hline : '\n' ∉ line)
    (hnone : ∀ indent b s t, (∀ x ∈ indent, isBlankChar x = true) → (b = true → marked = true) →
      A s → IsTail t → entryLine indent b s t ≠ line) (new : Text) :
    substitute (find? form marked) new 0 true line = (line, 0) := by
  have hfind : find? form marked line = none := by
    cases hf : find? form marked line with
    | none => rfl
    | some f =>
      obtain ⟨indent, b, s, t, hindent, hb, hs, ht, heq⟩ := exists_of_find? h hline hf
      exact absurd heq (hnone indent b s t hindent hb hs ht)
  rw [substitute_last (ofLine_find? hform marked) hline, rewriteLine, hfind]
  rfl

/-- A way to write a selection. -/
inductive Form where
  | path
  | mapping (before after : Text)
  | bare

namespace Form

def text (s : Selection) : Form → Text
  | path => s.group ++ '/' :: s.name
  | mapping before after => s.group ++ before ++ ':' :: after ++ s.name
  | bare => s.name

/-- Whether the form stands for the selection. A bare name is a file beside the root document, and
carries no mark. -/
def Admits (s : Selection) (marked : Bool) : Form → Prop
  | path => True
  | mapping before after => ∀ x ∈ before ++ after, isBlankChar x = true
  | bare => s.group = Defaults.rootGroup ∧ marked = false

/-- What the new selection is written as in the place of this form. -/
def replacement (new : Selection) : Form → Text
  | mapping _ _ => new.asMapping
  | _ => new.asPath

end Form

/-- A line with a selection on it. -/
structure Occurrence (s : Selection) where
  indent : Text
  marked : Bool
  form : Form
  tail : Tail
  indented : ∀ x ∈ indent, isBlankChar x = true
  admitted : form.Admits s marked

namespace Occurrence

variable {old : Selection}

def line (o : Occurrence old) : Text := entryLine o.indent o.marked (o.form.text old) o.tail.text

/-- The line with another selection in the place of the one on it. -/
def rewritten (new : Selection) (o : Occurrence old) : Text :=
  entryLine o.indent o.marked (o.form.replacement new) o.tail.text

end Occurrence

namespace Selection.IsSimple

variable {old new : Selection}

theorem noLineFeed (h : old.IsSimple) : '\n' ∉ old.group ∧ '\n' ∉ old.name :=
  ⟨h.group.not_mem (by decide), h.name.not_mem (by decide)⟩

theorem isPart_path (h : old.IsSimple) : IsPart (old.group ++ '/' :: old.name) :=
  h.group.path h.name

theorem isPart_asPath (h : old.IsSimple) : IsPart old.asPath := by
  rw [asPath]
  split
  · exact h.name
  · exact h.isPart_path

theorem isSpelling_of_isPair (h : old.IsSimple) {s : Text} (hs : IsPair old s) : IsSpelling s := by
  obtain ⟨before, after, hblank, rfl⟩ := hs
  exact h.group.isSpelling_pair h.name hblank

theorem isSpelling_asMapping (h : old.IsSimple) : IsSpelling old.asMapping := by
  rw [asMapping]
  split
  · exact h.name.isSpelling
  · have hpair := h.group.isSpelling_pair (b := []) (a := [' ']) h.name (by simp [isBlankChar])
    simpa using hpair

theorem isSpelling_text (h : old.IsSimple) {marked : Bool} {form : Form}
    (hform : form.Admits old marked) : IsSpelling (form.text old) := by
  cases form with
  | path => exact h.isPart_path.isSpelling
  | mapping before after => exact h.group.isSpelling_pair h.name hform
  | bare => exact h.name.isSpelling

theorem accepts_mapping (h : old.IsSimple) : Accepts (mappingForm? old) (IsPair old) := by
  refine accepts_mappingForm? h.group.isTight h.name.isTight ?_ h.name.1
  exact fun x hx => isBlankChar_of_part (h.name.2 x (List.mem_of_mem_head? hx))

/-- A path or a bare name is not read as a mapping. -/
theorem not_isPair {s : Text} (hs : IsPart s) : ¬ IsPair old s := by
  rintro ⟨before, after, -, rfl⟩
  exact hs.not_mem (show isPartChar ':' = false by decide) (by simp)

end Selection.IsSimple

variable {old new : Selection}

/-- What a pass has written for another selection is no bare name of the old one. -/
theorem asPath_ne (hold : old.IsSimple) (hnew : new.IsSimple) (hne : old ≠ new)
    (hroot : old.group = Defaults.rootGroup) : new.asPath ≠ old.name := by
  intro heq
  rw [Selection.asPath] at heq
  split at heq
  · next hgroup =>
    refine hne ?_
    cases old
    cases new
    exact congrArg₂ Selection.mk (hroot.trans hgroup.symm) heq.symm
  · exact hold.noSlash (heq ▸ List.mem_append_right _ List.mem_cons_self)

theorem asMapping_ne (hold : old.IsSimple) (hnew : new.IsSimple) (hne : old ≠ new)
    (hroot : old.group = Defaults.rootGroup) : new.asMapping ≠ old.name := by
  intro heq
  rw [Selection.asMapping] at heq
  split at heq
  · next hgroup =>
    refine asPath_ne hold hnew hne hroot ?_
    rw [Selection.asPath, if_pos hgroup, heq]
  · refine hold.name.not_mem (show isPartChar ':' = false by decide) ?_
    rw [← heq]
    simp

section Passes

variable {indent s t : Text} {b : Bool}

theorem pathPass (hold : old.IsSimple) (hindent : ∀ x ∈ indent, isBlankChar x = true)
    (hs : IsSpelling s) (ht : IsTail t) (written : Text) :
    substitute (find? (pathForm? old) true) written 0 true (entryLine indent b s t) =
      if s = old.group ++ '/' :: old.name then (entryLine indent b written t, 1)
      else (entryLine indent b s t, 0) := by
  have hspelling := hold.isPart_path.isSpelling
  rw [substitute_entryLine (ofLine_pathForm? hspelling.noLineFeed)
    (accepts_pathForm? hspelling.tight) (fun _ hw => hw ▸ hspelling) hindent hs ht]
  simp

open Classical in
theorem mappingPass (hold : old.IsSimple) (hindent : ∀ x ∈ indent, isBlankChar x = true)
    (hs : IsSpelling s) (ht : IsTail t) (written : Text) :
    substitute (find? (mappingForm? old) true) written 0 true (entryLine indent b s t) =
      if IsPair old s then (entryLine indent b written t, 1) else (entryLine indent b s t, 0) := by
  rw [substitute_entryLine (ofLine_mappingForm? hold.noLineFeed.1 hold.noLineFeed.2)
    hold.accepts_mapping (fun _ => hold.isSpelling_of_isPair) hindent hs ht]
  simp

theorem barePass (hold : old.IsSimple) (hindent : ∀ x ∈ indent, isBlankChar x = true)
    (hs : IsSpelling s) (ht : IsTail t) (written : Text) :
    substitute (find? (bareForm? old) false) written 0 true (entryLine indent b s t) =
      if s = old.name ∧ b = false then (entryLine indent b written t, 1)
      else (entryLine indent b s t, 0) := by
  have hspelling := hold.name.isSpelling
  rw [substitute_entryLine (ofLine_bareForm? hspelling.noLineFeed)
    (accepts_bareForm? hspelling.tight) (fun _ hw => hw ▸ hspelling) hindent hs ht]
  simp

end Passes

/-- A rewrite is one pass after the other, the last one only for files beside the root document. -/
theorem entry_of_passes {a b c d : Text} {n m k : Nat}
    (hpath : substitute (find? (pathForm? old) true) new.asPath 0 true a = (b, n))
    (hmapping : substitute (find? (mappingForm? old) true) new.asMapping 0 true b = (c, m))
    (hbare : (if old.group = Defaults.rootGroup then
      substitute (find? (bareForm? old) false) new.asPath 0 true c else (c, 0)) = (d, k)) :
    entry a old new = (d, n + m + k) := by
  rw [entry, hpath]
  dsimp only
  rw [hmapping]
  dsimp only
  split
  · next hroot =>
    rw [if_pos hroot] at hbare
    rw [hbare]
  · next hroot =>
    rw [if_neg hroot] at hbare
    cases hbare
    rfl

/-- **A line with the old selection on it is rewritten once.** -/
theorem entry_line (hold : old.IsSimple) (hnew : new.IsSimple) (hne : old ≠ new)
    (o : Occurrence old) :
    entry o.line old new = (o.rewritten new, 1) := by
  classical
  obtain ⟨indent, marked, form, tail, hindent, hadmitted⟩ := o
  have htext := hold.isSpelling_text hadmitted
  have htail := tail.isTail_text
  -- What has been written is not found again.
  have hkept : ∀ {w : Text}, IsSpelling w → (old.group = Defaults.rootGroup → w ≠ old.name) →
      (if old.group = Defaults.rootGroup then
        substitute (find? (bareForm? old) false) new.asPath 0 true
          (entryLine indent marked w tail.text)
      else (entryLine indent marked w tail.text, 0)) =
        (entryLine indent marked w tail.text, 0) := by
    intro w hw hname
    split
    · next hroot =>
      rw [barePass hold hindent hw htail, if_neg fun h => hname hroot h.1]
    · rfl
  cases form with
  | path =>
    have hwritten := hnew.isPart_asPath
    refine entry_of_passes ((pathPass hold hindent htext htail _).trans (if_pos rfl))
      ((mappingPass hold hindent hwritten.isSpelling htail _).trans (if_neg ?_))
      (hkept hwritten.isSpelling (asPath_ne hold hnew hne))
    exact Selection.IsSimple.not_isPair hwritten
  | mapping before after =>
    refine entry_of_passes ((pathPass hold hindent htext htail _).trans (if_neg ?_))
      ((mappingPass hold hindent htext htail _).trans (if_pos ⟨before, after, hadmitted, rfl⟩))
      (hkept hnew.isSpelling_asMapping (asMapping_ne hold hnew hne))
    intro heq
    refine hold.isPart_path.not_mem (show isPartChar ':' = false by decide) ?_
    rw [← heq]
    simp [Form.text]
  | bare =>
    obtain ⟨hroot, rfl⟩ := hadmitted
    refine entry_of_passes (k := 1) ((pathPass hold hindent htext htail _).trans (if_neg ?_))
      ((mappingPass hold hindent htext htail _).trans (if_neg ?_)) ?_
    · intro heq
      refine hold.noSlash ?_
      rw [show old.name = _ from heq]
      simp
    · exact Selection.IsSimple.not_isPair hold.name
    · rw [if_pos hroot, barePass hold hindent htext htail]
      exact if_pos ⟨rfl, rfl⟩

/-- **A line without the old selection stays**, whatever the new one is. -/
theorem entry_other (hold : old.IsSimple) (new : Selection) {line : Text} (hline : '\n' ∉ line)
    (h : ∀ o : Occurrence old, o.line ≠ line) : entry line old new = (line, 0) := by
  have hmissing : ∀ {indent : Text} {b : Bool} {t : Text} (form : Form),
      (∀ x ∈ indent, isBlankChar x = true) → form.Admits old b → IsTail t →
      entryLine indent b (form.text old) t ≠ line := by
    intro indent b t form hindent hadmits ht
    obtain ⟨tail, rfl⟩ := Tail.exists_of_isTail ht
    exact h ⟨indent, b, form, tail, hindent, hadmits⟩
  have hspelling := hold.isPart_path.isSpelling
  refine entry_of_passes (n := 0)
    (m := 0) (k := 0) (substitute_other (ofLine_pathForm? hspelling.noLineFeed)
    (accepts_pathForm? hspelling.tight) hline ?_ _) (substitute_other
    (ofLine_mappingForm? hold.noLineFeed.1 hold.noLineFeed.2) hold.accepts_mapping hline ?_ _) ?_
  · rintro indent b s t hindent - rfl ht
    exact hmissing .path hindent trivial ht
  · rintro indent b s t hindent - ⟨before, after, hblank, rfl⟩ ht
    exact hmissing (.mapping before after) hindent hblank ht
  · split
    · next hroot =>
      refine substitute_other (ofLine_bareForm? hold.noLineFeed.2)
        (accepts_bareForm? hold.name.isTight)
        hline ?_ _
      rintro indent b s t hindent hb rfl ht
      exact hmissing .bare hindent ⟨hroot, by simpa using hb⟩ ht
    · rfl

/-- The texts before and behind a line feed are rewritten apart from each other. -/
theorem entry_append (hold : old.IsSimple) (new : Selection) (a b : Text) :
    entry (a ++ '\n' :: b) old new =
      ((entry a old new).1 ++ '\n' :: (entry b old new).1,
        (entry a old new).2 + (entry b old new).2) := by
  have hpath := ofLine_find? (ofLine_pathForm? hold.isPart_path.isSpelling.noLineFeed) true
  have hmapping := ofLine_find? (ofLine_mappingForm? hold.noLineFeed.1 hold.noLineFeed.2) true
  have hbare := ofLine_find? (ofLine_bareForm? hold.noLineFeed.2) false
  simp only [entry, substitute_append hpath, substitute_append hmapping]
  split
  · simp only [substitute_append hbare, Prod.mk.injEq, true_and]
    omega
  · simp only [Prod.mk.injEq, true_and]
    omega

theorem noLineFeed_rewritten (hnew : new.IsSimple) (o : Occurrence old) :
    '\n' ∉ o.rewritten new := by
  have hwritten : IsSpelling (o.form.replacement new) := by
    cases o.form with
    | mapping => exact hnew.isSpelling_asMapping
    | path => exact hnew.isPart_asPath.isSpelling
    | bare => exact hnew.isPart_asPath.isSpelling
  exact noLineFeed_entryLine o.indented hwritten o.tail.isTail_text o.marked

theorem noLineFeed_entry (hold : old.IsSimple) (hnew : new.IsSimple) (hne : old ≠ new) {line : Text}
    (hline : '\n' ∉ line) : '\n' ∉ (entry line old new).1 := by
  by_cases h : ∃ o : Occurrence old, o.line = line
  · obtain ⟨o, rfl⟩ := h
    rw [entry_line hold hnew hne]
    exact noLineFeed_rewritten hnew o
  · rw [entry_other hold new hline (not_exists.1 h)]
    exact hline

/-- The lines of the new text are the lines of the old one, each rewritten by itself. -/
theorem splitAll_entry (hold : old.IsSimple) (hnew : new.IsSimple) (hne : old ≠ new) (s : Text) :
    Text.splitAll '\n' (entry s old new).1 =
      (Text.splitAll '\n' s).map fun line => (entry line old new).1 := by
  induction s using Text.segment_induction '\n' with
  | last line hline =>
    rw [Text.splitAll_of_not_mem (noLineFeed_entry hold hnew hne hline),
      Text.splitAll_of_not_mem hline, List.map_singleton]
  | more line s hline ih =>
    rw [entry_append hold, Text.splitAll_append, Text.splitAll_append, List.map_append, ih,
      Text.splitAll_of_not_mem (noLineFeed_entry hold hnew hne hline),
      Text.splitAll_of_not_mem hline, List.map_singleton]

open Classical in
/-- The number of entries is the number of lines with the old selection on them. -/
theorem count_entry (hold : old.IsSimple) (hnew : new.IsSimple) (hne : old ≠ new) (s : Text) :
    (entry s old new).2 =
      (Text.splitAll '\n' s).countP fun line => ∃ o : Occurrence old, o.line = line := by
  have hsingle : ∀ line : Text, '\n' ∉ line → (entry line old new).2 =
      (Text.splitAll '\n' line).countP fun line => ∃ o : Occurrence old, o.line = line := by
    intro line hline
    rw [Text.splitAll_of_not_mem hline, List.countP_singleton]
    by_cases h : ∃ o : Occurrence old, o.line = line
    · rw [if_pos (decide_eq_true h)]
      obtain ⟨o, rfl⟩ := h
      rw [entry_line hold hnew hne]
    · rw [if_neg (by simpa using h), entry_other hold new hline (not_exists.1 h)]
  induction s using Text.segment_induction '\n' with
  | last line hline => exact hsingle line hline
  | more line s hline ih =>
    rw [entry_append hold, Text.splitAll_append, List.countP_append, ← ih, ← hsingle line hline]

/-- What a rewrite in a file does if the file can be read. -/
theorem inFile_of_readText {t : FileTree} {p : Path} {s : Text} (h : t.readText p = .ok s) :
    inFile t p old new = if (entry s old new).2 = 0 then .error (.entryNotFound old p)
      else ((t.write p (.text (entry s old new).1)).mapError (.io p)).map (·,
        (entry s old new).2) := by
  simp only [inFile, h, Except.mapError, Outcome.ok_bind]
  generalize entry s old new = e
  split
  · rfl
  · cases t.write p (.text e.1) <;> rfl

open Classical in
/-- **A rewrite is an exact edit of the lines with the old selection on them.** The lines are
rewritten each by itself; one with the old selection on it once, with its indentation, its mark and
its end kept; every other line stays. The number returned is that of the lines with the old
selection. If there are none the file is left alone, and otherwise it holds the new text. -/
theorem entry_exact (hold : old.IsSimple) (hnew : new.IsSimple) (hne : old ≠ new) (s : Text) :
    Text.splitAll '\n' (entry s old new).1 =
        (Text.splitAll '\n' s).map (fun line => (entry line old new).1) ∧
      (∀ line ∈ Text.splitAll '\n' s,
        (∀ o : Occurrence old, o.line = line → entry line old new = (o.rewritten new, 1)) ∧
          ((∀ o : Occurrence old, o.line ≠ line) → entry line old new = (line, 0))) ∧
      (entry s old new).2 =
        (Text.splitAll '\n' s).countP (fun line => ∃ o : Occurrence old, o.line = line) ∧
      ∀ (t : FileTree) (p : Path), t.readText p = .ok s →
        (inFile t p old new = .error (.entryNotFound old p) ↔
          ∀ line ∈ Text.splitAll '\n' s, ∀ o : Occurrence old, o.line ≠ line) ∧
        ∀ t' n, inFile t p old new = .ok (t', n) →
          t'.readText p = .ok (entry s old new).1 ∧ n = (entry s old new).2 := by
  refine ⟨splitAll_entry hold hnew hne s, fun line hmem => ⟨?_, ?_⟩, count_entry hold hnew hne s,
    fun t p htext => ?_⟩
  · rintro o rfl
    exact entry_line hold hnew hne o
  · exact entry_other hold new (Text.not_mem_of_mem_splitAll hmem)
  have hzero : (entry s old new).2 = 0 ↔
      ∀ line ∈ Text.splitAll '\n' s, ∀ o : Occurrence old, o.line ≠ line := by
    rw [count_entry hold hnew hne, List.countP_eq_zero]
    simp
  rw [inFile_of_readText htext]
  constructor
  · rw [← hzero]
    split
    · next hcount => exact iff_of_true rfl hcount
    · next hcount =>
      refine iff_of_false (fun h => ?_) hcount
      cases hwrite : t.write p (.text (entry s old new).1) <;> rw [hwrite] at h <;> cases h
  · intro t' n h
    split at h
    · cases h
    · obtain ⟨u, hwrite, heq⟩ := Outcome.map_eq_ok.1 h
      cases heq
      have hread := FileTree.read_of_write (Outcome.mapError_eq_ok.1 hwrite)
      exact ⟨FileTree.readText_eq_ok.2 hread, rfl⟩

open Classical in
/-- Lines with the old selection as a path, a marked mapping and a bare name, beside lines that only
look like it. -/
theorem entry_exact_root :
    let text : Text :=
      "defaults:\n  - root/x # a\r\n\t- override root : x\n- x#\n- override x\n- x/y\n"
    let old : Selection := ⟨"root", "x"⟩
    let new : Selection := ⟨"db", "pg"⟩
    old.IsSimple ∧ new.IsSimple ∧ old ≠ new ∧
      entry text old new =
        ("defaults:\n  - db/pg # a\r\n\t- override db: pg\n- db/pg#\n- override x\n- x/y\n".toList,
          3) ∧
      (entry text old new).2 =
        (Text.splitAll '\n' text).countP (fun line => ∃ o : Occurrence old, o.line = line) := by
  intro text old new
  have hold : old.IsSimple := ⟨by decide, by decide, by decide⟩
  have hnew : new.IsSimple := ⟨by decide, by decide, by decide⟩
  have hne : old ≠ new := by decide
  exact ⟨hold, hnew, hne, by decide +kernel, (entry_exact hold hnew hne text).2.2.1⟩

end LayeredConfig.Rewrite
