import LayeredConfig.Proofs.Yaml.ListText
import LayeredConfig.Proofs.Yaml.Local.Lexer

/-!
# Trails

What may stand behind the node of a document without adding to it: white space, comments and marks
for the end of the document, which stand at the beginning of a line.
-/
namespace LayeredConfig.Yaml

/-- A text of white space, comments and marks for the end of a document. `first` tells whether it
begins a line. -/
inductive Trail : (first : Bool) → Text → Prop where
  | nil (first : Bool) : Trail first []
  | blank {first : Bool} {x : Char} {r : Text} (hx : isSpaceOrTab x = true) (h : Trail false r) :
      Trail first (x :: r)
  | line {first : Bool} {x : Char} {r : Text} (hx : endsLine x = true) (h : Trail true r) :
      Trail first (x :: r)
  | comment {first : Bool} {s r : Text} (hs : ∀ x ∈ s, endsLine x = false) (h : Trail false r) :
      Trail first ('#' :: (s ++ r))
  | mark {r : Text} (hr : ∀ x ∈ r.head?, (isSpaceOrTab x || endsLine x) = true)
    (h : Trail false r) :
      Trail true ('.' :: '.' :: '.' :: r)

namespace Trail

theorem blanks {first : Bool} {s r : Text} (hs : ∀ x ∈ s, isSpaceOrTab x = true) (hne : s ≠ [])
    (h : Trail false r) : Trail first (s ++ r) := by
  induction s generalizing first with
  | nil => exact absurd rfl hne
  | cons x s ih =>
    obtain ⟨hx, hs⟩ := List.forall_mem_cons.1 hs
    refine .blank hx ?_
    cases s with
    | nil => exact h
    | cons y s => exact ih hs (List.cons_ne_nil y s)

end Trail

theorem isBreak_of_normal {x : Char} (h : x ≠ '\r' ∧ x ≠ '\u0085') (hx : isBreak x = false) :
    endsLine x = false := by
  rw [endsLine, hx, beq_eq_false_iff_ne.2 h.1, beq_eq_false_iff_ne.2 h.2]
  rfl

theorem endsLine_of_isBreak {x : Char} (hx : isBreak x = true) : endsLine x = true := by
  rw [endsLine, hx]
  rfl

theorem normalizeBreaks_eq_cons {s r : Text} {x : Char} (hx : endsLine x = false)
    (h : normalizeBreaks s = x :: r) : ∃ t, s = x :: t ∧ normalizeBreaks t = r := by
  rw [normalizeBreaks.eq_def] at h
  split at h
  · cases h
  · cases h
    cases hx
  · next c t _ =>
    obtain ⟨hc, hr⟩ := List.cons.inj h
    split at hc
    · cases hc
      cases hx
    · exact ⟨t, by rw [hc], hr⟩

theorem normalizeBreaks_eq_append {s r : Text} (front : Text)
    (hfront : ∀ x ∈ front, endsLine x = false)
    (h : normalizeBreaks s = front ++ r) : ∃ t, s = front ++ t ∧ normalizeBreaks t = r := by
  induction front generalizing s with
  | nil => exact ⟨s, rfl, h⟩
  | cons x front ih =>
    obtain ⟨hx, hfront⟩ := List.forall_mem_cons.1 hfront
    obtain ⟨t, rfl, ht⟩ := normalizeBreaks_eq_cons hx h
    obtain ⟨t, rfl, ht'⟩ := ih hfront ht
    exact ⟨t, rfl, ht'⟩

theorem normalizeBreaks_ne_nil (x : Char) (s : Text) : normalizeBreaks (x :: s) ≠ [] := by
  rw [normalizeBreaks.eq_def]
  split <;> simp_all

theorem isNormal_normalizeBreaks (s : Text) : IsNormal (normalizeBreaks s) := by
  induction s using normalizeBreaks.induct with
  | case1 => simp [IsNormal, normalizeBreaks]
  | case2 s ih =>
    rw [normalizeBreaks]
    exact isNormal_cons.2 ⟨by decide, ih⟩
  | case3 c s hne ih =>
    rw [normalizeBreaks.eq_3 c s hne]
    refine isNormal_cons.2 ?_
    split
    · exact ⟨by decide, ih⟩
    · next hend => exact ⟨not_or.1 hend, ih⟩

/-- The line ends that are written as one. -/
theorem normalizeBreaks_eq_line {s r : Text} {x : Char} (hx : endsLine x = true)
    (h : normalizeBreaks s = x :: r) : ∃ t, normalizeBreaks t = r ∧
      (s = '\r' :: '\n' :: t ∨ ∃ y, endsLine y = true ∧ s = y :: t) := by
  rw [normalizeBreaks.eq_def] at h
  split at h
  · cases h
  · next t =>
    cases h
    exact ⟨t, rfl, Or.inl rfl⟩
  · next c t _ =>
    obtain ⟨hc, hr⟩ := List.cons.inj h
    refine ⟨t, hr, Or.inr ⟨c, ?_, rfl⟩⟩
    split at hc
    · next hend => rcases hend with rfl | rfl <;> rfl
    · exact hc ▸ hx

/-- A text is cut where the text with line feeds for its line ends is. -/
theorem normalizeBreaks_cut {s front r : Text} {x : Char} (hx : endsLine x = false)
    (h : normalizeBreaks s = front ++ x :: r) : ∃ a t, s = a ++ x :: t ∧
      normalizeBreaks (a ++ [x]) = front ++ [x] ∧ normalizeBreaks t = r := by
  induction front generalizing s with
  | nil =>
    obtain ⟨t, rfl, ht⟩ := normalizeBreaks_eq_cons hx h
    simp only [endsLine, Bool.or_eq_false_iff, beq_eq_false_iff_ne] at hx
    exact ⟨[], t, rfl, normalizeBreaks_cons hx.1.2 hx.2 [], ht⟩
  | cons y front ih =>
    rw [normalizeBreaks.eq_def] at h
    split at h
    · cases h
    · next t =>
      obtain ⟨rfl, ht⟩ := List.cons.inj h
      obtain ⟨a, t, rfl, ha, ht⟩ := ih ht
      refine ⟨'\r' :: '\n' :: a, t, rfl, ?_, ht⟩
      show normalizeBreaks ('\r' :: '\n' :: (a ++ [x])) = _
      rw [normalizeBreaks, ha]
      rfl
    · next c t hne =>
      obtain ⟨rfl, ht⟩ := List.cons.inj h
      obtain ⟨a, t, rfl, ha, ht⟩ := ih ht
      refine ⟨c :: a, t, rfl, ?_, ht⟩
      show normalizeBreaks (c :: (a ++ [x])) = _
      rw [normalizeBreaks.eq_3 c (a ++ [x]) fun q hc hq => ?_, ha]
      · rfl
      · cases a with
        | nil =>
          cases hq
          cases hx
        | cons d a =>
          cases hq
          exact hne _ hc rfl

theorem head?_normalizeBreaks {s : Text} {p : Char → Bool}
    (hp : ∀ x, endsLine x = true → p x = true)
    (h : ∀ x ∈ (normalizeBreaks s).head?, p x = true) : ∀ x ∈ s.head?, p x = true := by
  rintro x hx
  obtain ⟨t, rfl⟩ := List.head?_eq_some_iff.1 hx
  cases hend : endsLine x with
  | true => exact hp x hend
  | false =>
    simp only [endsLine, Bool.or_eq_false_iff, beq_eq_false_iff_ne] at hend
    rw [normalizeBreaks_cons hend.1.2 hend.2] at h
    exact h x rfl

theorem Trail.of_normalizeBreaks {first : Bool} {s : Text} (h : Trail first (normalizeBreaks s)) :
    Trail first s := by
  generalize hs : normalizeBreaks s = t at h
  induction h generalizing s with
  | nil first =>
    cases s with
    | nil => exact .nil first
    | cons x s => exact absurd hs (normalizeBreaks_ne_nil x s)
  | @blank first x r hx _ ih =>
    have hend : endsLine x = false := by
      simp only [isSpaceOrTab, Bool.or_eq_true, beq_iff_eq] at hx
      rcases hx with rfl | rfl <;> rfl
    obtain ⟨t, rfl, ht⟩ := normalizeBreaks_eq_cons hend hs
    exact .blank hx (ih ht)
  | line hx _ ih =>
    obtain ⟨t, ht, rfl | ⟨y, hy, rfl⟩⟩ := normalizeBreaks_eq_line hx hs
    · exact .line rfl (.line rfl (ih ht))
    · exact .line hy (ih ht)
  | @comment first front r hfront _ ih =>
    obtain ⟨t, rfl, ht⟩ := normalizeBreaks_eq_append ('#' :: front)
      (List.forall_mem_cons.2 ⟨rfl, hfront⟩) hs
    exact .comment hfront (ih ht)
  | @mark r hr _ ih =>
    obtain ⟨t, rfl, ht⟩ := normalizeBreaks_eq_append ['.', '.', '.']
      (by simp [show endsLine '.' = false from rfl]) hs
    exact .mark (head?_normalizeBreaks (fun x hx => by simp [hx]) (ht.symm ▸ hr)) (ih ht)

namespace Cursor

/-- A place from which only a trail is left. -/
def Trails (c : Cursor) : Prop := Trail (c.column = 0) c.rest

/-- The start of a text. -/
def AtStart (c : Cursor) : Prop := c.line = 0 ∧ c.column = 0

variable {c : Cursor}

theorem takeRun_split (p : Char → Bool) (c : Cursor) :
    ∃ s r, c.rest = s ++ r ∧ (∀ x ∈ s, p x = true) ∧
    (∀ x ∈ r.head?, p x = false) ∧ c.takeRun p = (s, ⟨r, c.line, c.column + s.length⟩) := by
  have hdrop : (c.rest.takeWhile p ++ c.rest.dropWhile p).drop (c.rest.takeWhile p).length =
      c.rest.dropWhile p := List.drop_left
  rw [List.takeWhile_append_dropWhile] at hdrop
  refine ⟨c.rest.takeWhile p, c.rest.dropWhile p, List.takeWhile_append_dropWhile.symm,
    List.all_eq_true.1 List.all_takeWhile, fun x hx => ?_, by rw [takeRun, hdrop]⟩
  have hhead := List.head?_dropWhile_not p c.rest
  rw [hx] at hhead
  exact hhead

theorem not_atStart_run {p : Char → Bool} (h : ¬ c.AtStart) : ¬ (c.skipRun p).AtStart := by
  rintro ⟨hline, hcolumn⟩
  exact h ⟨hline, (Nat.add_eq_zero_iff.1 hcolumn).1⟩

theorem trails_skipRun {p : Char → Bool} (hp : ∀ x, p x = true → isSpaceOrTab x = true)
    (h : (c.skipRun p).Trails) : c.Trails := by
  obtain ⟨s, r, hc, hs, -, hrun⟩ := takeRun_split p c
  rw [skipRun, hrun] at h
  cases s with
  | nil =>
    obtain ⟨rest, line, column⟩ := c
    cases hc
    exact h
  | cons x s =>
    have h : Trail (decide (c.column + (x :: s).length = 0)) r := h
    rw [decide_eq_false (by simp)] at h
    rw [Trails, hc]
    exact h.blanks (fun y hy => hp y (hs y hy)) (List.cons_ne_nil x s)

theorem trails_skipComment (hnormal : IsNormal c.rest) (h : c.skipComment.Trails) : c.Trails := by
  rw [skipComment] at h
  split at h
  · next hmark =>
    obtain ⟨q, hq⟩ := List.head?_eq_some_iff.1 hmark
    obtain ⟨s, r, hc, hs, hr, hrun⟩ := takeRun_split (fun x => !isBreak x) c
    rw [skipRun, hrun] at h
    -- The run holds the mark, so no line begins behind it.
    obtain ⟨s, rfl⟩ : ∃ s', s = '#' :: s' := by
      rw [hq] at hc
      cases s with
      | nil =>
        have hmark := hr '#' (by rw [← List.nil_append r, ← hc]; rfl)
        cases hmark
      | cons x s =>
        cases hc
        exact ⟨s, rfl⟩
    have h : Trail (decide (c.column + ('#' :: s).length = 0)) r := h
    rw [decide_eq_false (by simp)] at h
    rw [hc] at hnormal
    rw [Trails, hc]
    refine .comment (fun x hx =>
      isBreak_of_normal ?_ (by simpa using hs x (List.mem_cons_of_mem _ hx))) h
    exact hnormal x (List.mem_append_left _ (List.mem_cons_of_mem _ hx))
  · exact h

end Cursor

namespace Lexer

variable {l l' : Lexer}

/-- A gap before a trail belongs to it. -/
theorem trails_overBlanks (tabs : Bool) {c : Cursor} (hstart : ¬ c.AtStart)
    (hnormal : IsNormal c.rest) (h : (overBlanks tabs c).Trails) : c.Trails := by
  have hmark : overMark c = c := if_neg fun hat => hstart ⟨hat.2.1, hat.1⟩
  rw [overBlanks, hmark] at h
  refine Cursor.trails_skipRun (fun x hx => ?_) (Cursor.trails_skipComment ?_ h)
  · simp only [Bool.or_eq_true, Bool.and_eq_true, beq_iff_eq] at hx
    rcases hx with rfl | ⟨-, rfl⟩ <;> rfl
  · exact fun x hx => hnormal x ((Cursor.goes_skipRun _ c).suffix.subset hx)

theorem not_atStart_overBlanks (tabs : Bool) {c : Cursor} (hstart : ¬ c.AtStart) :
    ¬ (overBlanks tabs c).AtStart := by
  have hmark : overMark c = c := if_neg fun hat => hstart ⟨hat.2.1, hat.1⟩
  have hrun := Cursor.not_atStart_run (p := fun x => x == ' ' || (tabs && x == '\t')) hstart
  rw [overBlanks, hmark, Cursor.skipComment]
  split
  · exact Cursor.not_atStart_run hrun
  · exact hrun

theorem trails_skipGap {n : Nat} (hstart : ¬ l.cursor.AtStart) (hnormal : IsNormal l.cursor.rest)
    (h : (skipGap n l).cursor.Trails) : l.cursor.Trails := by
  induction n generalizing l with
  | zero => exact h
  | succ n ih =>
    rw [skipGap_succ] at h
    have hrest := (goes_overBlanks (l.inFlow || ¬ l.keyAllowed) l.cursor).suffix.subset
    have hover := not_atStart_overBlanks (l.inFlow || ¬ l.keyAllowed) hstart
    refine trails_overBlanks (l.inFlow || ¬ l.keyAllowed) hstart hnormal ?_
    generalize overBlanks (l.inFlow || ¬ l.keyAllowed) l.cursor = c at h hrest hover
    rw [onward] at h
    split at h
    · next hbreak =>
      obtain ⟨x, r, hc, hx⟩ := Cursor.exists_of_atBreak hbreak
      have hnext : c.next = ⟨r, c.line + 1, 0⟩ := by rw [Cursor.next, hc]; exact if_pos hx
      rw [hnext] at h
      have hline :=
        ih (l := { l with cursor := ⟨r, c.line + 1, 0⟩, keyAllowed := l.keyAllowed || ¬ l.inFlow })
        (fun hat => Nat.succ_ne_zero _ hat.1)
        (fun y hy => hnormal y (hrest (hc ▸ List.mem_cons_of_mem x hy))) h
      rw [Cursor.Trails, hc]
      exact .line (endsLine_of_isBreak hx) hline
    · exact h

theorem trails_settle (hstart : ¬ l.cursor.AtStart) (hnormal : IsNormal l.cursor.rest)
    (hl : l.settle = .ok l') (h : l'.cursor.Trails) : l.cursor.Trails := by
  rw [cursor_settle hl] at h
  exact trails_skipGap hstart hnormal h

end Lexer
end LayeredConfig.Yaml
