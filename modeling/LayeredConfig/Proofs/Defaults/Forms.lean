import Mathlib.Data.List.TakeWhile
import LayeredConfig.Proofs.Defaults.Lines

/-!
# The forms of a selection

A selection ends where the blanks and the comment behind it begin, so that a line holds at most one
text that a form accepts: the form accepts the line if and only if it accepts that text.
-/
namespace LayeredConfig.Rewrite

/-- A text that cannot go on into the blanks and the comment behind it. -/
structure IsTight (s : Text) : Prop where
  noComment : '#' ∉ s
  noReturn : '\r' ∉ s
  last : ∀ x ∈ s.getLast?, isBlankChar x = false

/-- What follows a selection on its line. -/
def IsTail (s : Text) : Prop := '\n' ∉ s ∧ tail? s = some s

theorem isTail_of_tail? {s t : Text} (hs : '\n' ∉ s) (h : tail? s = some t) : t = s ∧ IsTail s := by
  rw [tail?_eq] at h
  have hd := not_mem_dropWhile hs isBlankChar
  have ht : t = s := by
    split at h
    · obtain ⟨-, rfl⟩ := (ending_eq_some_iff (not_mem_dropWhile hd _)).1 h
      rw [List.append_assoc, List.takeWhile_append_dropWhile, List.takeWhile_append_dropWhile]
    · obtain ⟨-, rfl⟩ := (ending_eq_some_iff hd).1 h
      rw [List.takeWhile_append_dropWhile]
  rw [← tail?_eq, ht] at h
  exact ⟨ht, hs, h⟩

/-- Behind its blanks a tail is empty, or a comment or a carriage return begins. -/
theorem IsTail.dropWhile {s : Text} (h : IsTail s) :
    ∀ x ∈ (s.dropWhile isBlankChar).head?, x = '#' ∨ x = '\r' := by
  obtain ⟨hs, htail⟩ := h
  rw [tail?_eq] at htail
  have hd := not_mem_dropWhile hs isBlankChar
  intro x hx
  split at htail
  · next hmark =>
    rw [hmark] at hx
    exact Or.inl (Option.some.inj hx).symm
  · rcases ((ending_eq_some_iff hd).1 htail).1 with hnil | hcr
    · rw [hnil] at hx
      cases hx
    · rw [hcr] at hx
      exact Or.inr (Option.some.inj hx).symm

theorem not_mem_of_blank {b : Text} (hb : ∀ x ∈ b, isBlankChar x = true) {c : Char}
    (hc : isBlankChar c = false) : c ∉ b := fun h => by
  rw [hb c h] at hc
  cases hc

/-- The end of a line: blanks, a comment and a carriage return. -/
structure Tail where
  blanks : Text
  /-- A comment without its mark. -/
  comment : Option Text
  cr : Bool
  isBlank : ∀ x ∈ blanks, isBlankChar x = true
  unbroken : ∀ s ∈ comment, ∀ x ∈ s, inComment x = true

namespace Tail

def commentText : Option Text → Text
  | some s => '#' :: s
  | none => []

def text (t : Tail) : Text :=
  t.blanks ++ (commentText t.comment ++ if t.cr then ['\r'] else [])

theorem isTail_text (t : Tail) : IsTail t.text := by
  obtain ⟨blanks, comment, cr, hblank, hin⟩ := t
  have hline : '\n' ∉ (⟨blanks, comment, cr, hblank, hin⟩ : Tail).text := by
    have hblanks := not_mem_of_blank hblank (show isBlankChar '\n' = false from rfl)
    have hcomment : '\n' ∉ commentText comment := by
      cases comment with
      | none => exact List.not_mem_nil
      | some s =>
        have hs : '\n' ∉ s := fun h => absurd (hin s rfl '\n' h) (by decide)
        simp [commentText, hs]
    cases cr <;> simp [text, hblanks, hcomment]
  refine ⟨hline, ?_⟩
  have htake :
      (blanks ++ (commentText comment ++ if cr then ['\r'] else [])).takeWhile isBlankChar =
      blanks := by
    rw [List.takeWhile_append_of_pos hblank]
    cases comment <;> cases cr <;> simp [commentText, isBlankChar]
  have hdrop :
      (blanks ++ (commentText comment ++ if cr then ['\r'] else [])).dropWhile isBlankChar =
      commentText comment ++ if cr then ['\r'] else [] := by
    rw [List.dropWhile_append_of_pos hblank]
    cases comment <;> cases cr <;> simp [commentText, isBlankChar]
  have hend : ∀ read, ending read (if cr then ['\r'] else []) =
      some (read ++ if cr then ['\r'] else []) := by
    intro read
    cases cr
    · simp [ending]
    · rfl
  rw [tail?_eq, text, htake, hdrop]
  cases comment with
  | none =>
    have hmark : (commentText none ++ if cr then ['\r'] else []).head? ≠ some '#' := by
      cases cr <;> simp [commentText]
    rw [if_neg hmark, commentText, List.nil_append, hend]
  | some s =>
    have hall : ∀ x ∈ commentText (some s), inComment x = true :=
      List.forall_mem_cons.2 ⟨by decide, hin s rfl⟩
    have hstop : (if cr then ['\r'] else []).takeWhile inComment = [] ∧
        (if cr then ['\r'] else []).dropWhile inComment = if cr then ['\r'] else [] := by
      cases cr <;> decide
    rw [if_pos (by simp [commentText]), List.takeWhile_append_of_pos hall,
      List.dropWhile_append_of_pos hall, hstop.1, hstop.2, hend, List.append_nil, List.append_assoc]

theorem exists_cr {s : Text} (h : s = [] ∨ s = ['\r']) :
    ∃ cr : Bool, s = if cr then ['\r'] else [] := by
  rcases h with rfl | rfl
  · exact ⟨false, rfl⟩
  · exact ⟨true, rfl⟩

theorem exists_of_isTail {s : Text} (h : IsTail s) : ∃ t : Tail, t.text = s := by
  obtain ⟨hline, htail⟩ := h
  have hblank : ∀ x ∈ s.takeWhile isBlankChar, isBlankChar x = true :=
    fun x hx => List.all_eq_true.1 List.all_takeWhile x hx
  have hd := not_mem_dropWhile hline isBlankChar
  have hs := List.takeWhile_append_dropWhile (p := isBlankChar) (l := s)
  rw [tail?_eq] at htail
  split at htail
  · next hmark =>
    obtain ⟨hcr, -⟩ := (ending_eq_some_iff (not_mem_dropWhile hd _)).1 htail
    obtain ⟨cr, hcr⟩ := exists_cr hcr
    obtain ⟨r, hr⟩ := List.head?_eq_some_iff.1 hmark
    have hin : ∀ x ∈ r.takeWhile inComment, inComment x = true :=
      fun x hx => List.all_eq_true.1 List.all_takeWhile x hx
    refine ⟨⟨s.takeWhile isBlankChar, some (r.takeWhile inComment), cr, hblank, ?_⟩, ?_⟩
    · rintro _ ⟨⟩
      exact hin
    · rw [hr, List.dropWhile_cons_of_pos (by decide)] at hcr
      rw [text, ← hcr, commentText, List.cons_append, List.takeWhile_append_dropWhile, ← hr, hs]
  · obtain ⟨hcr, -⟩ := (ending_eq_some_iff hd).1 htail
    obtain ⟨cr, hcr⟩ := exists_cr hcr
    refine ⟨⟨s.takeWhile isBlankChar, none, cr, hblank, by simp⟩, ?_⟩
    rw [text, ← hcr, commentText, List.nil_append, hs]

end Tail

/-- A tight text that ends in a tail has nothing of it. -/
theorem IsTight.eq_nil {s d t : Text} (h : IsTight (s ++ d)) (ht : IsTail (d ++ t)) : d = [] := by
  have hblank : d.dropWhile isBlankChar = [] := by
    cases hd : d.dropWhile isBlankChar with
    | nil => rfl
    | cons x r =>
      have hmem : x ∈ s ++ d := by
        refine List.mem_append_right _ ((List.dropWhile_suffix isBlankChar).subset ?_)
        rw [hd]
        exact List.mem_cons_self
      have hx := ht.dropWhile x (by rw [List.dropWhile_append, hd]; rfl)
      rcases hx with rfl | rfl
      · exact absurd hmem h.noComment
      · exact absurd hmem h.noReturn
  cases hlast : d.getLast? with
  | none => exact List.getLast?_eq_none_iff.1 hlast
  | some x =>
    have hx : isBlankChar x = true := by
      have htake : d.takeWhile isBlankChar = d := by
        simpa [hblank] using List.takeWhile_append_dropWhile (p := isBlankChar) (l := d)
      have hmem : x ∈ d.takeWhile isBlankChar := by
        rw [htake]
        exact List.mem_of_getLast? hlast
      exact List.all_eq_true.1 List.all_takeWhile x hmem
    have hnot := h.last x (by rw [List.getLast?_append, hlast]; rfl)
    rw [hx] at hnot
    cases hnot

/-- A line is cut into a tight text and a tail in one way. -/
theorem tight_unique {s p t u : Text} (hs : IsTight s) (hp : IsTight p) (ht : IsTail t)
    (hu : IsTail u) (h : s ++ t = p ++ u) : s = p ∧ t = u := by
  rcases List.append_eq_append_iff.1 h with ⟨d, rfl, rfl⟩ | ⟨d, rfl, rfl⟩
  · obtain rfl := hp.eq_nil ht
    simp
  · obtain rfl := hs.eq_nil hu
    simp

/-- The texts that a form accepts, and that it accepts them up to the end of the line. -/
structure Accepts (form : Text → Option (Text × Text)) (A : Text → Prop) : Prop where
  tight : ∀ w, A w → IsTight w
  sound : ∀ s w t, '\n' ∉ s → form s = some (w, t) → A w ∧ s = w ++ t ∧ IsTail t
  complete : ∀ w t, A w → IsTail t → form (w ++ t) = some (w, t)

theorem Accepts.exact {form : Text → Option (Text × Text)} {A : Text → Prop} (h : Accepts form A)
    {s t : Text} (hs : IsTight s) (hline : '\n' ∉ s) (ht : IsTail t) [Decidable (A s)] :
    form (s ++ t) = if A s then some (s, t) else none := by
  split
  · next hA => exact h.complete s t hA ht
  · next hA =>
    cases hf : form (s ++ t) with
    | none => rfl
    | some f =>
      obtain ⟨w, u⟩ := f
      have hmem : '\n' ∉ s ++ t := fun hm => (List.mem_append.1 hm).elim hline ht.1
      obtain ⟨hw, heq, hu⟩ := h.sound _ w u hmem hf
      obtain ⟨rfl, rfl⟩ := tight_unique hs (h.tight w hw) ht hu heq
      exact absurd hw hA

/-- A fixed text with what follows it. -/
theorem accepts_fixed {u : Text} (hu : IsTight u) :
    Accepts (fun s => ((Text.after? u s).bind tail?).map (u, ·)) (· = u) where
  tight := by
    rintro w rfl
    exact hu
  sound := by
    intro s w t hs hf
    obtain ⟨t', ht', heq⟩ := Option.map_eq_some_iff.1 hf
    cases heq
    obtain ⟨r, hr, ht'⟩ := Option.bind_eq_some_iff.1 ht'
    obtain ⟨rfl, htail⟩ := isTail_of_tail? (not_mem_of_after? hr hs) ht'
    exact ⟨rfl, Text.after?_eq_some_iff.1 hr, htail⟩
  complete := by
    rintro w t rfl ht
    rw [Text.after?_eq_some_iff.2 rfl, Option.bind_some, ht.2]
    rfl

theorem accepts_pathForm? {old : Selection} (hold : IsTight (old.group ++ '/' :: old.name)) :
    Accepts (pathForm? old) (· = old.group ++ '/' :: old.name) := by
  rw [funext (pathForm?_eq old)]
  exact accepts_fixed hold

theorem accepts_bareForm? {old : Selection} (hold : IsTight old.name) :
    Accepts (bareForm? old) (· = old.name) := by
  rw [funext (bareForm?_eq old)]
  exact accepts_fixed hold

/-- A group and a name as a mapping, with blanks around the colon. -/
def IsPair (old : Selection) (w : Text) : Prop :=
  ∃ before after, (∀ x ∈ before ++ after, isBlankChar x = true) ∧
    w = old.group ++ before ++ ':' :: after ++ old.name

/-- What is found behind blanks. -/
theorem afterBlanks_eq_some {α : Type} {next : Text → Option α} {s b : Text} {a : α}
    (h : afterBlanks next s = some (b, a)) :
    (∀ x ∈ b, isBlankChar x = true) ∧ ∃ r, s = b ++ r ∧ next r = some a := by
  induction s generalizing b with
  | nil =>
    obtain ⟨a', ha', heq⟩ := Option.map_eq_some_iff.1 h
    cases heq
    exact ⟨by simp, [], rfl, ha'⟩
  | cons c s ih =>
    have hhere : (next (c :: s)).map (fun a => (([] : Text), a)) = some (b, a) →
        (∀ x ∈ b, isBlankChar x = true) ∧ ∃ r, c :: s = b ++ r ∧ next r = some a := by
      intro h
      obtain ⟨a', ha', heq⟩ := Option.map_eq_some_iff.1 h
      cases heq
      exact ⟨by simp, c :: s, rfl, ha'⟩
    rw [afterBlanks] at h
    split at h
    · next hc =>
      split at h
      · next b' a' hrest =>
        cases h
        obtain ⟨hb, r, rfl, hr⟩ := ih hrest
        exact ⟨List.forall_mem_cons.2 ⟨hc, hb⟩, r, rfl, hr⟩
      · exact hhere h
    · exact hhere h

/-- The longest run of blanks is passed over. -/
theorem afterBlanks_of_blanks {α : Type} {next : Text → Option α} {b r : Text} {a : α}
    (hb : ∀ x ∈ b, isBlankChar x = true) (hr : ∀ x ∈ r.head?, isBlankChar x = false)
    (h : next r = some a) : afterBlanks next (b ++ r) = some (b, a) := by
  induction b with
  | nil =>
    cases r with
    | nil => simp [afterBlanks, h]
    | cons c r => simp [afterBlanks, hr c rfl, h]
  | cons c b ih =>
    obtain ⟨hc, hb⟩ := List.forall_mem_cons.1 hb
    rw [List.cons_append, afterBlanks, if_pos hc, ih hb]

theorem isTight_append {s r : Text} (hs : '#' ∉ s ∧ '\r' ∉ s) (hr : IsTight r) (hne : r ≠ []) :
    IsTight (s ++ r) where
  noComment := fun h => (List.mem_append.1 h).elim hs.1 hr.noComment
  noReturn := fun h => (List.mem_append.1 h).elim hs.2 hr.noReturn
  last := by
    have hlast := hr.last
    rw [List.getLast?_eq_some_getLast hne] at hlast
    rw [List.getLast?_append, List.getLast?_eq_some_getLast hne]
    exact hlast

theorem accepts_mappingForm? {old : Selection} (hgroup : IsTight old.group)
    (hname : IsTight old.name)
    (hfirst : ∀ x ∈ old.name.head?, isBlankChar x = false) (hne : old.name ≠ []) :
    Accepts (mappingForm? old) (IsPair old) where
  tight := by
    rintro w ⟨before, after, hblank, rfl⟩
    have hmark := not_mem_of_blank hblank (show isBlankChar '#' = false from rfl)
    have hcr := not_mem_of_blank hblank (show isBlankChar '\r' = false from rfl)
    have hbegin : '#' ∉ old.group ++ before ++ ':' :: after ∧
        '\r' ∉ old.group ++ before ++ ':' :: after := by
      simp only [List.mem_append, not_or] at hmark hcr
      simp [hgroup.noComment, hgroup.noReturn, hmark, hcr]
    exact isTight_append hbegin hname hne
  sound := by
    intro s w t hs hf
    rw [mappingForm?_eq] at hf
    obtain ⟨⟨before, after, t'⟩, hp, heq⟩ := Option.map_eq_some_iff.1 hf
    cases heq
    obtain ⟨r, hr, hp₁⟩ := Option.bind_eq_some_iff.1 hp
    obtain ⟨hbefore, r₁, hr₁, hp₂⟩ := afterBlanks_eq_some hp₁
    obtain ⟨r₂, hr₂, hp₃⟩ := Option.bind_eq_some_iff.1 hp₂
    obtain ⟨hafter, r₃, hr₃, hp₄⟩ := afterBlanks_eq_some hp₃
    obtain ⟨r₄, hr₄, hp₅⟩ := Option.bind_eq_some_iff.1 hp₄
    have hs_eq : s = old.group ++ before ++ ':' :: after ++ old.name ++ r₄ := by
      rw [Text.after?_eq_some_iff.1 hr, hr₁, Text.after?_eq_some_iff.1 hr₂, hr₃,
        Text.after?_eq_some_iff.1 hr₄]
      simp
    have hr₄_line : '\n' ∉ r₄ := by
      rw [hs_eq] at hs
      exact fun h => hs (List.mem_append_right _ h)
    obtain ⟨rfl, htail⟩ := isTail_of_tail? hr₄_line hp₅
    exact ⟨⟨before, after, List.forall_mem_append.2 ⟨hbefore, hafter⟩, rfl⟩, hs_eq, htail⟩
  complete := by
    rintro w t ⟨before, after, hblank, rfl⟩ ht
    obtain ⟨hbefore, hafter⟩ := List.forall_mem_append.1 hblank
    have hnamed : (Text.after? old.name (old.name ++ t)).bind tail? = some t := by
      rw [Text.after?_eq_some_iff.2 rfl, Option.bind_some, ht.2]
    have hhead : ∀ x ∈ (old.name ++ t).head?, isBlankChar x = false := by
      rw [List.head?_eq_some_head hne] at hfirst
      rw [List.head?_append, List.head?_eq_some_head hne]
      exact hfirst
    have hcolon : (Text.after? ":" (':' :: (after ++ (old.name ++ t)))).bind
        (afterBlanks fun r => (Text.after? old.name r).bind tail?) = some (after, t) := by
      rw [Text.after?_eq_some_iff.2 (show ':' :: (after ++ (old.name ++ t)) = _ ++ _ from rfl),
        Option.bind_some]
      exact afterBlanks_of_blanks hafter hhead hnamed
    have hbegin : ∀ x ∈ (':' :: (after ++ (old.name ++ t))).head?, isBlankChar x = false := by
      intro x hx
      cases hx
      rfl
    have hall : old.group ++ before ++ ':' :: after ++ old.name ++ t =
        old.group ++ (before ++ ':' :: (after ++ (old.name ++ t))) := by simp
    rw [mappingForm?_eq, hall, Text.after?_eq_some_iff.2 rfl, Option.bind_some]
    have hfound : afterBlanks (fun r => (Text.after? ":" r).bind
        (afterBlanks fun r => (Text.after? old.name r).bind tail?))
        (before ++ ':' :: (after ++ (old.name ++ t))) = some (before, after, t) :=
      afterBlanks_of_blanks hbefore hbegin hcolon
    rw [hfound]
    rfl

/-- What is looked for behind the blanks and the dash of a line. -/
theorem find?_item {indent : Text} (hindent : ∀ x ∈ indent, isBlankChar x = true)
    {form : Text → Option (Text × Text)} {marked : Bool} {r : Text} :
    find? form marked (indent ++ ("- " ++ r)) =
      if marked then
        match (Text.after? "override " r).bind form with
        | some f => some ⟨indent, "override ", f.1, f.2⟩
        | none => (form r).map fun f => ⟨indent, [], f.1, f.2⟩
      else (form r).map fun f => ⟨indent, [], f.1, f.2⟩ := by
  have htake : (indent ++ ("- " ++ r)).takeWhile isBlankChar = indent := by
    rw [List.takeWhile_append_of_pos hindent]
    simp [isBlankChar]
  have hdrop : (indent ++ ("- " ++ r)).dropWhile isBlankChar = "- " ++ r := by
    rw [List.dropWhile_append_of_pos hindent]
    simp [isBlankChar]
  rw [find?, htake, hdrop, Text.after?_eq_some_iff.2 rfl]
  rfl

end LayeredConfig.Rewrite
