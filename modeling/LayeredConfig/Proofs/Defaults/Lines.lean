import LayeredConfig.Defaults.Rewrite
import LayeredConfig.Proofs.Text.Segments

/-!
# Rewriting line by line

An entry is looked for at the start of a line and ends with its line. So a text is rewritten line by
line, each line on its own, and a line without an entry stays as it is.
-/
namespace LayeredConfig.Rewrite

theorem takeWhile_stop {p : Char → Bool} {x : Char} (hx : p x = false) (s r : Text) :
    (s ++ x :: r).takeWhile p = s.takeWhile p := by
  induction s with
  | nil => simp [hx]
  | cons c s ih => cases hc : p c <;> simp [hc, ih]

theorem dropWhile_stop {p : Char → Bool} {x : Char} (hx : p x = false) (s r : Text) :
    (s ++ x :: r).dropWhile p = s.dropWhile p ++ x :: r := by
  induction s with
  | nil => simp [hx]
  | cons c s ih => cases hc : p c <;> simp [hc, ih]

/-- What a search for the rest of a line may look at: the line itself, up to its end. -/
structure OfLine {α : Type} (form : Text → Option α) (length : α → Nat) : Prop where
  stops : ∀ line r, '\n' ∉ line → form (line ++ '\n' :: r) = form line
  whole : ∀ line a, '\n' ∉ line → form line = some a → length a = line.length

theorem after?_stop {lead : Text} (hlead : '\n' ∉ lead) (line r : Text) :
    Text.after? lead (line ++ '\n' :: r) = (Text.after? lead line).map (· ++ '\n' :: r) := by
  induction lead generalizing line with
  | nil => rfl
  | cons a lead ih =>
    obtain ⟨ha, hlead⟩ := not_or.1 (mt List.mem_cons.2 hlead)
    cases line with
    | nil => simp [Text.after?, Ne.symm ha]
    | cons c line =>
      rw [List.cons_append, Text.after?, Text.after?]
      split
      · exact ih hlead line
      · rfl

theorem not_mem_of_after? {lead s r : Text} {c : Char} (h : Text.after? lead s = some r)
    (hc : c ∉ s) : c ∉ r := by
  rw [Text.after?_eq_some_iff.1 h] at hc
  exact fun hmem => hc (List.mem_append_right _ hmem)

/-- The search for a fixed text and, behind it, for the rest of the line. -/
theorem OfLine.after {α : Type} {form : Text → Option α} {length : α → Nat} (h : OfLine form length)
    {lead : Text} (hlead : '\n' ∉ lead) :
    OfLine (fun s => (Text.after? lead s).bind form) (fun a => lead.length + length a) := by
  constructor
  · intro line r hline
    rw [after?_stop hlead]
    cases hr : Text.after? lead line with
    | none => rfl
    | some rest => simpa using h.stops rest r (not_mem_of_after? hr hline)
  · intro line a hline ha
    obtain ⟨rest, hr, ha⟩ := Option.bind_eq_some_iff.1 ha
    rw [h.whole rest a (not_mem_of_after? hr hline) ha, Text.after?_eq_some_iff.1 hr,
      List.length_append]

/-- The end of a line behind blanks and a comment: nothing, or a carriage return. -/
def ending (read r : Text) : Option Text :=
  let (cr, r) : Text × Text := match r with
    | '\r' :: t => (['\r'], t)
    | _ => ([], r)
  if r.isEmpty ∨ r.head? = some '\n' then some (read ++ cr) else none

/-- A character that a comment may hold. -/
def inComment (c : Char) : Bool := c != '\r' && c != '\n'

theorem tail?_eq (s : Text) : tail? s =
    if (s.dropWhile isBlankChar).head? = some '#' then
      ending (s.takeWhile isBlankChar ++ (s.dropWhile isBlankChar).takeWhile inComment)
        ((s.dropWhile isBlankChar).dropWhile inComment)
    else ending (s.takeWhile isBlankChar) (s.dropWhile isBlankChar) := by
  unfold tail? ending
  by_cases h : (s.dropWhile isBlankChar).head? = some '#'
  · simp only [h, if_true]
    rfl
  · simp only [h, if_false, List.append_nil]
    rfl

theorem ending_cr (read r : Text) : ending read ('\r' :: r) =
    if r.isEmpty ∨ r.head? = some '\n' then some (read ++ ['\r']) else none := rfl

theorem ending_of_ne {read r : Text} (h : r.head? ≠ some '\r') : ending read r =
    if r.isEmpty ∨ r.head? = some '\n' then some read else none := by
  cases r with
  | nil => simp [ending]
  | cons x r =>
    have hx : x ≠ '\r' := by simpa using h
    unfold ending
    split
    next heq =>
    split at heq
    · next t hcons => exact absurd (List.cons.inj hcons).1 hx
    · cases heq
      simp

theorem head?_of_not_mem {s : Text} (hs : '\n' ∉ s) : s.head? ≠ some '\n' :=
  fun h => hs (List.mem_of_mem_head? h)

/-- A line ends where a line feed follows. -/
theorem isEnd_append {s : Text} (hs : '\n' ∉ s) (r : Text) :
    ((s ++ '\n' :: r).isEmpty ∨ (s ++ '\n' :: r).head? = some '\n') ↔ s = [] := by
  cases s with
  | nil => simp
  | cons x s =>
    have hx : x ≠ '\n' := by simpa using head?_of_not_mem hs
    simp [hx]

theorem isEnd_iff {s : Text} (hs : '\n' ∉ s) : (s.isEmpty ∨ s.head? = some '\n') ↔ s = [] := by
  simp [head?_of_not_mem hs]

theorem ending_stop {read s : Text} (hs : '\n' ∉ s) (r : Text) :
    ending read (s ++ '\n' :: r) = ending read s := by
  by_cases hcr : s.head? = some '\r'
  · cases s with
    | nil => cases hcr
    | cons x s =>
      cases hcr
      have hs := (not_or.1 (mt List.mem_cons.2 hs)).2
      rw [List.cons_append, ending_cr, ending_cr]
      simp only [isEnd_append hs, isEnd_iff hs]
  · have hcr' : (s ++ '\n' :: r).head? ≠ some '\r' := by
      cases s with
      | nil => simp
      | cons x s => exact hcr
    rw [ending_of_ne hcr, ending_of_ne hcr']
    simp only [isEnd_append hs, isEnd_iff hs]

theorem ending_eq_some_iff {read s t : Text} (hs : '\n' ∉ s) :
    ending read s = some t ↔ (s = [] ∨ s = ['\r']) ∧ t = read ++ s := by
  by_cases hcr : s.head? = some '\r'
  · cases s with
    | nil => cases hcr
    | cons x s =>
      cases hcr
      have hs := (not_or.1 (mt List.mem_cons.2 hs)).2
      rw [ending_cr]
      simp only [isEnd_iff hs]
      cases s with
      | nil => simp [eq_comm]
      | cons y s => simp
  · rw [ending_of_ne hcr]
    simp only [isEnd_iff hs]
    cases s with
    | nil => simp [eq_comm]
    | cons y s =>
      have hy : y ≠ '\r' := by simpa using hcr
      simp [hy]

theorem head?_stop {x c : Char} (hc : c ≠ x) (s r : Text) :
    (s ++ x :: r).head? = some c ↔ s.head? = some c := by
  cases s with
  | nil => simp [Ne.symm hc]
  | cons d t => simp

theorem not_mem_dropWhile {x : Char} {s : Text} (hs : x ∉ s) (p : Char → Bool) :
    x ∉ s.dropWhile p :=
  fun h => hs ((List.dropWhile_suffix p).subset h)

/-- What follows a selection goes up to the end of the line. -/
theorem ofLine_tail? : OfLine tail? List.length := by
  constructor
  · intro line r hline
    have hblank : isBlankChar '\n' = false := rfl
    have hcomment : inComment '\n' = false := rfl
    have hd := not_mem_dropWhile hline isBlankChar
    rw [tail?_eq, tail?_eq]
    simp only [takeWhile_stop hblank, dropWhile_stop hblank, takeWhile_stop hcomment,
      dropWhile_stop hcomment, head?_stop (show '#' ≠ '\n' by decide)]
    rw [ending_stop (not_mem_dropWhile hd _), ending_stop hd]
  · intro line t hline ht
    have hd := not_mem_dropWhile hline isBlankChar
    rw [tail?_eq] at ht
    split at ht
    · obtain ⟨-, rfl⟩ := (ending_eq_some_iff (not_mem_dropWhile hd _)).1 ht
      rw [List.append_assoc, List.takeWhile_append_dropWhile, List.takeWhile_append_dropWhile]
    · obtain ⟨-, rfl⟩ := (ending_eq_some_iff hd).1 ht
      rw [List.takeWhile_append_dropWhile]

/-- Another way to give the result of a search. -/
theorem OfLine.map {α β : Type} {form : Text → Option α} {length : α → Nat} (h : OfLine form length)
    (f : α → β) {length' : β → Nat} (hf : ∀ a, length' (f a) = length a) :
    OfLine (fun s => (form s).map f) length' := by
  constructor
  · intro line r hline
    rw [h.stops line r hline]
  · intro line b hline hb
    obtain ⟨a, ha, rfl⟩ := Option.map_eq_some_iff.1 hb
    rw [hf, h.whole line a hline ha]

theorem OfLine.afterBlanks {α : Type} {form : Text → Option α} {length : α → Nat}
    (h : OfLine form length) : OfLine (afterBlanks form) (fun p => p.1.length + length p.2) := by
  constructor
  · intro line r hline
    induction line with
    | nil =>
      have hstop := h.stops [] r hline
      rw [List.nil_append] at hstop ⊢
      rw [Rewrite.afterBlanks, Rewrite.afterBlanks, hstop]
      rfl
    | cons c line ih =>
      have hstop := h.stops (c :: line) r hline
      rw [List.cons_append] at hstop ⊢
      rw [Rewrite.afterBlanks, Rewrite.afterBlanks, hstop,
        ih (not_or.1 (mt List.mem_cons.2 hline)).2]
  · intro line p hline hp
    induction line generalizing p with
    | nil =>
      obtain ⟨a, ha, rfl⟩ := Option.map_eq_some_iff.1 hp
      simpa using h.whole [] a hline ha
    | cons c line ih =>
      have hhere : ∀ p, (form (c :: line)).map (fun a => (([] : Text), a)) = some p →
          p.1.length + length p.2 = (c :: line).length := by
        intro p hp
        obtain ⟨a, ha, rfl⟩ := Option.map_eq_some_iff.1 hp
        simpa using h.whole (c :: line) a hline ha
      rw [Rewrite.afterBlanks] at hp
      split at hp
      · split at hp
        · next blanks a hrest =>
          cases hp
          have hlength := ih _ (not_or.1 (mt List.mem_cons.2 hline)).2 hrest
          simp only [List.length_cons] at hlength ⊢
          omega
        · exact hhere p hp
      · exact hhere p hp

/-- How long a selection is with what follows it. -/
def formLength (f : Text × Text) : Nat := f.1.length + f.2.length

theorem pathForm?_eq (old : Selection) (s : Text) : pathForm? old s =
    ((Text.after? (old.group ++ '/' :: old.name) s).bind tail?).map
      (old.group ++ '/' :: old.name, ·) := by
  rw [pathForm?]
  cases h : Text.after? (old.group ++ '/' :: old.name) s with
  | none => rfl
  | some r => cases ht : tail? r <;> simp [ht]

theorem bareForm?_eq (old : Selection) (s : Text) : bareForm? old s =
    ((Text.after? old.name s).bind tail?).map (old.name, ·) := by
  rw [bareForm?]
  cases h : Text.after? old.name s with
  | none => rfl
  | some r => cases ht : tail? r <;> simp [ht]

theorem mappingForm?_eq (old : Selection) (s : Text) : mappingForm? old s =
    ((Text.after? old.group s).bind (afterBlanks fun r => (Text.after? ":" r).bind
      (afterBlanks fun r => (Text.after? old.name r).bind tail?))).map
        (fun p => (old.group ++ p.1 ++ ':' :: p.2.1 ++ old.name, p.2.2)) := by
  rw [mappingForm?]
  cases h : Text.after? old.group s with
  | none => rfl
  | some r =>
    show (afterBlanks (fun r => (Text.after? ":" r).bind
      (afterBlanks fun r => (Text.after? old.name r).bind tail?)) r >>= _) =
        Option.map _ (afterBlanks _ r)
    cases afterBlanks (fun r => (Text.after? ":" r).bind
      (afterBlanks fun r => (Text.after? old.name r).bind tail?)) r with
    | none => rfl
    | some p => rfl

/-- The three ways to write a selection stay on a line, as long as the selection does. -/
theorem ofLine_pathForm? {old : Selection} (hold : '\n' ∉ old.group ++ '/' :: old.name) :
    OfLine (pathForm? old) formLength := by
  rw [funext (pathForm?_eq old)]
  exact (ofLine_tail?.after hold).map _ fun t => rfl

theorem ofLine_bareForm? {old : Selection} (hold : '\n' ∉ old.name) :
    OfLine (bareForm? old) formLength := by
  rw [funext (bareForm?_eq old)]
  exact (ofLine_tail?.after hold).map _ fun t => rfl

theorem ofLine_mappingForm? {old : Selection} (hgroup : '\n' ∉ old.group)
    (hname : '\n' ∉ old.name) :
    OfLine (mappingForm? old) formLength := by
  rw [funext (mappingForm?_eq old)]
  have hcolon : '\n' ∉ (":" : Text) := by decide
  refine ((((ofLine_tail?.after hname).afterBlanks.after hcolon).afterBlanks).after hgroup).map _
    fun p => ?_
  simp [formLength]
  omega

/-- An entry takes up its line from the start to the end. -/
theorem ofLine_find? {form : Text → Option (Text × Text)} (h : OfLine form formLength)
    (marked : Bool) : OfLine (find? form marked) Found.length := by
  have hmark : '\n' ∉ ("override " : Text) := by decide
  have hdash : '\n' ∉ ("- " : Text) := by decide
  have hblank : isBlankChar '\n' = false := rfl
  constructor
  · intro line r hline
    rw [find?, find?, takeWhile_stop hblank, dropWhile_stop hblank, after?_stop hdash]
    cases hr : Text.after? "- " (line.dropWhile isBlankChar) with
    | none => rfl
    | some rest =>
      have hrest := not_mem_of_after? hr (not_mem_dropWhile hline isBlankChar)
      have hplain := h.stops rest r hrest
      have hmarked := (h.after hmark).stops rest r hrest
      simp only [Option.map_some, Option.bind_eq_bind, Option.bind_some, hplain, hmarked]
  · intro line f hline hf
    obtain ⟨rest, hr, hf⟩ := Option.bind_eq_some_iff.1 hf
    have hrest := not_mem_of_after? hr (not_mem_dropWhile hline isBlankChar)
    have hlength : line.length = (line.takeWhile isBlankChar).length + (2 + rest.length) := by
      have hall := congrArg List.length
        (List.takeWhile_append_dropWhile (p := isBlankChar) (l := line))
      rw [Text.after?_eq_some_iff.1 hr] at hall
      simp at hall
      omega
    have hplain :
        ∀ g, (form rest).map (fun f => (⟨line.takeWhile isBlankChar, [], f.1, f.2⟩ : Found)) =
        some g → g.length = line.length := by
      intro g hg
      obtain ⟨f, hf, rfl⟩ := Option.map_eq_some_iff.1 hg
      have hf := h.whole rest f hrest hf
      simp only [Found.length, formLength, List.length_nil] at hf ⊢
      omega
    dsimp only at hf
    split at hf
    · split at hf
      · next f' hf' =>
        have hf' := (h.after hmark).whole rest f' hrest hf'
        cases hf
        simp only [Found.length, formLength] at hf' ⊢
        omega
      · exact hplain f hf
    · exact hplain f hf

/-- What a line becomes. -/
def rewriteLine (find : Text → Option Found) (new line : Text) : Text :=
  match find line with
  | some f => f.indent ++ "- " ++ f.mark ++ new ++ f.tail
  | none => line

variable {find : Text → Option Found} {new : Text}

theorem substitute_lineFeed (r : Text) :
    substitute find new 0 false ('\n' :: r) =
      ('\n' :: (substitute find new 0 true r).1, (substitute find new 0 true r).2) := rfl

/-- The characters of an entry are passed over. -/
theorem substitute_skip {s : Text} (hs : '\n' ∉ s) (r : Text) :
    substitute find new s.length false (s ++ r) = substitute find new 0 false r := by
  induction s with
  | nil => rfl
  | cons c s ih =>
    obtain ⟨hc, hs⟩ := not_or.1 (mt List.mem_cons.2 hs)
    rw [List.cons_append, List.length_cons, substitute, beq_false_of_ne (Ne.symm hc)]
    exact ih hs

/-- The characters behind the start of a line are kept. -/
theorem substitute_keep {s : Text} (hs : '\n' ∉ s) (r : Text) :
    substitute find new 0 false (s ++ r) =
      (s ++ (substitute find new 0 false r).1, (substitute find new 0 false r).2) := by
  induction s with
  | nil => rfl
  | cons c s ih =>
    obtain ⟨hc, hs⟩ := not_or.1 (mt List.mem_cons.2 hs)
    rw [List.cons_append, substitute, beq_false_of_ne (Ne.symm hc)]
    simp only [Bool.false_eq_true, if_false, ih hs, List.cons_append]

/-- A line up to its end, at the end of the text or before a line feed. -/
theorem substitute_front (h : OfLine find Found.length) {line : Text} (hline : '\n' ∉ line)
    {r : Text} (hr : r = [] ∨ ∃ t, r = '\n' :: t) :
    substitute find new 0 true (line ++ r) =
      (rewriteLine find new line ++ (substitute find new 0 false r).1,
        (if (find line).isSome then 1 else 0) + (substitute find new 0 false r).2) := by
  have hstop : find (line ++ r) = find line := by
    rcases hr with rfl | ⟨t, rfl⟩
    · rw [List.append_nil]
    · exact h.stops line t hline
  cases line with
  | nil =>
    have hnone : find [] = none := by
      cases hf : find [] with
      | none => rfl
      | some f =>
        have hlength := h.whole [] f hline hf
        simp [Found.length] at hlength
    rw [List.nil_append, hnone] at hstop
    rcases hr with rfl | ⟨t, rfl⟩
    · simp [substitute, rewriteLine, hnone]
    · rw [List.nil_append, substitute, rewriteLine, if_pos rfl, hstop, hnone, substitute_lineFeed]
      simp
  | cons c line =>
    obtain ⟨hc, hline'⟩ := not_or.1 (mt List.mem_cons.2 hline)
    rw [List.cons_append] at hstop ⊢
    rw [substitute, rewriteLine, if_pos rfl, hstop, beq_false_of_ne (Ne.symm hc)]
    cases hf : find (c :: line) with
    | none => simp [substitute_keep hline']
    | some f =>
      have hlength : f.length - 1 = line.length := by
        rw [h.whole _ f hline hf]
        rfl
      simp only [hlength, substitute_skip hline', Option.isSome_some, if_true, Nat.add_comm]

theorem substitute_line (h : OfLine find Found.length) {line : Text} (hline : '\n' ∉ line)
    (r : Text) :
    substitute find new 0 true (line ++ '\n' :: r) =
      (rewriteLine find new line ++ '\n' :: (substitute find new 0 true r).1,
        (if (find line).isSome then 1 else 0) + (substitute find new 0 true r).2) :=
  substitute_front h hline (Or.inr ⟨r, rfl⟩)

/-- The last line of a text. -/
theorem substitute_last (h : OfLine find Found.length) {line : Text} (hline : '\n' ∉ line) :
    substitute find new 0 true line =
      (rewriteLine find new line, if (find line).isSome then 1 else 0) := by
  have hfront : substitute find new 0 true (line ++ []) = _ := substitute_front h hline (Or.inl rfl)
  rwa [List.append_nil, substitute, List.append_nil, Nat.add_zero] at hfront

/-- The texts before and behind a line feed are rewritten apart from each other. -/
theorem substitute_append (h : OfLine find Found.length) (a b : Text) :
    substitute find new 0 true (a ++ '\n' :: b) =
      ((substitute find new 0 true a).1 ++ '\n' :: (substitute find new 0 true b).1,
        (substitute find new 0 true a).2 + (substitute find new 0 true b).2) := by
  induction a using Text.segment_induction '\n' with
  | last line hline => rw [substitute_line h hline, substitute_last h hline]
  | more line a hline ih =>
    rw [List.append_assoc, List.cons_append, substitute_line h hline, substitute_line h hline, ih]
    simp only [List.append_assoc, List.cons_append, Nat.add_assoc]

/-- **A text is rewritten line by line.** -/
theorem substitute_lines (h : OfLine find Found.length) {lines : List Text}
    (hlines : ∀ line ∈ lines, '\n' ∉ line) (r : Text) :
    (substitute find new 0 true (lines.flatMap (· ++ ['\n']) ++ r)).1 =
      (lines.map (rewriteLine find new)).flatMap (· ++ ['\n']) ++
        (substitute find new 0 true r).1 := by
  induction lines with
  | nil => rfl
  | cons line lines ih =>
    obtain ⟨hline, hlines⟩ := List.forall_mem_cons.1 hlines
    rw [List.flatMap_cons, List.append_assoc, List.append_assoc, List.singleton_append,
      substitute_line h hline, ih hlines]
    simp

end LayeredConfig.Rewrite
