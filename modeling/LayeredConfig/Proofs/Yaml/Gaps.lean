import LayeredConfig.Yaml.Token.Lexer

/-!
# Gaps between tokens

What stands between two tokens on different lines: the end of the first line, lines that hold at
most a comment, and the indentation of the next token. The lexer skips it in one go, or in two where
a plain scalar has read the first part of it while it looked for a further line of its own.
-/
namespace LayeredConfig.Yaml

/-- A character that ends a line, also one that is written as a line feed before reading. -/
def endsLine (c : Char) : Bool := isBreak c || c == '\r' || c == '\u0085'

/-- What may stand on a line behind its last token: blanks and perhaps a comment. -/
def IsFiller (s : Text) : Prop :=
  ∃ n comment, s = List.replicate n ' ' ++ comment ∧ (comment = [] ∨ comment.head? = some '#') ∧
    ∀ x ∈ comment, endsLine x = false

theorem isFiller_nil : IsFiller [] := ⟨0, [], rfl, Or.inl rfl, by simp⟩

/-- The ends of lines with their fillers, and the indentation of the line after them. -/
def margin (fillers : List Text) (indent : Nat) : Text :=
  fillers.flatMap (· ++ ['\n']) ++ List.replicate indent ' '

/-- Whether no gap goes on in a text: a token stands there, or it is the end. -/
def IsSettled (s : Text) : Prop :=
  ∀ x ∈ s.head?, isSpaceOrTab x = false ∧ isBreak x = false ∧ x ≠ '#' ∧ x ≠ '\ufeff'

theorem isBreak_of_endsLine {c : Char} (h : endsLine c = false) : isBreak c = false := by
  simp only [endsLine, Bool.or_eq_false_iff] at h
  exact h.1.1

theorem IsFiller.unbroken {s : Text} (h : IsFiller s) : ∀ x ∈ s, endsLine x = false := by
  obtain ⟨n, comment, rfl, -, hcomment⟩ := h
  refine List.forall_mem_append.2 ⟨?_, hcomment⟩
  intro x hx
  rw [List.eq_of_mem_replicate hx]
  rfl

theorem margin_nil (k : Nat) : margin [] k = List.replicate k ' ' := rfl

theorem margin_cons (s : Text) (ts : List Text) (k : Nat) :
    margin (s :: ts) k = s ++ '\n' :: margin ts k := by
  simp [margin]

theorem length_margin (ts : List Text) (k : Nat) : ts.length ≤ (margin ts k).length := by
  induction ts with
  | nil => exact Nat.zero_le _
  | cons s ts ih =>
    rw [margin_cons]
    simp only [List.length_append, List.length_cons]
    omega

namespace Cursor

/-- A run of characters of a class ends where the class does. -/
theorem skipRun_append {p : Char → Bool} {s r : Text} (hs : ∀ x ∈ s, p x = true)
    (hr : ∀ x ∈ r.head?, p x = false) (line column : Nat) :
    (⟨s ++ r, line, column⟩ : Cursor).skipRun p = ⟨r, line, column + s.length⟩ := by
  have hrun : (s ++ r).takeWhile p = s := by
    rw [List.takeWhile_append_of_pos hs]
    cases r with
    | nil => simp
    | cons x r => simp [hr x rfl]
  simp only [skipRun, takeRun, hrun, List.drop_left]

theorem next_cons {x : Char} (hx : isBreak x = false) (r : Text) (line column : Nat) :
    (⟨x :: r, line, column⟩ : Cursor).next = ⟨r, line, column + 1⟩ := by
  simp [next, hx]

theorem next_lineFeed (r : Text) (line column : Nat) :
    (⟨'\n' :: r, line, column⟩ : Cursor).next = ⟨r, line + 1, 0⟩ := rfl

end Cursor

namespace Lexer

theorem inFlow_cursor (l : Lexer) (c : Cursor) : { l with cursor := c }.inFlow = l.inFlow := rfl

/-- A mark of the byte order stands at the start of no gap. -/
theorem head?_blanks_ne {n : Nat} {r : Text} (hr : r.head? ≠ some '\ufeff') :
    (List.replicate n ' ' ++ r).head? ≠ some '\ufeff' := by
  cases n with
  | zero => simpa using hr
  | succ n => simp [List.replicate_succ]

/-- Blanks before a comment, a line feed or a token are skipped whether or not tabs would be. -/
theorem skipRun_blanks (tabs : Bool) {n : Nat} {r : Text}
    (hr : ∀ x ∈ r.head?, isSpaceOrTab x = false) (line column : Nat) :
    (⟨List.replicate n ' ' ++ r, line, column⟩ : Cursor).skipRun
        (fun x => x == ' ' || (tabs && x == '\t')) = ⟨r, line, column + n⟩ := by
  rw [Cursor.skipRun_append, List.length_replicate]
  · intro x hx
    simp [(List.mem_replicate.1 hx).2]
  · intro x hx
    have hblank := hr x hx
    simp only [isSpaceOrTab, Bool.or_eq_false_iff] at hblank
    simp [hblank]

/-- Whether a character is white space that is skipped: a tab only where no key may begin. -/
def skips (l : Lexer) (x : Char) : Bool := x == ' ' || ((l.inFlow || ¬ l.keyAllowed) && x == '\t')

/-- White space on a line is skipped up to a character that is none. -/
theorem skipGap_run (l : Lexer) {s r : Text} (hs : ∀ x ∈ s, l.skips x = true)
    (hr : ∀ x ∈ r.head?, l.skips x = false ∧ isBreak x = false ∧ x ≠ '#' ∧ x ≠ '\ufeff')
    (line column fuel : Nat) :
    skipGap (fuel + 1) { l with cursor := ⟨s ++ r, line, column⟩ } =
      { l with cursor := ⟨r, line, column + s.length⟩ } := by
  have hhead : (s ++ r).head? ≠ some '\ufeff' := by
    cases s with
    | nil => exact fun h => (hr _ h).2.2.2 rfl
    | cons x s =>
      rintro ⟨⟩
      have hbom := hs '\ufeff' List.mem_cons_self
      simp [skips] at hbom
  have hbom : ¬ (column = 0 ∧ line = 0 ∧
      (⟨s ++ r, line, column⟩ : Cursor).peek = some '\ufeff') := fun h => hhead h.2.2
  have hmark : ¬ (⟨r, line, column + s.length⟩ : Cursor).peek = some '#' :=
    fun h => (hr _ h).2.2.1 rfl
  have hbreak : (⟨r, line, column + s.length⟩ : Cursor).atBreak = false := by
    cases r with
    | nil => rfl
    | cons x r => exact (hr x rfl).2.1
  have hrun : (⟨s ++ r, line, column⟩ : Cursor).skipRun
      (fun x => x == ' ' || ((l.inFlow || ¬ l.keyAllowed) && x == '\t')) =
        ⟨r, line, column + s.length⟩ :=
    Cursor.skipRun_append hs (fun x hx => (hr x hx).1) line column
  rw [skipGap]
  simp only [if_neg hbom, inFlow_cursor, hrun, if_neg hmark, hbreak, Bool.false_eq_true, if_false]

theorem not_skips {l : Lexer} {x : Char} (hx : isSpaceOrTab x = false) : l.skips x = false := by
  simp only [isSpaceOrTab, Bool.or_eq_false_iff] at hx
  simp [skips, hx]

theorem skipGap_blanks (l : Lexer) {n : Nat} {r : Text} (hr : IsSettled r)
    (line column fuel : Nat) :
    skipGap (fuel + 1) { l with cursor := ⟨List.replicate n ' ' ++ r, line, column⟩ } =
      { l with cursor := ⟨r, line, column + n⟩ } := by
  have hblanks : ∀ x ∈ List.replicate n ' ', l.skips x = true := by
    intro x hx
    rw [List.eq_of_mem_replicate hx]
    rfl
  have hrun :=
    skipGap_run l hblanks (fun x hx => ⟨not_skips (hr x hx).1, (hr x hx).2⟩) line column fuel
  rwa [List.length_replicate] at hrun

/-- The rest of a line is skipped with its end. -/
theorem skipGap_filler (l : Lexer) (hflow : l.inFlow = false) {s r : Text} (hs : IsFiller s)
    (line column fuel : Nat) :
    skipGap (fuel + 1) { l with cursor := ⟨s ++ '\n' :: r, line, column⟩ } =
      skipGap fuel { l with cursor := ⟨r, line + 1, 0⟩, keyAllowed := true } := by
  obtain ⟨n, comment, rfl, hmark, hbreak⟩ := hs
  rw [List.append_assoc]
  have hhead : ∀ x ∈ (comment ++ '\n' :: r).head?, isSpaceOrTab x = false ∧ x ≠ '\ufeff' := by
    rcases hmark with rfl | hmark
    · simp [isSpaceOrTab]
    · cases comment with
      | nil => cases hmark
      | cons y comment =>
        cases hmark
        simp [isSpaceOrTab]
  have hbom : ¬ (column = 0 ∧ line = 0 ∧
      (⟨List.replicate n ' ' ++ (comment ++ '\n' :: r), line, column⟩ : Cursor).peek =
        some '\ufeff') :=
    fun h => head?_blanks_ne (fun hb => (hhead _ hb).2 rfl) h.2.2
  have hcomment : (if (⟨comment ++ '\n' :: r, line, column + n⟩ : Cursor).peek = some '#' then
        (⟨comment ++ '\n' :: r, line, column + n⟩ : Cursor).skipRun (fun x => !isBreak x)
      else ⟨comment ++ '\n' :: r, line, column + n⟩) =
      ⟨'\n' :: r, line, column + n + comment.length⟩ := by
    rcases hmark with rfl | hmark
    · rfl
    · rw [if_pos (by simp [Cursor.peek, hmark]), Cursor.skipRun_append]
      · intro x hx
        simp [isBreak_of_endsLine (hbreak x hx)]
      · simp [isBreak]
  rw [skipGap]
  simp only [if_neg hbom, skipRun_blanks _ fun x hx => (hhead x hx).1, hcomment, inFlow_cursor,
    hflow, Cursor.next_lineFeed]
  simp [Cursor.atBreak, isBreak]

/-- A gap is skipped up to the token behind it, where a key may begin if it stands on a new line. -/
theorem skipGap_margin {l : Lexer} (hflow : l.inFlow = false) {ts : List Text}
    (hts : ∀ s ∈ ts, IsFiller s) {k : Nat} {r : Text} (hr : IsSettled r)
    (line column fuel : Nat) (hfuel : ts.length < fuel) :
    skipGap fuel { l with cursor := ⟨margin ts k ++ r, line, column⟩ } =
      { l with
        cursor := ⟨r, line + ts.length, if ts = [] then column + k else k⟩
        keyAllowed := l.keyAllowed || ts ≠ [] } := by
  induction ts generalizing l line column fuel with
  | nil =>
    obtain ⟨fuel, rfl⟩ := Nat.exists_eq_succ_of_ne_zero (Nat.ne_of_gt hfuel)
    rw [margin_nil, skipGap_blanks l hr]
    simp
  | cons s ts ih =>
    obtain ⟨hs, hts⟩ := List.forall_mem_cons.1 hts
    obtain ⟨fuel, rfl⟩ := Nat.exists_eq_succ_of_ne_zero (Nat.ne_of_gt (Nat.zero_lt_of_lt hfuel))
    rw [margin_cons, List.append_assoc, List.cons_append, skipGap_filler l hflow hs]
    have hrest := ih (l := { l with keyAllowed := true }) hflow hts (line + 1) 0 fuel
      (by simpa using hfuel)
    rw [hrest]
    have hline : line + 1 + ts.length = line + (s :: ts).length := by
      simp only [List.length_cons]
      omega
    simp [hline]

end Lexer

namespace Gap

/-- A gap ends where neither a blank nor a line break stands. -/
theorem read_stop (i fuel : Nat) (g : Gap) {r : Text}
    (hr : ∀ x ∈ r.head?, isSpaceOrTab x = false ∧ isBreak x = false) (line column : Nat) :
    read i fuel g ⟨r, line, column⟩ = .ok (g, ⟨r, line, column⟩) := by
  cases fuel with
  | zero => rfl
  | succ fuel =>
    cases r with
    | nil => rfl
    | cons x r =>
      obtain ⟨hblank, hbreak⟩ := hr x rfl
      simp [read, hblank, hbreak]

theorem read_settled (i fuel : Nat) (g : Gap) {r : Text} (hr : IsSettled r) (line column : Nat) :
    read i fuel g ⟨r, line, column⟩ = .ok (g, ⟨r, line, column⟩) :=
  read_stop i fuel g (fun x hx => ⟨(hr x hx).1, (hr x hx).2.1⟩) line column

theorem read_comment (i fuel : Nat) (g : Gap) (r : Text) (line column : Nat) :
    read i fuel g ⟨'#' :: r, line, column⟩ = .ok (g, ⟨'#' :: r, line, column⟩) :=
  read_stop i fuel g (by rintro x ⟨⟩; decide) line column

/-- Blanks are kept on the first line and dropped on the others. -/
theorem read_blanks (i fuel n : Nat) (g : Gap) (r : Text) (line column : Nat) : ∃ g',
    read i (fuel + n) g ⟨List.replicate n ' ' ++ r, line, column⟩ =
        read i fuel g' ⟨r, line, column + n⟩ ∧
      g'.broken = g.broken := by
  induction n generalizing g column with
  | zero => exact ⟨g, rfl, rfl⟩
  | succ n ih =>
    rw [List.replicate_succ, List.cons_append, ← Nat.add_assoc, read]
    simp only [isSpaceOrTab, beq_self_eq_true, Bool.true_or, if_true,
      Cursor.next_cons (show isBreak ' ' = false from rfl)]
    have hcolumn : column + (n + 1) = column + 1 + n := by omega
    rw [hcolumn]
    split
    · rw [if_neg (by simp)]
      exact ih g (column + 1)
    · exact ih { g with blanks := g.blanks ++ [' '] } (column + 1)

theorem read_lineFeed (i fuel : Nat) (g : Gap) (r : Text) (line column : Nat) : ∃ g',
    read i (fuel + 1) g ⟨'\n' :: r, line, column⟩ = read i fuel g' ⟨r, line + 1, 0⟩ ∧
      g'.broken = true := by
  have hblank : isSpaceOrTab '\n' = false := rfl
  have hbreak : isBreak '\n' = true := rfl
  rw [read]
  simp only [hblank, hbreak, Bool.false_eq_true, if_false, if_true, Cursor.next_lineFeed]
  split
  · exact ⟨_, rfl, by assumption⟩
  · exact ⟨_, rfl, rfl⟩

/-- What is left of a gap when the white space at its start has been read: all from a comment on, or
nothing. -/
theorem read_margin (i : Nat) {ts : List Text} (hts : ∀ s ∈ ts, IsFiller s) (k : Nat) {r : Text}
    (hr : IsSettled r) (g : Gap) (line column fuel : Nat)
    (hfuel : (margin ts k).length ≤ fuel) : ∃ g' us j line' column',
    read i fuel g ⟨margin ts k ++ r, line, column⟩ =
        .ok (g', ⟨margin us j ++ r, line', column'⟩) ∧
      line ≤ line' ∧ line' + us.length = line + ts.length ∧ (∀ s ∈ us, IsFiller s) ∧
      g'.broken = (g.broken || line < line') ∧
      ((us = [] ∧ j = 0 ∧ column' = if ts = [] then column + k else k) ∨
        (∃ s us', us = ('#' :: s) :: us') ∧ j = k) := by
  induction ts generalizing g line column fuel with
  | nil =>
    rw [margin_nil, List.length_replicate] at hfuel
    obtain ⟨fuel, rfl⟩ := Nat.exists_eq_add_of_le' hfuel
    obtain ⟨g', hread, hbroken⟩ := read_blanks i fuel k g r line column
    refine ⟨g', [], 0, line, column + k, ?_, Nat.le_refl _, rfl, by simp, by simp [hbroken],
      Or.inl (by simp)⟩
    rw [margin_nil, hread, read_settled i fuel g' hr]
    rfl
  | cons s ts ih =>
    obtain ⟨hs, hts'⟩ := List.forall_mem_cons.1 hts
    obtain ⟨n, comment, rfl, hmark, hbreak⟩ := hs
    rw [margin_cons, List.append_assoc, List.append_assoc, List.cons_append]
    simp only [margin_cons, List.length_append, List.length_replicate, List.length_cons] at hfuel
    obtain ⟨fuel, rfl⟩ := Nat.exists_eq_add_of_le' (show n ≤ fuel by omega)
    obtain ⟨g₁, hread, hbroken⟩ :=
      read_blanks i fuel n g (comment ++ '\n' :: (margin ts k ++ r)) line column
    rw [hread]
    rcases hmark with rfl | hmark
    · obtain ⟨fuel, rfl⟩ := Nat.exists_eq_add_of_le' (show 1 ≤ fuel by omega)
      obtain ⟨g₂, hfeed, hbroken₂⟩ := read_lineFeed i fuel g₁ (margin ts k ++ r) line (column + n)
      obtain ⟨g', us, j, line', column', hrest, hle, hlines, hus, hb, hend⟩ :=
        ih hts' g₂ (line + 1) 0 fuel (by omega)
      refine ⟨g', us, j, line', column', ?_, by omega, ?_, hus, ?_, ?_⟩
      · rw [List.nil_append, hfeed, hrest]
      · rw [List.length_cons]
        omega
      · have hlater : line < line' := by omega
        simp [hb, hbroken₂, hlater]
      · rcases hend with ⟨hnil, hj, hcolumn⟩ | hend
        · refine Or.inl ⟨hnil, hj, ?_⟩
          rw [hcolumn]
          simp
        · exact Or.inr hend
    · obtain ⟨comment, rfl⟩ : ∃ s, comment = '#' :: s := by
        cases comment with
        | nil => cases hmark
        | cons x comment =>
          cases hmark
          exact ⟨comment, rfl⟩
      refine ⟨g₁, ('#' :: comment) :: ts, k, line, column + n, ?_, Nat.le_refl _, rfl, ?_, ?_, ?_⟩
      · rw [List.cons_append, read_comment, margin_cons, List.append_assoc, List.cons_append,
          List.cons_append]
      · exact List.forall_mem_cons.2 ⟨⟨0, _, rfl, Or.inr rfl, hbreak⟩, hts'⟩
      · simp [hbroken]
      · exact Or.inr ⟨⟨comment, ts, rfl⟩, rfl⟩

end Gap
end LayeredConfig.Yaml
