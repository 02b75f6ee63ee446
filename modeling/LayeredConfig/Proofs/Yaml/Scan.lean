import Mathlib.Data.List.TakeWhile
import LayeredConfig.Proofs.Yaml.Plain

/-!
# Plain scalars on a line

On its line a plain scalar goes on up to a comment behind a blank, up to a colon before a blank, or
to the end. This is said here by a scan of the line, character by character. The reader takes one
word after the other and looks for further ones on the lines below; on the last line of a text it
finds the same.
-/
namespace LayeredConfig.Yaml

open Outcome

/-- What may stand behind the last line of a text. -/
def IsEnding (e : Text) : Prop := e = [] ∨ e = ['\n']

theorem gapAhead_ending {e : Text} (he : IsEnding e) (r : Text) :
    gapAhead (r ++ e) = gapAhead r := by
  cases r with
  | nil => rcases he with rfl | rfl <;> rfl
  | cons x r => rfl

theorem gapAhead_blanks {b : Text} (hb : ∀ x ∈ b, isSpaceOrTab x = true) (hne : b ≠ []) (r : Text) :
    gapAhead (b ++ r) = true := by
  cases b with
  | nil => exact absurd rfl hne
  | cons x b => simp [gapAhead, hb x List.mem_cons_self]

/-- No gap is ahead of a word. -/
theorem gapAhead_word {w : Text} (hw : ∀ c ∈ w, isPlainChar c = true) (hne : w ≠ []) (r : Text) :
    gapAhead (w ++ r) = false := by
  cases w with
  | nil => exact absurd rfl hne
  | cons x w =>
    obtain ⟨hblank, hbreak⟩ := isPlainChar_not_blank (hw x List.mem_cons_self)
    simp [gapAhead, hblank, hbreak]

/-- Blanks on the first line of a gap are kept. -/
theorem Gap.read_run (i fuel : Nat) {s : Text} (hs : ∀ x ∈ s, isSpaceOrTab x = true) {g : Gap}
    (hg : g.broken = false) (r : Text) (line column : Nat) :
    read i (fuel + s.length) g ⟨s ++ r, line, column⟩ =
      read i fuel { g with blanks := g.blanks ++ s } ⟨r, line, column + s.length⟩ := by
  induction s generalizing g column with
  | nil => simp
  | cons x s ih =>
    obtain ⟨hx, hs⟩ := List.forall_mem_cons.1 hs
    have hbreak : isBreak x = false := by
      simp only [isSpaceOrTab, Bool.or_eq_true, beq_iff_eq] at hx
      rcases hx with rfl | rfl <;> rfl
    rw [List.cons_append, List.length_cons, ← Nat.add_assoc, read]
    simp only [hx, hg, if_true, Bool.false_eq_true, if_false, Cursor.next_cons hbreak]
    rw [ih hs rfl]
    simp [Nat.add_comm, Nat.add_left_comm]

namespace Plain

/-- What of a line belongs to a plain scalar, with the blanks `b` before it if there is more of it,
and what is left. -/
def scan : (b : Text) → Text → Text × Text
  | b, [] => ([], b)
  | b, x :: r =>
    if isSpaceOrTab x then scan (b ++ [x]) r
    else if x = '#' ∧ b ≠ [] then ([], b ++ x :: r)
    else if x = ':' ∧ gapAhead r = true then ([], b ++ x :: r)
    else (b ++ x :: (scan [] r).1, (scan [] r).2)

/-- What is left of a line behind a plain scalar and the blanks after it. -/
def left (b s : Text) : Text := (scan b s).2.dropWhile isSpaceOrTab

theorem scan_blanks (b : Text) {s : Text} (hs : ∀ x ∈ s, isSpaceOrTab x = true) (r : Text) :
    scan b (s ++ r) = scan (b ++ s) r := by
  induction s generalizing b with
  | nil => simp
  | cons x s ih =>
    obtain ⟨hx, hs⟩ := List.forall_mem_cons.1 hs
    rw [List.cons_append, scan, if_pos hx, ih _ hs, List.append_assoc, List.singleton_append]

/-- A character that a plain scalar goes on with. -/
theorem scan_cons {b : Text} {x : Char} {r : Text} (hx : isSpaceOrTab x = false)
    (hmark : ¬ (x = '#' ∧ b ≠ [])) (hcolon : ¬ (x = ':' ∧ gapAhead r = true)) :
    scan b (x :: r) = (b ++ x :: (scan [] r).1, (scan [] r).2) := by
  rw [scan, if_neg (by simp [hx]), if_neg hmark, if_neg hcolon]

theorem scan_comment {b : Text} (hb : b ≠ []) (r : Text) :
    scan b ('#' :: r) = ([], b ++ '#' :: r) := by
  rw [scan, if_neg (by decide), if_pos ⟨rfl, hb⟩]

theorem scan_colon (b : Text) {r : Text} (hr : gapAhead r = true) :
    scan b (':' :: r) = ([], b ++ ':' :: r) := by
  rw [scan, if_neg (by decide), if_neg (by simp), if_pos ⟨rfl, hr⟩]

/-- The scan only cuts. -/
theorem scan_append (b s : Text) : (scan b s).1 ++ (scan b s).2 = b ++ s := by
  induction s generalizing b with
  | nil => simp [scan]
  | cons x s ih =>
    rw [scan]
    split
    · rw [ih, List.append_assoc, List.singleton_append]
    · split
      · rfl
      · split
        · rfl
        · simpa using ih []

theorem mem_of_mem_left {s : Text} {x : Char} (hx : x ∈ left [] s) : x ∈ s := by
  have hscan := scan_append [] s
  rw [List.nil_append] at hscan
  rw [← hscan]
  exact List.mem_append_right _ ((List.dropWhile_suffix isSpaceOrTab).subset hx)

theorem dropWhile_blanks {b r : Text} (hb : ∀ x ∈ b, isSpaceOrTab x = true)
    (hr : ∀ x ∈ r.head?, isSpaceOrTab x = false) : (b ++ r).dropWhile isSpaceOrTab = r := by
  rw [List.dropWhile_append_of_pos hb]
  cases r with
  | nil => rfl
  | cons x r => simp [hr x rfl]

theorem left_nil {b : Text} (hb : ∀ x ∈ b, isSpaceOrTab x = true) : left b [] = [] := by
  rw [left, scan, List.dropWhile_eq_nil_iff.2 hb]

theorem left_blank (b : Text) {x : Char} (hx : isSpaceOrTab x = true) (s : Text) :
    left b (x :: s) = left (b ++ [x]) s := by
  rw [left, left, scan, if_pos hx]

theorem left_cons {b : Text} {x : Char} {r : Text} (hx : isSpaceOrTab x = false)
    (hmark : ¬ (x = '#' ∧ b ≠ [])) (hcolon : ¬ (x = ':' ∧ gapAhead r = true)) :
    left b (x :: r) = left [] r := by
  rw [left, left, scan_cons hx hmark hcolon]

/-- Where a scalar ends before the end of the line. -/
def Ends (b : Text) (x : Char) (r : Text) : Prop := x = '#' ∧ b ≠ [] ∨ x = ':' ∧ gapAhead r = true

theorem left_ends {b : Text} (hb : ∀ x ∈ b, isSpaceOrTab x = true) {x : Char} {r : Text}
    (h : Ends b x r) : left b (x :: r) = x :: r := by
  have hblank : ∀ y ∈ (x :: r).head?, isSpaceOrTab y = false := by
    rintro y ⟨⟩
    rcases h with ⟨rfl, -⟩ | ⟨rfl, -⟩ <;> rfl
  rcases h with ⟨rfl, hmark⟩ | ⟨rfl, hcolon⟩
  · rw [left, scan_comment hmark, dropWhile_blanks hb hblank]
  · rw [left, scan_colon b hcolon, dropWhile_blanks hb hblank]

/-- What is left is nothing, or it begins where a scalar ends. -/
theorem left_cases {b : Text} (hb : ∀ x ∈ b, isSpaceOrTab x = true) (s : Text) :
    left b s = [] ∨ ∃ b' x r, left b s = x :: r ∧ Ends b' x r ∧ (x :: r).length ≤ s.length := by
  induction s generalizing b with
  | nil => exact Or.inl (left_nil hb)
  | cons x s ih =>
    have hlater : ∀ {b' : Text}, (∀ x ∈ b', isSpaceOrTab x = true) → left b (x :: s) = left b' s →
        left b (x :: s) = [] ∨
          ∃ b' y r, left b (x :: s) = y :: r ∧ Ends b' y r ∧ (y :: r).length ≤ (x :: s).length := by
      intro b' hb' heq
      rw [heq]
      refine (ih hb').imp_right ?_
      rintro ⟨b'', y, r, hleft, hends, hle⟩
      exact ⟨b'', y, r, hleft, hends, hle.trans (Nat.le_succ _)⟩
    cases hx : isSpaceOrTab x with
    | true => exact hlater (List.forall_mem_append.2 ⟨hb, by simpa using hx⟩) (left_blank b hx s)
    | false =>
      by_cases hends : Ends b x s
      · exact Or.inr ⟨b, x, s, left_ends hb hends, hends, Nat.le_refl _⟩
      · obtain ⟨hmark, hcolon⟩ := not_or.1 hends
        exact hlater (List.forall_mem_nil _) (left_cons hx hmark hcolon)

theorem length_left_le {b : Text} (hb : ∀ x ∈ b, isSpaceOrTab x = true) (s : Text) :
    (left b s).length ≤ s.length := by
  rcases left_cases hb s with heq | ⟨b', x, r, heq, -, hle⟩
  · simp [heq]
  · rwa [heq]

/-- A word of plain characters belongs to the scalar. -/
theorem scan_word {b w : Text} (hw : ∀ c ∈ w, isPlainChar c = true) (hb : w = [] → b = [])
    (r : Text) :
    scan b (w ++ r) = (b ++ w ++ (scan [] r).1, (scan [] r).2) := by
  induction w generalizing b with
  | nil => simp [hb rfl]
  | cons x w ih =>
    obtain ⟨hx, hw⟩ := List.forall_mem_cons.1 hw
    have hmark : x ≠ '#' := by
      rintro rfl
      exact absurd hx (by decide)
    have hcolon : x ≠ ':' := by
      rintro rfl
      exact absurd hx (by decide)
    rw [List.cons_append,
      scan_cons (isPlainChar_not_blank hx).1 (fun h => hmark h.1) (fun h => hcolon h.1),
      ih hw (fun _ => rfl)]
    simp

theorem left_word {b w : Text} (hw : ∀ c ∈ w, isPlainChar c = true) (hb : w = [] → b = [])
    (r : Text) :
    left b (w ++ r) = left [] r := by
  rw [left, left, scan_word hw hb]

variable {e : Text}

/-- The reader's next word, in terms of the scan. -/
theorem run_line (he : IsEnding e) {b : Text} (hb : ∀ x ∈ b, isSpaceOrTab x = true) {s : Text}
    (hs : ∀ x ∈ s, isBreak x = false) (hblank : ∀ x ∈ s.head?, isSpaceOrTab x = false)
    (hmark : s.head? = some '#' → b = []) :
    ∃ w r, s = w ++ r ∧ run false (s ++ e) = .ok w ∧
      (r = [] ∨ (∃ x r', r = x :: r' ∧ isSpaceOrTab x = true) ∨
        ∃ r', r = ':' :: r' ∧ gapAhead r' = true) ∧
      (scan b s).1 = (if w = [] then [] else b ++ w) ++ (scan [] r).1 ∧ left b s = left [] r := by
  induction s generalizing b with
  | nil =>
    refine ⟨[], [], rfl, ?_, Or.inl rfl, rfl, (left_nil hb).trans (left_nil (by simp)).symm⟩
    rcases he with rfl | rfl <;> rfl
  | cons x s ih =>
    obtain ⟨hx, hs⟩ := List.forall_mem_cons.1 hs
    have hxb : isSpaceOrTab x = false := hblank x rfl
    by_cases hcolon : x = ':' ∧ gapAhead s = true
    · obtain ⟨rfl, hgap⟩ := hcolon
      refine ⟨[], ':' :: s, rfl, ?_, Or.inr (Or.inr ⟨s, rfl, hgap⟩), ?_, ?_⟩
      · simp [run, isSpaceOrTab, isBreak, gapAhead_ending he, hgap]
      · rw [scan_colon b hgap, scan_colon [] hgap]
        rfl
      · rw [left_ends hb (Or.inr ⟨rfl, hgap⟩),
          left_ends (List.forall_mem_nil _) (Or.inr ⟨rfl, hgap⟩)]
    have hrun : run false (x :: s ++ e) = (run false (s ++ e)).map (x :: ·) := by
      rw [List.cons_append, run, gapAhead_ending he]
      have hcolon : (x == ':' && gapAhead s) = false := by simpa using hcolon
      simp [hxb, hx, hcolon]
    have hscan : scan b (x :: s) = (b ++ x :: (scan [] s).1, (scan [] s).2) :=
      scan_cons hxb (fun h => h.2 (hmark (by simp [h.1]))) hcolon
    have hleft : left b (x :: s) = left [] s :=
      left_cons hxb (fun h => h.2 (hmark (by simp [h.1]))) hcolon
    by_cases hnext : ∃ y s', s = y :: s' ∧ isSpaceOrTab y = true
    · obtain ⟨y, s', rfl, hy⟩ := hnext
      refine ⟨[x], y :: s', rfl, ?_, Or.inr (Or.inl ⟨y, s', rfl, hy⟩), by simp [hscan], hleft⟩
      rw [hrun, List.cons_append, run]
      simp [hy, Except.map]
    · have hhead : ∀ y ∈ s.head?, isSpaceOrTab y = false := by
        intro y hy
        obtain ⟨s', rfl⟩ := List.head?_eq_some_iff.1 hy
        exact Bool.eq_false_iff.2 fun hyb => hnext ⟨y, s', rfl, hyb⟩
      obtain ⟨w, r, rfl, hw, hr, hrest, hleft'⟩ := ih (List.forall_mem_nil _) hs hhead fun _ => rfl
      refine ⟨x :: w, r, rfl, by rw [hrun, hw]; rfl, hr, ?_, hleft.trans hleft'⟩
      rw [hscan, if_neg (List.cons_ne_nil _ _)]
      by_cases hw : w = [] <;> simp [hrest, hw]

/-- Where the reader stops: at what is left of the line, or behind the end of the line if nothing
is. -/
def stop (e rest : Text) (line column : Nat) : Bool × Cursor :=
  if rest = [] ∧ e ≠ [] then (true, ⟨[], line + 1, 0⟩) else (false, ⟨rest ++ e, line, column⟩)

/-- A gap on the last line, read from a place where a blank stands or the line ends. -/
theorem read_gap (he : IsEnding e) (i : Nat) {b r : Text} (hb : ∀ x ∈ b, isSpaceOrTab x = true)
    (hr : ∀ x ∈ r.head?, isSpaceOrTab x = false ∧ isBreak x = false) (line column : Nat) :
    ∃ g, Gap.read i ((b ++ r ++ e).length + 1) .empty ⟨b ++ r ++ e, line, column⟩ =
        .ok (g, (stop e r line (column + b.length)).2) ∧
      g.broken = (stop e r line (column + b.length)).1 ∧ (g.broken = false → g.text = b) := by
  have hfuel : (b ++ r ++ e).length + 1 = (r ++ e).length + 1 + b.length := by
    simp only [List.length_append]
    omega
  rw [hfuel, List.append_assoc, Gap.read_run i _ hb rfl]
  by_cases hend : r = [] ∧ e ≠ []
  · obtain ⟨rfl, hne⟩ := hend
    obtain rfl := he.resolve_left hne
    refine ⟨⟨[], true, ['\n'], []⟩, ?_, by simp [stop], by simp⟩
    simp [Gap.read, Gap.empty, isSpaceOrTab, isBreak, Cursor.next, stop]
  · have hstop : ∀ x ∈ (r ++ e).head?, isSpaceOrTab x = false ∧ isBreak x = false := by
      cases r with
      | nil => simp [show e = [] by simpa using hend]
      | cons x r => exact hr
    refine ⟨⟨b, false, [], []⟩, ?_, by simp [stop, hend], by simp [Gap.text]⟩
    rw [Gap.read_stop _ _ _ hstop, stop, if_neg hend]
    rfl

/-- **On the last line the reader finds what the scan does.** -/
theorem parts_scan (he : IsEnding e) {i : Nat} (hi : 0 < i) (fuel : Nat) {s : Text}
    (hfuel : s.length < fuel) (hs : ∀ x ∈ s, isBreak x = false)
    (hblank : ∀ x ∈ s.head?, isSpaceOrTab x = false) {gap : Gap} (hgap : gap.broken = false)
    (hb : ∀ x ∈ gap.text, isSpaceOrTab x = true) (hmark : s.head? = some '#' → gap.text ≠ [])
    (out : Text) (line : Nat) {column : Nat} (hcolumn : i ≤ column) :
    parts false i fuel out gap ⟨s ++ e, line, column⟩ =
      .ok (out ++ (scan gap.text s).1, stop e (left gap.text s) line
        (column + (s.length - (left gap.text s).length))) := by
  induction fuel generalizing s gap out column with
  | zero => exact absurd hfuel (Nat.not_lt_zero _)
  | succ fuel ih =>
    have hne : column ≠ 0 := by omega
    have hmarker : (⟨s ++ e, line, column⟩ : Cursor).atMarker = false := by
      simp [Cursor.atMarker, hne]
    by_cases hhash : s.head? = some '#'
    · obtain ⟨r, rfl⟩ := List.head?_eq_some_iff.1 hhash
      rw [scan_comment (hmark rfl), left_ends hb (Or.inl ⟨rfl, hmark rfl⟩)]
      simp [parts, Cursor.peek, hgap, stop]
    obtain ⟨w, r, rfl, hrun, hr, hscan, hleft⟩ := run_line he hb hs hblank fun h => absurd h hhash
    obtain ⟨hw, hbreak⟩ := List.forall_mem_append.1 hs
    have hpeek : (w ++ (r ++ e)).head? ≠ some '#' := by
      rw [← List.append_assoc]
      cases hwr : w ++ r with
      | nil => rcases he with rfl | rfl <;> simp
      | cons x t => simpa [hwr] using hhash
    have hout : (if w = [] then out else out ++ gap.text ++ w) ++ (scan [] r).1 =
        out ++ (scan gap.text (w ++ r)).1 := by
      rw [hscan]
      split <;> simp
    rw [List.append_assoc] at hrun hmarker ⊢
    rw [parts_step hw hrun i fuel out gap hmarker hpeek, hleft, ← hout]
    generalize (if w = [] then out else out ++ gap.text ++ w) = next
    dsimp only
    split
    · next hgo =>
      -- Behind the gap: the end of the line, or a place from which a further word is looked for.
      have hblanks : ∀ x ∈ r.takeWhile isSpaceOrTab, isSpaceOrTab x = true :=
        fun x hx => List.all_eq_true.1 List.all_takeWhile x hx
      generalize hb' : r.takeWhile isSpaceOrTab = b' at hblanks
      generalize hs' : r.dropWhile isSpaceOrTab = s'
      have hcut : b' ++ s' = r := by rw [← hb', ← hs', List.takeWhile_append_dropWhile]
      have hhead : ∀ x ∈ s'.head?, isSpaceOrTab x = false ∧ isBreak x = false := by
        intro x hx
        have hnot := List.head?_dropWhile_not isSpaceOrTab r
        rw [hs', hx] at hnot
        exact ⟨hnot, hbreak x (hcut ▸ List.mem_append_right _ (List.mem_of_mem_head? hx))⟩
      have hscan' : scan [] r = scan b' s' := by
        rw [← hcut, scan_blanks [] hblanks, List.nil_append]
      obtain ⟨g, hread, hbroken, htext⟩ := read_gap he i hblanks hhead line (column + w.length)
      rw [hcut] at hread
      rw [hread, ok_bind, left, hscan', ← left]
      by_cases hend : s' = [] ∧ e ≠ []
      · rw [stop, if_pos hend] at hbroken ⊢
        rw [if_pos hi, hbroken, hend.1, left_nil hblanks, stop, if_pos ⟨rfl, hend.2⟩, scan,
          List.append_nil]
      · rw [stop, if_neg hend] at hbroken ⊢
        have htext := htext hbroken
        have hsome : b' ≠ [] := by
          rintro rfl
          rw [List.nil_append] at hcut
          subst hcut
          cases s' with
          | nil => exact hend ⟨rfl, hgo.1⟩
          | cons x t =>
            obtain ⟨hx, hx'⟩ := hhead x rfl
            simp [gapAhead, hx, hx'] at hgo
        have hshorter : s'.length < fuel := by
          have hpos := List.length_pos_iff.2 hsome
          rw [← hcut, List.length_append, List.length_append] at hfuel
          omega
        have hlength : column + w.length + b'.length + (s'.length - (left b' s').length) =
            column + ((w ++ r).length - (left b' s').length) := by
          have hle := length_left_le hblanks s'
          rw [← hcut, List.length_append, List.length_append]
          omega
        rw [if_neg (show ¬ column + w.length + b'.length < i by omega),
          ih hshorter (fun x hx => hbreak x (hcut ▸ List.mem_append_right _ hx))
            (fun x hx => (hhead x hx).1) hbroken (htext ▸ hblanks) (fun _ => htext ▸ hsome) next
            (by omega), htext, hlength]
    · next hgo =>
      have hstop : scan [] r = ([], r) ∧ left [] r = r ∧ ¬ (r = [] ∧ e ≠ []) := by
        rcases hr with rfl | ⟨x, r', rfl, hx⟩ | ⟨r', rfl, hr'⟩
        · refine ⟨rfl, rfl, fun h => hgo ⟨by simpa using h.2, ?_⟩⟩
          rw [gapAhead_ending he]
          rfl
        · exact absurd ⟨by simp, by simp [gapAhead, hx]⟩ hgo
        · rw [left, scan_colon [] hr']
          exact ⟨rfl, rfl, by simp⟩
      rw [hstop.2.1, hstop.1, stop, if_neg hstop.2.2, hgap, Bool.and_false, List.append_nil,
        List.length_append, Nat.add_sub_cancel]

/-- A plain scalar on the last line. -/
theorem read_scan (he : IsEnding e) {parent : Int} (hparent : 0 ≤ parent) {s : Text}
    (hs : ∀ x ∈ s, isBreak x = false)
    (hhead : ∀ x ∈ s.head?, isSpaceOrTab x = false ∧ x ≠ '#') (line : Nat) {column : Nat}
    (hcolumn : parent < column) :
    read false parent ⟨s ++ e, line, column⟩ =
      .ok ((scan [] s).1, stop e (left [] s) line (column + (s.length - (left [] s).length))) := by
  have hfuel : s.length < (s ++ e).length + 1 := by
    rw [List.length_append]
    omega
  exact parts_scan he (show 0 < (parent + 1).toNat by omega) _ hfuel hs (fun x hx => (hhead x hx).1)
    (show Gap.empty.broken = false from rfl) (by simp [Gap.empty, Gap.text])
    (fun h => absurd rfl (hhead _ h).2) [] line (by omega)

end Plain
end LayeredConfig.Yaml
