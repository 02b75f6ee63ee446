import LayeredConfig.Proofs.Yaml.Local.Text
import LayeredConfig.Yaml.Token.Block

/-!
# Block scalars are read locally

The header, the empty lines and the lines of a block scalar. It ends in front of a line that is
indented too little, so that a closing bracket behind it has not been looked at.
-/
namespace LayeredConfig.Yaml.Block

open Outcome

/-- The signs of a header are seen in the characters that they take and the one behind them. -/
theorem signs_split (r : Text) : ∃ u t, r = u ++ t ∧ u.length = (signs r).2.2 ∧
    ∀ w, Alike t w → signs (u ++ w) = signs r := by
  cases r with
  | nil => exact ⟨[], [], rfl, rfl, fun w hw => absurd hw Alike.not_nil⟩
  | cons a r =>
    have hone : (signs (a :: r)).2.2 = 1 → ∃ u t, a :: r = u ++ t ∧
        u.length = (signs (a :: r)).2.2 ∧
        ∀ w, Alike t w → signs (u ++ w) = signs (a :: r) := fun hcount =>
      ⟨[a], r, rfl, hcount.symm,
        fun w hw => by rw [List.singleton_append, signs, signs, hw.head?_eq]⟩
    have htwo : r.head? ≠ none → (signs (a :: r)).2.2 = 2 → ∃ u t, a :: r = u ++ t ∧
        u.length = (signs (a :: r)).2.2 ∧ ∀ w, Alike t w → signs (u ++ w) = signs (a :: r) := by
      intro hr hcount
      cases r with
      | nil => exact absurd rfl hr
      | cons b r => exact ⟨[a, b], r, rfl, hcount.symm, fun w _ => rfl⟩
    cases hchomping : chomping? a with
    | some chomping =>
      cases hnext : r.head?.bind digit? with
      | some d =>
        exact htwo (by rintro hnil; simp [hnil] at hnext) (by simp [signs, hchomping, hnext])
      | none => exact hone (by simp [signs, hchomping, hnext])
    | none =>
      cases hdigit : digit? a with
      | some d =>
        cases hnext : r.head?.bind chomping? with
        | some chomping =>
          exact htwo (by rintro hnil; simp [hnil] at hnext)
            (by simp [signs, hchomping, hdigit, hnext])
        | none => exact hone (by simp [signs, hchomping, hdigit, hnext])
      | none =>
        refine ⟨[], a :: r, rfl, by simp [signs, hchomping, hdigit], fun w hw => ?_⟩
        obtain ⟨w, rfl, -⟩ := hw.cases
        simp [signs, hchomping, hdigit]

/-- What follows the signs of a header. -/
def headerEnd (h : Header) (c : Cursor) : Except Fault (Header × Cursor) :=
  if c.atEnd || c.atBreak then .ok (h, c.next) else .error .lexical

theorem takes_headerEnd {h h' : Header} {c c' : Cursor} (hend : headerEnd h c = .ok (h', c')) :
    Takes (fun _ => headerEnd h) c (h', ·) c' := by
  rw [headerEnd] at hend
  split at hend
  · next hline =>
    cases hend
    refine (Cursor.goes_next c).conclude fun w w₁ fuel hw _ hfuel hnext => ?_
    rw [headerEnd, Cursor.atEnd_onto hw, Cursor.atBreak_onto hw, if_pos hline,
      Except.ok.inj (hnext _ hfuel)]
    rfl
  · cases hend

/-- What follows the indicator of a block scalar. -/
def headerBody (literal : Bool) (c : Cursor) : Except Fault (Header × Cursor) :=
  if (signs c.rest).2.1 = some 0 then .error .lexical
  else headerEnd ⟨literal, (signs c.rest).1, (signs c.rest).2.1⟩
    ((c.skip (signs c.rest).2.2).skipRun isSpaceOrTab).skipComment

theorem header_eq (c : Cursor) : header c = headerBody (c.peek = some '|') c.next := by
  rw [header]
  rfl

theorem takes_headerBody {literal : Bool} {h : Header} {c c' : Cursor}
    (hbody : headerBody literal c = .ok (h, c')) :
    Takes (fun _ => headerBody literal) c (h, ·) c' := by
  rw [headerBody] at hbody
  split at hbody
  · cases hbody
  next hdigit =>
  obtain ⟨u, t, hrest, hu, hsigns⟩ := signs_split c.rest
  rw [← hu] at hbody
  have hway := (Cursor.goes_skipRun isSpaceOrTab (c.skip u.length)).comp (Cursor.goes_skipComment _)
  have hrun : Takes (fun _ c => headerEnd ⟨literal, _, _⟩ (c.skipRun isSpaceOrTab).skipComment)
      (c.skip u.length) (h, ·) c' := hway.before (takes_headerEnd hbody) fun _ _ => rfl
  refine .split hrest hrun fun w fuel hw hfuel => ?_
  refine ⟨w.length + 1, Nat.lt_succ_self _, ?_⟩
  rw [headerBody, Cursor.onto_rest, hsigns w hw, if_neg hdigit, ← hu, Cursor.skip_onto hrest]

theorem takes_header {h : Header} {c c' : Cursor} (hheader : header c = .ok (h, c')) :
    Takes (fun _ => header) c (h, ·) c' := by
  rw [header_eq] at hheader
  refine (Cursor.goes_next c).bind (takes_headerBody hheader)
    fun w w₁ fuel hw _ hfuel hlen hnext => ?_
  refine ⟨fuel, ?_, ?_⟩
  · have hle := (Cursor.goes_next c).length_le
    omega
  · rw [header_eq, Cursor.peek_onto hw, Except.ok.inj (hnext _ hfuel)]
    rfl

/-- Whether a line may still be indented further. -/
def opensFurther (indent : Option Nat) (column : Nat) : Bool :=
  match indent with
  | none => true
  | some n => column < n

theorem emptyLines_succ (indent : Option Nat) (n widest : Nat) (out : Text) {c : Cursor} {x : Char}
    {r : Text} (hc : c.rest = x :: r) : emptyLines indent (n + 1) widest out c =
      if x = ' ' then
        if opensFurther indent c.column then
          emptyLines indent n (max widest (c.column + 1)) out c.next
        else .ok (widest, out, c)
      else if x = '\t' then
        if opensFurther indent c.column then .error .lexical else .ok (widest, out, c)
      else if isBreak x then emptyLines indent n widest (out ++ [x]) c.next
      else .ok (widest, out, c) := by
  rw [emptyLines.eq_def]
  simp only [hc]
  split
  · next heq =>
    cases heq
    rfl
  · next heq =>
    cases heq
    rfl
  · next hblank htab heq =>
    cases heq
    rw [if_neg hblank, if_neg htab]
  · next heq => cases heq

theorem takes_emptyLines {indent : Option Nat} {n widest widest' : Nat} {out out' : Text}
    {c c' : Cursor}
    (hn : c.rest.length < n) (h : emptyLines indent n widest out c = .ok (widest', out', c')) :
    Takes (fun fuel => emptyLines indent fuel widest out) c (widest', out', ·) c' := by
  induction n generalizing widest out c with
  | zero => cases hn
  | succ n ih =>
    cases hc : c.rest with
    | nil =>
      rw [emptyLines.eq_def] at h
      simp only [hc] at h
      cases h
      exact .stop fun w fuel hw => absurd (hc ▸ hw) Alike.not_nil
    | cons x r =>
      have hnext : c.next.rest.length < n := by
        rw [hc] at hn
        rw [Cursor.next_rest hc]
        exact Nat.lt_of_succ_lt_succ hn
      have hstep : ∀ {widest₁ out₁}, emptyLines indent n widest₁ out₁ c.next =
          .ok (widest', out', c') →
          (∀ fuel c₁ w, c₁.rest = x :: w → c₁.column = c.column →
            emptyLines indent (fuel + 1) widest out c₁ =
              emptyLines indent fuel widest₁ out₁ c₁.next) →
          Takes (fun fuel => emptyLines indent fuel widest out) c (widest', out', ·) c' := by
        intro widest₁ out₁ h heq
        refine (ih hnext h).next hc fun w fuel _ => ?_
        rw [heq fuel (c.onto (x :: w)) w rfl rfl, Cursor.next_onto hc]
      have hstop : (∀ fuel c₁ w, c₁.rest = x :: w → c₁.column = c.column →
            emptyLines indent (fuel + 1) widest out c₁ = .ok (widest, out, c₁)) →
          Takes (fun fuel => emptyLines indent fuel widest out) c (widest, out, ·) c := by
        intro heq
        refine .stop fun w fuel hw => ?_
        obtain ⟨w, rfl, -⟩ := (hc ▸ hw).cases
        exact heq fuel (c.onto (x :: w)) w rfl rfl
      rw [emptyLines_succ _ _ _ _ hc] at h
      split at h
      · next hblank =>
        split at h
        · next hopens =>
          exact hstep h fun fuel c₁ w hc₁ hcolumn => by
            rw [emptyLines_succ _ _ _ _ hc₁, if_pos hblank, hcolumn, if_pos hopens]
        · next hopens =>
          cases h
          exact hstop fun fuel c₁ w hc₁ hcolumn => by
            rw [emptyLines_succ _ _ _ _ hc₁, if_pos hblank, hcolumn, if_neg hopens]
      next hblank =>
      split at h
      · next htab =>
        split at h
        · cases h
        · next hopens =>
          cases h
          exact hstop fun fuel c₁ w hc₁ hcolumn => by
            rw [emptyLines_succ _ _ _ _ hc₁, if_neg hblank, if_pos htab, hcolumn, if_neg hopens]
      next htab =>
      split at h
      · next hbreak =>
        exact hstep h fun fuel c₁ w hc₁ _ => by
          rw [emptyLines_succ _ _ _ _ hc₁, if_neg hblank, if_neg htab, if_pos hbreak]
      · next hbreak =>
        cases h
        exact hstop fun fuel c₁ w hc₁ _ => by
          rw [emptyLines_succ _ _ _ _ hc₁, if_neg hblank, if_neg htab, if_neg hbreak]

/-- What is read of one line: the text of it, its line break and the line breaks below it. -/
def bodyLine (indent : Nat) (c : Cursor) : Except Fault ((Text × Text × Text) × Cursor) :=
  emptyLines (some indent) ((c.takeRun fun x => !isBreak x).2.next.rest.length + 1) 0 []
      (c.takeRun fun x => !isBreak x).2.next >>= fun p =>
    .ok (((c.takeRun fun x => !isBreak x).1, (c.takeRun fun x => !isBreak x).2.rest.take 1, p.2.1),
      p.2.2)

/-- The lines with a further one. -/
def Lines.add (literal : Bool) (l : Lines) (blank : Bool) (line : Text × Text × Text) : Lines :=
  let joint :=
    if ¬ literal ∧ l.lead = ['\n'] ∧ ¬ l.blankLine ∧ ¬ blank then
      if l.more.isEmpty then [' '] else l.more
    else l.lead ++ l.more
  ⟨l.out ++ joint ++ line.1, line.2.1, line.2.2, blank⟩

theorem body_succ (literal : Bool) (indent n : Nat) (l : Lines) (c : Cursor) :
    body literal indent (n + 1) l c =
      if c.column = indent ∧ ¬ c.atEnd then
        bodyLine indent c >>= fun p =>
          body literal indent n (l.add literal (c.peek.any isSpaceOrTab) p.1) p.2
      else .ok (l, c) := by
  rw [body]
  split
  · rw [bodyLine]
    generalize c.takeRun (fun x => !isBreak x) = p
    obtain ⟨line, c₁⟩ := p
    simp only
    cases emptyLines (some indent) (c₁.next.rest.length + 1) 0 [] c₁.next <;> rfl
  · rfl

/-- The text of a line with its line break, and where the next line begins. -/
def lineEnd (c : Cursor) : (Text × Text) × Cursor :=
  (((c.takeRun fun x => !isBreak x).1, (c.takeRun fun x => !isBreak x).2.rest.take 1),
    (c.takeRun fun x => !isBreak x).2.next)

theorem bodyLine_eq (indent : Nat) (c : Cursor) : bodyLine indent c =
    (emptyLines (some indent) ((lineEnd c).2.rest.length + 1) 0 [] (lineEnd c).2).map fun p =>
      (((lineEnd c).1.1, (lineEnd c).1.2, p.2.1), p.2.2) := by
  rw [bodyLine, lineEnd]
  cases emptyLines (some indent) _ 0 [] (c.takeRun fun x => !isBreak x).2.next <;> rfl

theorem takes_lineEnd (c : Cursor) :
    Takes (fun _ c => .ok (lineEnd c)) c ((lineEnd c).1, ·) (lineEnd c).2 := by
  refine (Cursor.takes_takeRun (fun x => !isBreak x) c).bind
    ((Cursor.goes_next _).map ((lineEnd c).1, ·))
    fun w w₁ fuel hw hw₁ hfuel hlen hrun => ⟨w₁.length + 1, Nat.lt_succ_self _, ?_⟩
  rw [lineEnd, Except.ok.inj (hrun _ hfuel), Cursor.onto_rest, hw₁.take_one]
  rfl

theorem takes_bodyLine {indent : Nat} {line : Text × Text × Text} {c c' : Cursor}
    (h : bodyLine indent c = .ok (line, c')) : Takes (fun _ => bodyLine indent) c (line, ·) c' := by
  rw [bodyLine_eq] at h
  obtain ⟨⟨widest, more, c₁⟩, hlines, heq⟩ := map_eq_ok.1 h
  cases heq
  have hempty := (takes_emptyLines (Nat.lt_succ_self _) hlines).map fun p =>
    (((lineEnd c).1.1, (lineEnd c).1.2, p.2.1), p.2.2)
  refine (takes_lineEnd c).bind hempty fun w w₁ fuel hw hw₁ hfuel hlen hend => ?_
  refine ⟨w₁.length + 1, Nat.lt_succ_self _, ?_⟩
  rw [bodyLine_eq, Except.ok.inj (hend _ hfuel)]
  rfl

/-- A line takes a character: a line break if nothing else. -/
theorem length_bodyLine_lt {indent : Nat} {line : Text × Text × Text} {c c' : Cursor}
    (hend : c.atEnd = false)
    (h : bodyLine indent c = .ok (line, c')) : c'.rest.length < c.rest.length := by
  rw [bodyLine_eq] at h
  obtain ⟨⟨widest, more, c₁⟩, hlines, heq⟩ := map_eq_ok.1 h
  cases heq
  refine Nat.lt_of_le_of_lt (takes_emptyLines (Nat.lt_succ_self _) hlines).length_le ?_
  cases hc : c.rest with
  | nil => simp [Cursor.atEnd, hc] at hend
  | cons x r =>
    rw [lineEnd]
    by_cases hx : isBreak x = true
    · have hrest : (c.takeRun fun x => !isBreak x).2.rest = x :: r := by
        simp [Cursor.takeRun, hc, hx]
      rw [Cursor.next_rest hrest]
      exact Nat.lt_succ_self _
    · have hrest : (c.takeRun fun x => !isBreak x).2.rest.length ≤ r.length := by
        simp [Cursor.takeRun, hc, hx]
      exact Nat.lt_succ_of_le (Nat.le_trans (Cursor.goes_next _).length_le hrest)

theorem takes_body {literal : Bool} {indent n : Nat} {l l' : Lines} {c c' : Cursor}
    (hn : c.rest.length < n) (h : body literal indent n l c = .ok (l', c')) :
    Takes (fun fuel => body literal indent fuel l) c (l', ·) c' := by
  induction n generalizing l c with
  | zero => cases hn
  | succ n ih =>
    rw [body_succ] at h
    split at h
    · next hgoes =>
      obtain ⟨⟨line, c₁⟩, hline, h⟩ := bind_eq_ok.1 h
      have hlt := length_bodyLine_lt (by simpa using hgoes.2) hline
      refine (takes_bodyLine hline).bind (ih (by omega) h)
        fun w w₁ fuel hw hw₁ hfuel hlen hread => ?_
      obtain ⟨fuel, rfl⟩ : ∃ n, fuel = n + 1 := ⟨fuel - 1, by omega⟩
      refine ⟨fuel, by omega, ?_⟩
      rw [body_succ, Cursor.onto_column, Cursor.atEnd_onto hw, Cursor.peek_onto hw, if_pos hgoes,
        hread _ (Nat.lt_succ_self _), ok_bind]
    · next hstop =>
      cases h
      exact .stop fun w fuel hw => by
        rw [body_succ, Cursor.onto_column, Cursor.atEnd_onto hw, if_neg hstop]

/-- The column of the lines of a scalar, if its header tells it. -/
def Header.known (h : Header) (parent : Int) : Option Nat :=
  h.digit.map fun d => if 0 ≤ parent then parent.toNat + d else d

/-- The text of a scalar by what its header says of the line breaks at the end. -/
def Lines.chomped (l : Lines) (h : Header) : Text :=
  match h.chomping with
  | .strip => l.out
  | .clip => l.out ++ l.lead
  | .keep => l.out ++ l.lead ++ l.more

def readLines (parent : Int) (h : Header) (p : Nat × Text) (c : Cursor) :
    Except Fault (Text × Cursor) :=
  (body h.literal ((h.known parent).getD (max p.1 (max (parent + 1).toNat 1))) (c.rest.length + 1)
    ⟨[], [], p.2, false⟩ c).map fun q => (q.1.chomped h, q.2)

def readEmpty (parent : Int) (h : Header) (c : Cursor) : Except Fault ((Nat × Text) × Cursor) :=
  (emptyLines (h.known parent) (c.rest.length + 1) 0 [] c).map fun p => ((p.1, p.2.1), p.2.2)

theorem read_eq (parent : Int) (c : Cursor) : read parent c =
    header c >>= fun p => readEmpty parent p.1 p.2 >>= fun q => readLines parent p.1 q.1 q.2 := by
  rw [read]
  cases header c with
  | error f => rfl
  | ok p =>
    obtain ⟨h, c⟩ := p
    simp only [ok_bind]
    rw [readEmpty, Header.known]
    cases emptyLines (h.digit.map fun d => if 0 ≤ parent then parent.toNat + d else d)
      (c.rest.length + 1) 0 [] c with
    | error f => rfl
    | ok q =>
      obtain ⟨widest, more, c⟩ := q
      simp only [ok_bind, Except.map]
      rw [readLines, Header.known]
      cases body h.literal ((h.digit.map fun d => if 0 ≤ parent then parent.toNat + d else d).getD
        (max widest (max (parent + 1).toNat 1))) (c.rest.length + 1) ⟨[], [], more, false⟩ c with
      | error f => rfl
      | ok r => cases hc : h.chomping <;> simp [Lines.chomped, hc, ok_bind, Except.map]

theorem takes_readEmpty {parent : Int} {h : Header} {p : Nat × Text} {c c' : Cursor}
    (hread : readEmpty parent h c = .ok (p, c')) :
    Takes (fun _ => readEmpty parent h) c (p, ·) c' := by
  obtain ⟨⟨widest, more, c₁⟩, hempty, heq⟩ := map_eq_ok.1 hread
  cases heq
  exact ((takes_emptyLines (Nat.lt_succ_self _) hempty).map fun p => ((p.1, p.2.1), p.2.2)).fueled
    fun w _ => ⟨w.length + 1, Nat.lt_succ_self _, rfl⟩

theorem takes_readLines {parent : Int} {h : Header} {p : Nat × Text} {s : Text} {c c' : Cursor}
    (hlines : readLines parent h p c = .ok (s, c')) :
    Takes (fun _ => readLines parent h p) c (s, ·) c' := by
  obtain ⟨⟨l, c₁⟩, hbody, heq⟩ := map_eq_ok.1 hlines
  cases heq
  exact ((takes_body (Nat.lt_succ_self _) hbody).map fun q => (q.1.chomped h, q.2)).fueled
    fun w _ => ⟨w.length + 1, Nat.lt_succ_self _, rfl⟩

theorem takes_read {parent : Int} {s : Text} {c c' : Cursor} (h : read parent c = .ok (s, c')) :
    Takes (fun _ => read parent) c (s, ·) c' := by
  rw [read_eq] at h
  obtain ⟨⟨hd, c₁⟩, hheader, h⟩ := bind_eq_ok.1 h
  obtain ⟨⟨p, c₂⟩, hempty, h⟩ := bind_eq_ok.1 h
  exact ((takes_header hheader).andThen (g := fun h c => readEmpty parent h c >>= fun q =>
    readLines parent h q.1 q.2) ((takes_readEmpty hempty).andThen (takes_readLines h))).congr
      fun w _ _ => read_eq parent _

theorem length_read_le {parent : Int} {s : Text} {c c' : Cursor} (h : read parent c = .ok (s, c')) :
    c'.rest.length ≤ c.next.rest.length := by
  rw [read_eq] at h
  obtain ⟨⟨hd, c₁⟩, hheader, h⟩ := bind_eq_ok.1 h
  obtain ⟨⟨p, c₂⟩, hempty, h⟩ := bind_eq_ok.1 h
  rw [header_eq] at hheader
  exact Nat.le_trans (takes_readLines h).length_le
    (Nat.le_trans (takes_readEmpty hempty).length_le (takes_headerBody hheader).length_le)

end LayeredConfig.Yaml.Block
