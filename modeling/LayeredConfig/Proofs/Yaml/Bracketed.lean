import LayeredConfig.Proofs.Yaml.Blockless
import LayeredConfig.Proofs.Yaml.Trail

/-!
# Where a collection in brackets ends

If the tokens of a text end in a closing bracket, with at most marks for the end of the document
behind it, the text is cut at the bracket that was read last: the part up to it has these tokens by
itself, and only a trail follows.
-/
namespace LayeredConfig.Yaml

open Outcome

/-- The two pairs of brackets. -/
inductive Brackets where
  | square
  | curly

namespace Brackets

def opening : Brackets → Char
  | square => '['
  | curly => '\x7b'

def closing : Brackets → Char
  | square => ']'
  | curly => '\x7d'

def first : Brackets → Token
  | square => .flowSequenceStart
  | curly => .flowMappingStart

def last : Brackets → Token
  | square => .flowSequenceEnd
  | curly => .flowMappingEnd

variable {b : Brackets}

theorem inFlow_first (b : Brackets) : b.first.inFlow = true := by cases b <;> rfl

theorem inFlow_last (b : Brackets) : b.last.inFlow = true := by cases b <;> rfl

theorem opening_ne_closing (b : Brackets) : b.opening ≠ b.closing := by cases b <;> decide

theorem isClosing_closing (b : Brackets) : isClosing b.closing = true := by cases b <;> rfl

/-- A lexeme that leaves a closing bracket on top has read it. -/
theorem read_eq_closeFlow {k : Lexer.Lexeme} (hk : k.Tops b.last) (l : Lexer) :
    k.read l = l.closeFlow b.last := by
  cases b with
  | square =>
    obtain rfl := hk.sequence rfl
    rfl
  | curly =>
    obtain rfl := hk.mapping rfl
    rfl

theorem eq_closing {k : Lexer.Lexeme} (hk : k.Tops b.last) {l : Lexer} {x : Char} {r : Text}
    (hx : l.lexemeAt? x r = some k) : x = b.closing := by
  cases b with
  | square =>
    obtain rfl := hk.sequence rfl
    exact Lexer.lexeme?_closeSequence hx
  | curly =>
    obtain rfl := hk.mapping rfl
    exact Lexer.lexeme?_closeMapping hx

end Brackets

namespace Lexer

variable {A ends : List Token} {b : Brackets} {l l₁ l₂ : Lexer}

/-- The bracket has been read, and only marks have been found since. -/
def Ended (A : List Token) (b : Brackets) (l : Lexer) : Prop :=
  ∃ marks, (∀ t ∈ marks, t = .documentEnd) ∧ l.tokens = marks ++ b.last :: A.reverse ∧
    (¬ l.cursor.AtStart → IsNormal l.cursor.rest → l.cursor.Trails)

/-- The bracket is still to be read, and the part of the text up to it has its tokens by itself. -/
def Coming (A : List Token) (b : Brackets) (l : Lexer) : Prop :=
  (∀ t ∈ l.tokens, t.inFlow = true) ∧ ∃ used tail, l.cursor.rest = used ++ b.closing :: tail ∧
    (IsNormal l.cursor.rest → Trail false tail) ∧
    ∀ fuel, (used ++ [b.closing]).length < fuel → run fuel (l.onto (used ++ [b.closing])) =
      .ok (A ++ [b.last])

/-- No block has ended where the last tokens are marks and a bracket. -/
theorem eq_of_ends {T marks : List Token} {n : Nat} (hmarks : ∀ t ∈ marks, t = .documentEnd)
    (h : List.replicate n .blockEnd ++ T = marks ++ b.last :: A.reverse) :
    T = marks ++ b.last :: A.reverse := by
  cases n with
  | zero => exact h
  | succ n =>
    rw [List.replicate_succ, List.cons_append] at h
    cases marks with
    | nil =>
      obtain ⟨hend, -⟩ := List.cons.inj h
      cases b <;> cases hend
    | cons m marks =>
      obtain ⟨hm, -⟩ := List.forall_mem_cons.1 hmarks
      obtain ⟨rfl, -⟩ := List.cons.inj h
      cases hm

theorem ended_of_settle {marks : List Token} (hmarks : ∀ t ∈ marks, t = .documentEnd)
    (hsettle : l.settle = .ok l₁) (htokens : l₁.tokens = marks ++ b.last :: A.reverse)
    (htrails : IsNormal l₁.cursor.rest → l₁.cursor.Trails) : Ended A b l := by
  obtain ⟨n, hn⟩ := tokens_settle hsettle
  refine ⟨marks, hmarks, eq_of_ends hmarks (hn.symm.trans htokens), fun hstart hnormal => ?_⟩
  obtain ⟨used, hused, -⟩ := steps_settle hsettle
  refine trails_settle hstart hnormal hsettle (htrails fun y hy => hnormal y ?_)
  rw [hused]
  exact List.mem_append_right _ hy

/-- At the end of the text. -/
theorem ended_of_outside (hends : ∀ t ∈ ends, t = .documentEnd) (hsettle : l.settle = .ok l₁)
    (hrest : l₁.cursor.rest = [])
    (hout : l₁.outside = .ok l₂) (htokens : l₂.tokens.reverse = A ++ b.last :: ends) :
    Ended A b l := by
  have hmarks : ∀ t ∈ ends.reverse, t = .documentEnd := fun t ht => hends t (List.mem_reverse.1 ht)
  obtain ⟨n, hn⟩ := tokens_outside hout
  have hlast : l₂.tokens = ends.reverse ++ b.last :: A.reverse := by
    rw [← List.reverse_inj, htokens]
    simp
  refine ended_of_settle hmarks hsettle (eq_of_ends hmarks (hn.symm.trans hlast)) fun _ => ?_
  rw [Cursor.Trails, hrest]
  exact .nil _

theorem markerAhead_cases {s : Text} {y : Char} {r : Text} (hs : s = y :: r)
    (h : markerAhead s = true)
    (hy : y ≠ '-') : ∃ t, s = '.' :: '.' :: '.' :: t ∧ gapAhead t = true := by
  rw [markerAhead.eq_def] at h
  split at h
  · next t =>
    cases hs
    exact absurd rfl hy
  · next t => exact ⟨t, rfl, h⟩
  · cases h

theorem mark_of_ahead {t : Text} (h : gapAhead t = true) (hbehind : Trail false t) :
    Trail true ('.' :: '.' :: '.' :: t) := by
  refine .mark (fun z hz => ?_) hbehind
  obtain ⟨r, rfl⟩ := List.head?_eq_some_iff.1 hz
  rw [gapAhead, Bool.or_eq_true] at h
  rw [Bool.or_eq_true]
  exact h.imp_right endsLine_of_isBreak

theorem eq_of_marker {t : Token} (h : l.marker t = .ok l₂) : l₂.cursor = l.cursor.skip 3 ∧
    ∃ n, l₂.tokens = t :: (List.replicate n .blockEnd ++ l.tokens) := by
  obtain ⟨l₁, hout, h⟩ := bind_eq_ok.1 h
  cases h
  obtain ⟨n, hn⟩ := tokens_outside hout
  exact ⟨congrArg (Cursor.skip 3) (cursor_outside hout), n, congrArg (t :: ·) hn⟩

/-- A mark for the end of the document. -/
theorem ended_of_marker {marks : List Token} (hmarks : ∀ t ∈ marks, t = .documentEnd)
    (hsettle : l.settle = .ok l₁) {y : Char} {r : Text} (hrest : l₁.cursor.rest = y :: r)
    (hy : y ≠ '-') (hat : l₁.cursor.atMarker = true) (hread : l₁.marker .documentEnd = .ok l₂)
    (htokens : l₂.tokens = .documentEnd :: (marks ++ b.last :: A.reverse))
    (htrails : ¬ l₂.cursor.AtStart → IsNormal l₂.cursor.rest → l₂.cursor.Trails) : Ended A b l := by
  obtain ⟨hcursor, n, hn⟩ := eq_of_marker hread
  have hfound := (List.cons.inj (hn.symm.trans htokens)).2
  refine ended_of_settle hmarks hsettle (eq_of_ends hmarks hfound) fun hnormal => ?_
  rw [Cursor.atMarker_eq, Bool.and_eq_true, decide_eq_true_eq] at hat
  obtain ⟨hcolumn, hahead⟩ := hat
  obtain ⟨t, ht, hgap⟩ := markerAhead_cases hrest hahead hy
  have hbehind : l₂.cursor = ⟨t, l₁.cursor.line, 3⟩ := by
    rw [hcursor]
    generalize l₁.cursor = place at ht hcolumn
    obtain ⟨rest, line, column⟩ := place
    cases ht
    cases hcolumn
    rfl
  rw [Cursor.Trails, hcolumn, ht]
  rw [hbehind] at htrails
  refine mark_of_ahead hgap (htrails (fun hstart => ?_) fun z hz => hnormal z ?_)
  · cases hstart.2
  · exact ht ▸ List.mem_cons_of_mem _ (List.mem_cons_of_mem _ (List.mem_cons_of_mem _ hz))

theorem closeFlow_onto {y : Char} {r : Text} (hrest : l.cursor.rest = y :: r) (t : Token)
    (w : Text) :
    (l.onto (y :: w)).closeFlow t = (l.closeFlow t).map (·.onto w) := by
  rw [closeFlow, closeFlow, keeps_dropCandidate]
  cases hdrop : l.dropCandidate with
  | error e => rfl
  | ok l₁ =>
    have hnext : (l₁.cursor.onto (y :: w)).next = l₁.cursor.next.onto w :=
      Cursor.next_onto ((keeps_dropCandidate.rest hdrop).trans hrest) w
    obtain ⟨cursor, tokens, indent, outer, candidate, candidates, keyAllowed⟩ := l₁
    cases candidates with
    | nil => simp only [ok_bind, Except.map, onto, emit, hnext]
    | cons k rest => simp only [ok_bind, Except.map, onto, emit, hnext]

theorem cursor_closeFlow {t : Token} (h : l.closeFlow t = .ok l₂) : l₂.cursor = l.cursor.next := by
  obtain ⟨l₁, hdrop, h⟩ := bind_eq_ok.1 h
  obtain rfl := eq_of_dropCandidate hdrop
  cases h
  split <;> rfl

/-- Over the gap and the next lexeme, before another text. -/
theorem run_onto {used used' w : Text} {y : Char} {r : Text} {k : Lexeme}
    (hsettle : Steps settle used l l₁)
    (hrest : l₁.cursor.rest = y :: r) (halike : Alike (y :: r) (y :: (used' ++ w)))
    (hk : l₁.lexemeAt? y r = some k)
    (hread : k.read (l₁.onto (y :: (used' ++ w))) = .ok (l₂.onto w)) (fuel : Nat) :
    run (fuel + 1) (l.onto (used ++ y :: (used' ++ w))) = run fuel (l₂.onto w) := by
  have hstart : (l.onto (used ++ y :: (used' ++ w))).settle = .ok (l₁.onto (y :: (used' ++ w))) :=
    hsettle.2 _ (hrest ▸ halike)
  have htoken : (l₁.onto (y :: (used' ++ w))).token y (used' ++ w) = .ok (l₂.onto w) := by
    rw [token_eq, lexemeAt?_onto hrest halike, hk]
    exact hread
  rw [run_succ, hstart, ok_bind, finish]
  show (l₁.onto (y :: (used' ++ w))).token y (used' ++ w) >>= run fuel = _
  rw [htoken, ok_bind]

/-- The bracket itself. -/
theorem coming_of_close (hA : ∀ t ∈ A, t.inFlow = true)
    (hfree : (∀ t ∈ l₂.tokens, t.inFlow = true) → l₂.Blockless) (hsettle : l.settle = .ok l₁)
    {y : Char} {r : Text} (hrest : l₁.cursor.rest = y :: r) {k : Lexeme}
    (hk : l₁.lexemeAt? y r = some k) (htops : k.Tops b.last)
    (hread : k.read l₁ = .ok l₂) (htokens : l₂.tokens = b.last :: A.reverse)
    (hgrown : Grown l.tokens A.reverse)
    (htrails : ¬ l₂.cursor.AtStart → IsNormal l₂.cursor.rest → l₂.cursor.Trails) :
    Coming A b l := by
  obtain rfl := Brackets.eq_closing htops hk
  rw [Brackets.read_eq_closeFlow htops] at hread
  have hfound : ∀ t ∈ A.reverse, t.inFlow = true := fun t ht => hA t (List.mem_reverse.1 ht)
  obtain ⟨used, hsteps⟩ := steps_settle hsettle
  have hused := hsteps.1
  rw [hrest] at hused
  refine ⟨fun t ht => hfound t (hgrown.mem ht), used, r, hused, fun hnormal => ?_,
    fun fuel hfuel => ?_⟩
  · have hbehind : l₂.cursor = ⟨r, l₁.cursor.line, l₁.cursor.column + 1⟩ := by
      rw [cursor_closeFlow hread, Cursor.next, hrest]
      exact if_neg (by cases b <;> decide)
    rw [hbehind] at htrails
    refine htrails (fun hstart => Nat.succ_ne_zero _ hstart.2) fun z hz => hnormal z ?_
    rw [hused]
    exact List.mem_append_right _ (List.mem_cons_of_mem _ hz)
  · have hlast : k.read (l₁.onto (b.closing :: ([] ++ []))) = .ok (l₂.onto []) := by
      rw [Brackets.read_eq_closeFlow htops, List.append_nil, closeFlow_onto hrest, hread]
      rfl
    have hfree₂ : (l₂.onto []).Blockless := by
      refine (hfree ?_).of_eq rfl rfl rfl
      rw [htokens]
      exact List.forall_mem_cons.2 ⟨b.inFlow_last, hfound⟩
    have halike : Alike (b.closing :: r) (b.closing :: ([] ++ [])) :=
      ⟨[], b.closing, r, [], b.isClosing_closing, rfl, rfl⟩
    obtain ⟨fuel, rfl⟩ : ∃ n, fuel = n + 1 + 1 := by
      rw [List.length_append, List.length_singleton] at hfuel
      exact ⟨fuel - 2, by omega⟩
    have hrun := run_onto hsteps hrest halike hk hlast (fuel + 1)
    rw [List.append_nil] at hrun
    rw [hrun, hfree₂.run_nil rfl, onto_tokens, htokens]
    simp

/-- A lexeme before the bracket. -/
theorem coming_of_read (hsettle : l.settle = .ok l₁) {y : Char} {r : Text}
    (hrest : l₁.cursor.rest = y :: r) {k : Lexeme} (hk : l₁.lexemeAt? y r = some k)
    (hread : k.read l₁ = .ok l₂) (hgrown : Grown l.tokens l₂.tokens) (h : Coming A b l₂) :
    Coming A b l := by
  obtain ⟨hflow, used₃, tail, hused₃, htrail, hruns⟩ := h
  obtain ⟨used₁, hsteps⟩ := steps_settle hsettle
  obtain ⟨used₂, hne, hused₂, hreads⟩ := Lexeme.reads hrest hk hread hflow
  obtain ⟨z, used₂, rfl⟩ := List.exists_cons_of_ne_nil hne
  obtain ⟨rfl, rfl⟩ := List.cons.inj (hrest.symm.trans hused₂)
  have hused : l.cursor.rest = (used₁ ++ y :: used₂) ++ l₂.cursor.rest := by
    rw [hsteps.1, hused₂, List.append_assoc]
  refine ⟨fun t ht => hflow t (hgrown.mem ht), (used₁ ++ y :: used₂) ++ used₃, tail,
    by rw [hused, hused₃]; exact (List.append_assoc ..).symm,
    fun hnormal => htrail fun w hw => hnormal w ?_, fun fuel hfuel => ?_⟩
  · rw [hused]
    exact List.mem_append_right _ hw
  · have hlast : Alike l₂.cursor.rest (used₃ ++ [b.closing]) :=
      ⟨used₃, b.closing, tail, [], b.isClosing_closing, hused₃, rfl⟩
    have htext : (used₁ ++ y :: used₂) ++ used₃ ++ [b.closing] =
        used₁ ++ y :: (used₂ ++ (used₃ ++ [b.closing])) := by simp
    rw [htext] at hfuel ⊢
    obtain ⟨fuel, rfl⟩ : ∃ n, fuel = n + 1 := ⟨fuel - 1, by omega⟩
    rw [run_onto hsteps hrest ((hlast.prepend used₂).cons y) hk (hreads _ hlast)]
    simp only [List.length_append, List.length_cons] at hfuel
    exact hruns fuel (by simp only [List.length_append, List.length_cons]; omega)

/-- **Where the last bracket is read.** -/
theorem run_cases (hA : ∀ t ∈ A, t.inFlow = true) (hends : ∀ t ∈ ends, t = .documentEnd)
    {fuel : Nat} (hfree : (∀ t ∈ l.tokens, t.inFlow = true) → l.Blockless)
    (h : run fuel l = .ok (A ++ b.last :: ends)) : Ended A b l ∨ Coming A b l := by
  induction fuel generalizing l with
  | zero => cases h
  | succ fuel ih =>
    rw [run_succ] at h
    obtain ⟨l₁, hsettle, h⟩ := bind_eq_ok.1 h
    rw [finish] at h
    cases hrest : l₁.cursor.rest with
    | nil =>
      rw [hrest] at h
      obtain ⟨l₂, hout, heq⟩ := bind_eq_ok.1 h
      exact Or.inl (ended_of_outside hends hsettle hrest hout (Except.ok.inj heq))
    | cons y r =>
      rw [hrest] at h
      obtain ⟨l₂, htoken, hrun⟩ := bind_eq_ok.1 h
      obtain ⟨k, hk, hread⟩ := token_eq_ok.1 htoken
      obtain ⟨t, htops, hemits⟩ := Lexeme.emits hread
      obtain ⟨n, hn⟩ := tokens_settle hsettle
      have hsettled : Grown l.tokens l₁.tokens := hn ▸ Grown.same.ends n
      have hfree₂ : (∀ t ∈ l₂.tokens, t.inFlow = true) → l₂.Blockless := by
        intro hflow
        have hflow₁ : ∀ t ∈ l₁.tokens, t.inFlow = true := fun t ht => hflow t (hemits.grown.mem ht)
        exact ((hfree fun t ht => hflow₁ t (hsettled.mem ht)).settle hsettle).1.read hread hflow
      rcases ih hfree₂ hrun with ⟨marks, hmarks, htokens, htrails⟩ | hcoming
      · obtain ⟨T, hT, hgrown⟩ := hemits.tokens
        cases marks with
        | nil =>
          obtain ⟨rfl, rfl⟩ := List.cons.inj (hT.symm.trans htokens)
          exact Or.inr (coming_of_close hA hfree₂ hsettle hrest hk htops hread htokens
            (hsettled.trans hgrown) htrails)
        | cons m marks =>
          obtain ⟨rfl, hbefore⟩ := List.forall_mem_cons.1 hmarks
          obtain ⟨rfl, -⟩ := List.cons.inj (hT.symm.trans htokens)
          obtain rfl := htops.document rfl
          obtain ⟨hat, hy⟩ := lexeme?_documentEnd hk
          exact Or.inl (ended_of_marker hbefore hsettle hrest hy hat hread htokens htrails)
      · exact Or.inr (coming_of_read hsettle hrest hk hread (hsettled.trans hemits.grown) hcoming)

end Lexer

open Lexer in
/-- **A text is cut where its last bracket is read.** The part up to the bracket has its tokens by
itself, and a trail follows. -/
theorem tokens_cut {s : Text} {A ends : List Token} {b : Brackets} (hA : ∀ t ∈ A, t.inFlow = true)
    (hends : ∀ t ∈ ends, t = .documentEnd) (h : tokens s = .ok (A ++ b.last :: ends)) :
    ∃ body tail, s = body ++ b.closing :: tail ∧ Trail false tail ∧
      tokens (body ++ [b.closing]) = .ok (A ++ [b.last]) := by
  rw [tokens] at h
  split at h
  · next hallowed =>
    have hfree : (∀ t ∈ (Lexer.start (normalizeBreaks s)).tokens, t.inFlow = true) →
        (Lexer.start (normalizeBreaks s)).Blockless := fun _ => Blockless.start _
    rcases run_cases hA hends hfree h
      with ⟨marks, -, hnone, -⟩ | ⟨-, used, tail, hcut, htrail, hrun⟩
    · cases marks <;> cases hnone
    · have hclosing : endsLine b.closing = false := by cases b <;> rfl
      obtain ⟨body, t, rfl, hbody, ht⟩ := normalizeBreaks_cut hclosing hcut
      have htail := htrail (isNormal_normalizeBreaks _)
      rw [← ht] at htail
      refine ⟨body, t, rfl, htail.of_normalizeBreaks, ?_⟩
      have hallowed₁ : (body ++ [b.closing]).all isAllowed = true := by
        simp only [List.all_append, List.all_cons, List.all_nil, Bool.and_eq_true] at hallowed ⊢
        exact ⟨hallowed.1, hallowed.2.1, trivial⟩
      rw [tokens, if_pos hallowed₁]
      dsimp only
      rw [hbody]
      exact hrun _ (by omega)
  · cases h

end LayeredConfig.Yaml
