import LayeredConfig.Proofs.Yaml.Lexemes
import LayeredConfig.Proofs.Yaml.Local.Block
import LayeredConfig.Proofs.Yaml.Local.Marks
import LayeredConfig.Proofs.Yaml.Local.Scalars

/-!
# Tokens are read locally

From the part of a text that a token takes, and from the gap before it, the lexer goes on in the
same way before all texts that are alike. Every token takes something.
-/
namespace LayeredConfig.Yaml

open Outcome

namespace Lexer

variable {l l₁ l' : Lexer} {t : Token}

/-- The same state with another text ahead. -/
def onto (l : Lexer) (w : Text) : Lexer := { l with cursor := l.cursor.onto w }

@[simp] theorem onto_cursor (l : Lexer) (w : Text) : (l.onto w).cursor = l.cursor.onto w := rfl
@[simp] theorem onto_tokens (l : Lexer) (w : Text) : (l.onto w).tokens = l.tokens := rfl
@[simp] theorem onto_inFlow (l : Lexer) (w : Text) : (l.onto w).inFlow = l.inFlow := rfl
@[simp] theorem onto_rest (l : Lexer) : l.onto l.cursor.rest = l := rfl

/-- A step that does not depend on the text ahead. -/
def Keeps (f : Lexer → Except Fault Lexer) : Prop := ∀ l w, f (l.onto w) = (f l).map (·.onto w)

theorem Keeps.rest {f : Lexer → Except Fault Lexer} (hf : Keeps f) (h : f l = .ok l') :
    l'.cursor.rest = l.cursor.rest := by
  have hsame := hf l l.cursor.rest
  rw [onto_rest, h] at hsame
  have heq : l' = l'.onto l.cursor.rest := Except.ok.inj hsame
  have hrest := congrArg (fun l : Lexer => l.cursor.rest) heq
  exact hrest

theorem Keeps.bind {f g : Lexer → Except Fault Lexer} (hf : Keeps f) (hg : Keeps g) :
    Keeps fun l => f l >>= g := by
  intro l w
  show f (l.onto w) >>= g = (f l >>= g).map (·.onto w)
  rw [hf]
  cases f l with
  | error e => rfl
  | ok l₁ => exact hg l₁ w

theorem keeps_ok {f : Lexer → Lexer} (hf : ∀ l w, f (l.onto w) = (f l).onto w) :
    Keeps fun l => .ok (f l) :=
  fun l w => congrArg Except.ok (hf l w)

theorem keeps_dropCandidate : Keeps dropCandidate := by
  intro l w
  rw [dropCandidate, dropCandidate]
  cases hc : l.candidate with
  | none => simp [onto, hc, Except.map]
  | some k => cases hk : k.required <;> simp [onto, hc, hk, Except.map]

theorem keeps_noteCandidate : Keeps noteCandidate := by
  intro l w
  rw [noteCandidate, noteCandidate, keeps_dropCandidate l w]
  cases hk : l.keyAllowed with
  | false => simp [onto, hk, Except.map]
  | true =>
    cases l.dropCandidate with
    | error e => simp [onto, hk, Except.map]; rfl
    | ok l₁ => simp [onto, hk, Except.map]; rfl

theorem openBlock_onto (l : Lexer) (column position : Nat) (t : Token) (w : Text) :
    (l.onto w).openBlock column position t = (l.openBlock column position t).onto w := by
  rw [openBlock, openBlock, onto_inFlow]
  split
  · rfl
  · show (if l.indent < column then _ else _) = _
    split <;> rfl

theorem keeps_openBlockHere (t : Token) : Keeps (openBlockHere · t) := by
  intro l w
  show openBlockHere (l.onto w) t = (openBlockHere l t).map (·.onto w)
  rw [openBlockHere, openBlockHere, onto_inFlow]
  split
  · rfl
  · show (if l.keyAllowed then _ else _) = _
    split
    · exact congrArg Except.ok (openBlock_onto l _ _ t w)
    · rfl

theorem closeBlocks_onto (column : Int) (fuel : Nat) (l : Lexer) (w : Text) :
    closeBlocks column fuel (l.onto w) = (closeBlocks column fuel l).onto w := by
  induction fuel generalizing l with
  | zero => rfl
  | succ fuel ih =>
    rw [closeBlocks, closeBlocks]
    show (if l.indent ≤ column then _ else _) = _
    split
    · rfl
    · exact ih { l.emit .blockEnd with indent := l.outer.headD (-1), outer := l.outer.drop 1 }

theorem unindent_onto (l : Lexer) (column : Int) (w : Text) :
    (l.onto w).unindent column = (l.unindent column).onto w := by
  rw [unindent, unindent, onto_inFlow]
  split
  · rfl
  · exact closeBlocks_onto column _ l w

theorem keeps_dropStale : Keeps dropStale := by
  intro l w
  unfold dropStale
  extract_lets check check'
  have hcheck : check = check' := rfl
  rw [hcheck]
  show (l.candidates.mapM check' >>= fun candidates => check' l.candidate >>= fun candidate =>
    .ok { l.onto w with candidate, candidates }) = _
  cases l.candidates.mapM check' with
  | error e => rfl
  | ok candidates => cases check' l.candidate <;> rfl

/-- Over a byte order mark at the start of the text. -/
def overMark (c : Cursor) : Cursor :=
  if c.column = 0 ∧ c.line = 0 ∧ c.peek = some '\ufeff' then c.next else c

theorem goes_overMark (c : Cursor) : c.Goes overMark := by
  by_cases hc : c.column = 0 ∧ c.line = 0 ∧ c.peek = some '\ufeff'
  · have hmark : overMark c = c.next := if_pos hc
    rw [Cursor.Goes, hmark]
    refine (Cursor.goes_next c).conclude fun w w₁ fuel hw _ hfuel h => ?_
    rw [overMark, Cursor.peek_onto hw, Cursor.onto_column, Cursor.onto_line, if_pos hc]
    exact h _ hfuel
  · have hstop : overMark c = c := if_neg hc
    rw [Cursor.Goes, hstop]
    exact .stop fun w fuel hw => by
      rw [overMark, Cursor.peek_onto hw, Cursor.onto_column, Cursor.onto_line, if_neg hc]
      rfl

/-- Over what is skipped of a line. -/
def overBlanks (tabs : Bool) (c : Cursor) : Cursor :=
  ((overMark c).skipRun fun x => x == ' ' || (tabs && x == '\t')).skipComment

theorem goes_overBlanks (tabs : Bool) (c : Cursor) : c.Goes (overBlanks tabs) :=
  ((goes_overMark c).comp (Cursor.goes_skipRun (fun x => x == ' ' || (tabs && x == '\t')) _)).comp
    (Cursor.goes_skipComment _)

/-- To the end of a gap, from where something of a line has been skipped. -/
def onward (fuel : Nat) (l : Lexer) (c : Cursor) : Lexer :=
  if c.atBreak then
    skipGap fuel { l with cursor := c.next, keyAllowed := l.keyAllowed || ¬ l.inFlow }
  else { l with cursor := c }

theorem skipGap_succ (fuel : Nat) (l : Lexer) :
    skipGap (fuel + 1) l = onward fuel l (overBlanks (l.inFlow || ¬ l.keyAllowed) l.cursor) := rfl

theorem takes_skipGap {n : Nat} (hn : l.cursor.rest.length < n) :
    Takes (fun fuel c => .ok (skipGap fuel { l with cursor := c })) l.cursor
      (fun c => { skipGap n l with cursor := c }) (skipGap n l).cursor := by
  induction n generalizing l with
  | zero => cases hn
  | succ n ih =>
    rw [skipGap_succ]
    generalize hover : overBlanks (l.inFlow || ¬ l.keyAllowed) l.cursor = c
    have hgoes := goes_overBlanks (l.inFlow || ¬ l.keyAllowed) l.cursor
    rw [Cursor.Goes, hover] at hgoes
    have hon :
        Takes (fun fuel c => .ok (onward (fuel - 1) l c)) c
          (fun c' => { onward n l c with cursor := c' })
        (onward n l c).cursor := by
      by_cases hbreak : c.atBreak = true
      · obtain ⟨x, r, hc, -⟩ := Cursor.exists_of_atBreak hbreak
        have hgo : onward n l c =
            skipGap n { l with cursor := c.next, keyAllowed := l.keyAllowed || ¬ l.inFlow } :=
          if_pos hbreak
        have hlen : c.next.rest.length < n := by
          have hle := hgoes.length_le
          rw [hc, List.length_cons] at hle
          rw [Cursor.next_rest hc]
          omega
        have htake :=
          ih (l := { l with cursor := c.next, keyAllowed := l.keyAllowed || ¬ l.inFlow }) hlen
        rw [hgo]
        refine htake.next hc fun w fuel hw => ?_
        have hsame : (c.onto (x :: w)).atBreak = true := by
          rw [← hbreak, Cursor.atBreak, Cursor.atBreak, hc]
          rfl
        rw [Nat.add_sub_cancel, onward, if_pos hsame, Cursor.next_onto hc]
      · have hstop : onward n l c = { l with cursor := c } := if_neg hbreak
        rw [hstop]
        exact .stop fun w fuel hw => by
          rw [onward, Cursor.atBreak_onto hw, if_neg hbreak]
    refine hgoes.bind hon fun w w₁ fuel hw _ hfuel hlen hway => ⟨fuel, ?_, ?_⟩
    · have hle := hgoes.length_le
      omega
    · obtain ⟨fuel, rfl⟩ : ∃ k, fuel = k + 1 := ⟨fuel - 1, by omega⟩
      have hto := Except.ok.inj (hway _ hfuel)
      show Except.ok (onward fuel l (overBlanks (l.inFlow || ¬ l.keyAllowed) (l.cursor.onto w))) = _
      rw [hto]
      rfl

/-- A step that takes a part of the text, and takes it with the same result before all texts that
are alike. -/
def Steps (f : Lexer → Except Fault Lexer) (used : Text) (l l' : Lexer) : Prop :=
  l.cursor.rest = used ++ l'.cursor.rest ∧
    ∀ w, Alike l'.cursor.rest w → f (l.onto (used ++ w)) = .ok (l'.onto w)

variable {f g pre : Lexer → Except Fault Lexer} {used : Text}

theorem steps_settle (h : l.settle = .ok l') : ∃ used, Steps settle used l l' := by
  obtain ⟨used, hused, htakes⟩ := takes_skipGap (l := l) (Nat.lt_succ_self _)
  rw [settle] at h
  generalize skipGap (l.cursor.rest.length + 1) l = l₁ at h hused htakes
  obtain ⟨l₂, hdrop, h⟩ := bind_eq_ok.1 h
  cases h
  have hrest : (l₂.unindent l₂.cursor.column).cursor.rest = l₁.cursor.rest := by
    rw [cursor_unindent]
    exact keeps_dropStale.rest hdrop
  refine ⟨used, by rw [hused, hrest], fun w hw => ?_⟩
  rw [hrest] at hw
  have hskip : skipGap ((used ++ w).length + 1) (l.onto (used ++ w)) = l₁.onto w :=
    Except.ok.inj (htakes w _ hw (Nat.lt_succ_self _))
  rw [settle, onto_cursor, Cursor.onto_rest, hskip, keeps_dropStale, hdrop]
  exact congrArg Except.ok (unindent_onto l₂ _ w)

/-- A step that takes at least a character. -/
def Reads (f : Lexer → Except Fault Lexer) (l l' : Lexer) : Prop :=
  ∃ used, used ≠ [] ∧ Steps f used l l'

theorem Reads.congr (hg : Reads g l l') (hf : ∀ w, f (l.onto w) = g (l.onto w)) : Reads f l l' := by
  obtain ⟨used, hpos, hused, hsteps⟩ := hg
  exact ⟨used, hpos, hused, fun w hw => (hf _).trans (hsteps w hw)⟩

theorem Keeps.reads (hpre : Keeps pre) (h : pre l = .ok l₁) (_ : g l₁ = .ok l')
    (hf : ∀ w, f (l.onto w) = pre (l.onto w) >>= g) (hg : Reads g l₁ l') : Reads f l l' := by
  obtain ⟨used, hpos, hused, hsteps⟩ := hg
  refine ⟨used, hpos, by rw [← hpre.rest h, hused], fun w hw => ?_⟩
  rw [hf, hpre, h]
  exact hsteps w hw

/-- A step that reads something and stores it. -/
theorem reads_of_takes {α : Type} (read : Cursor → Except Fault (α × Cursor)) {a : α} {c : Cursor}
    (h : Takes (fun _ => read) l.cursor (a, ·) c) (hlt : c.rest.length < l.cursor.rest.length)
    (put : α → Lexer) (hg : ∀ w, g (l.onto w) =
      read (l.cursor.onto w) >>= fun p => .ok { put p.1 with cursor := p.2 }) :
    Reads g l { put a with cursor := c } := by
  obtain ⟨used, hused, htakes⟩ := h
  refine ⟨used, ?_, hused, fun w hw => ?_⟩
  · rintro rfl
    rw [hused] at hlt
    exact absurd hlt (Nat.lt_irrefl _)
  · have hread : read (l.cursor.onto (used ++ w)) = .ok (a, c.onto w) :=
      htakes w _ hw (Nat.lt_succ_self _)
    rw [hg, hread]
    rfl

/-- A step that passes over a character. -/
theorem reads_next (hne : l.cursor.rest ≠ []) (put : Lexer)
    (hg : ∀ w, g (l.onto w) = .ok { put with cursor := (l.cursor.onto w).next }) :
    Reads g l { put with cursor := l.cursor.next } := by
  refine reads_of_takes (fun c => .ok ((), c.next)) (a := ()) ?_ ?_ (fun _ => put) hg
  · exact (Cursor.goes_next l.cursor).map fun c => ((), c)
  · exact Cursor.length_next_lt hne

section Lexemes

variable (hne : l.cursor.rest ≠ [])
include hne

theorem reads_openFlow (h : l.openFlow t = .ok l') : Reads (openFlow · t) l l' := by
  obtain ⟨l₁, hnote, h⟩ := bind_eq_ok.1 h
  refine keeps_noteCandidate.reads hnote h (fun _ => rfl) ?_
  cases h
  exact reads_next (keeps_noteCandidate.rest hnote ▸ hne)
    { l₁.emit t with
      candidates := l₁.candidate :: l₁.candidates, candidate := none, keyAllowed := true }
    fun _ => rfl

theorem reads_closeFlow (h : l.closeFlow t = .ok l') : Reads (closeFlow · t) l l' := by
  obtain ⟨l₁, hdrop, h⟩ := bind_eq_ok.1 h
  refine keeps_dropCandidate.reads hdrop h (fun _ => rfl) ?_
  have hne₁ : l₁.cursor.rest ≠ [] := keeps_dropCandidate.rest hdrop ▸ hne
  obtain ⟨cursor, tokens, indent, outer, candidate, candidates, keyAllowed⟩ := l₁
  cases candidates with
  | nil =>
    cases h
    exact reads_next hne₁ ⟨cursor, t :: tokens, indent, outer, candidate, [], false⟩ fun _ => rfl
  | cons k rest =>
    cases h
    exact reads_next hne₁ ⟨cursor, t :: tokens, indent, outer, k, rest, false⟩ fun _ => rfl

theorem reads_flowEntry (h : l.flowEntry = .ok l') : Reads flowEntry l l' := by
  obtain ⟨l₁, hdrop, h⟩ := bind_eq_ok.1 h
  refine keeps_dropCandidate.reads hdrop h (fun _ => rfl) ?_
  cases h
  exact reads_next (keeps_dropCandidate.rest hdrop ▸ hne)
    { l₁.emit .flowEntry with keyAllowed := true } fun _ => rfl

theorem reads_key (h : l.key = .ok l') : Reads key l l' := by
  obtain ⟨l₁, hopen, h⟩ := bind_eq_ok.1 h
  refine (keeps_openBlockHere _).reads hopen h (fun _ => rfl) ?_
  obtain ⟨l₂, hdrop, h⟩ := bind_eq_ok.1 h
  refine keeps_dropCandidate.reads hdrop h (fun _ => rfl) ?_
  have hrest := (keeps_dropCandidate.rest hdrop).trans ((keeps_openBlockHere _).rest hopen)
  cases h
  exact reads_next (hrest ▸ hne) { l₂.emit .key with keyAllowed := ¬ l₂.inFlow } fun _ => rfl

theorem reads_value (h : l.value = .ok l') : Reads value l l' := by
  cases hc : l.candidate with
  | some k =>
    have hkey : Keeps fun l =>
        .ok ((l.emitAt k.position .key).openBlock k.column k.position .blockMappingStart) :=
      keeps_ok fun l w => openBlock_onto (l.emitAt k.position .key) _ _ _ w
    have hvalue : ∀ w, (l.onto w).value =
        .ok (((l.onto w).emitAt k.position .key).openBlock k.column k.position
          .blockMappingStart) >>= fun l =>
        .ok { l.emit .value with
          candidate := none, keyAllowed := false, cursor := l.cursor.next } := by
      intro w
      rw [value, show (l.onto w).candidate = some k from hc]
      rfl
    rw [← onto_rest l, hvalue, onto_rest] at h
    refine hkey.reads rfl h hvalue ?_
    have hrest := hkey.rest (l := l) rfl
    generalize
      (l.emitAt k.position .key).openBlock k.column k.position .blockMappingStart = l₁ at h hrest
    cases h
    exact reads_next (hrest ▸ hne) { l₁.emit .value with candidate := none, keyAllowed := false }
      fun _ => rfl
  | none =>
    have hvalue : ∀ w, (l.onto w).value = (l.onto w).openBlockHere .blockMappingStart >>= fun l =>
        .ok { l.emit .value with keyAllowed := ¬ l.inFlow, cursor := l.cursor.next } := by
      intro w
      rw [value, show (l.onto w).candidate = none from hc]
    rw [← onto_rest l, hvalue, onto_rest] at h
    obtain ⟨l₁, hopen, h⟩ := bind_eq_ok.1 h
    refine (keeps_openBlockHere _).reads (g := fun l => .ok { l.emit .value with
      keyAllowed := ¬ l.inFlow, cursor := l.cursor.next }) hopen h hvalue ?_
    cases h
    exact reads_next ((keeps_openBlockHere _).rest hopen ▸ hne)
      { l₁.emit .value with keyAllowed := ¬ l₁.inFlow } fun _ => rfl

theorem reads_node {α : Type} (read : Cursor → Except Fault (α × Cursor)) (put : α → Token)
    (htakes : ∀ {c a c'}, read c = .ok (a, c') → Takes (fun _ => read) c (a, ·) c')
    (hle : ∀ {c a c'}, read c = .ok (a, c') → c'.rest.length ≤ c.next.rest.length)
    (h : l.node (fun c => (read c).map fun p => (put p.1, p.2)) = .ok l') :
    Reads (node · fun c => (read c).map fun p => (put p.1, p.2)) l l' := by
  obtain ⟨l₁, hnote, h⟩ := bind_eq_ok.1 h
  refine keeps_noteCandidate.reads hnote h (fun _ => rfl) ?_
  obtain ⟨⟨t, c⟩, ht, h⟩ := bind_eq_ok.1 h
  obtain ⟨⟨a, c'⟩, hread, hp⟩ := map_eq_ok.1 ht
  cases hp
  cases h
  have hlen := Nat.lt_of_le_of_lt (hle hread)
    (Cursor.length_next_lt (keeps_noteCandidate.rest hnote ▸ hne))
  refine reads_of_takes read
    (htakes hread) hlen (fun a => { l₁.emit (put a) with keyAllowed := false }) fun w => ?_
  simp only [onto_cursor]
  cases read (l₁.cursor.onto w) <;> rfl

theorem reads_blockScalar (h : l.blockScalar = .ok l') : Reads blockScalar l l' := by
  obtain ⟨l₁, hdrop, h⟩ := bind_eq_ok.1 h
  refine keeps_dropCandidate.reads hdrop h (fun _ => rfl) ?_
  obtain ⟨⟨s, c⟩, hread, h⟩ := bind_eq_ok.1 h
  cases h
  have hlen := Nat.lt_of_le_of_lt (Block.length_read_le hread)
    (Cursor.length_next_lt (keeps_dropCandidate.rest hdrop ▸ hne))
  exact reads_of_takes (Block.read l₁.indent) (Block.takes_read hread) hlen
    (fun s => { l₁.emit (.scalar s false) with keyAllowed := true }) fun w => rfl

omit hne in
/-- What begins a plain scalar belongs to it. -/
theorem run_of_beginsPlain {flow : Bool} {x : Char} {r : Text} (h : beginsPlain flow x r = true) :
    Plain.run flow (x :: r) ≠ .ok [] := by
  have hstops : (isSpaceOrTab x || isBreak x) = false ∧ (x == ':' && gapAhead r) = false ∧
      (flow && Plain.isFlowEnd x) = false := by
    rw [beginsPlain] at h
    simp only [Bool.or_eq_true, Bool.and_eq_true, beq_iff_eq, decide_eq_true_eq, List.contains_cons,
      Bool.not_eq_true] at h
    rcases h with (h | ⟨rfl, -⟩) | ⟨⟨hflow, rfl | rfl⟩, hgap⟩
    · simp_all [Plain.isFlowEnd]
    · simp [isSpaceOrTab, isBreak, Plain.isFlowEnd]
    · simp_all [isSpaceOrTab, isBreak, Plain.isFlowEnd]
    · simp_all [isSpaceOrTab, isBreak, Plain.isFlowEnd]
  obtain ⟨hblank, hcolon, hend⟩ := hstops
  rw [Plain.run, hblank, hcolon, hend]
  simp only [Bool.false_eq_true, if_false]
  split
  · simp
  · cases Plain.run flow r <;> simp [Except.map]

omit hne in
theorem reads_plain {x : Char} {r : Text} (hmarker : l.cursor.atMarker = false)
    (hc : l.cursor.rest = x :: r)
    (hbegins : beginsPlain l.inFlow x r = true) (h : l.plain = .ok l') : Reads plain l l' := by
  obtain ⟨l₁, hnote, h⟩ := bind_eq_ok.1 h
  refine keeps_noteCandidate.reads hnote h (fun _ => rfl) ?_
  obtain ⟨k, rfl⟩ := eq_of_noteCandidate hnote
  obtain ⟨⟨s, broken, c⟩, hread, h⟩ := bind_eq_ok.1 h
  cases h
  have hcomment : l.cursor.peek ≠ some '#' := by
    rw [Cursor.peek, hc]
    rintro ⟨⟩
    cases hf : l.inFlow <;> simp [hf, beginsPlain] at hbegins
  have hlen : c.rest.length < l.cursor.rest.length :=
    Plain.length_read_lt hmarker hcomment (hc ▸ run_of_beginsPlain hbegins) hread
  have htake := (Plain.takes_read hread).map fun p => ((p.1, p.2.1), p.2.2)
  refine reads_of_takes _ (a := (s, broken)) htake hlen
    (fun p => { l.emit (.scalar p.1 true) with candidate := k, keyAllowed := p.2 }) fun w => ?_
  show (Plain.read l.inFlow l.indent (l.cursor.onto w) >>= _) =
    (Plain.read l.inFlow l.indent (l.cursor.onto w)).map _ >>= _
  cases Plain.read l.inFlow l.indent (l.cursor.onto w) <;> rfl

end Lexemes

theorem beginsPlain_congr {flow : Bool} {x : Char} {r w : Text} (hhead : w.head? = r.head?)
    (hgap : gapAhead w = gapAhead r) : beginsPlain flow x w = beginsPlain flow x r := by
  rw [beginsPlain, beginsPlain, hhead, hgap]

/-- What is read at a place is seen in two characters, or in a closing bracket. -/
theorem lexemeAt?_onto {x : Char} {r w : Text} (hc : l.cursor.rest = x :: r)
    (h : Alike (x :: r) (x :: w)) :
    (l.onto (x :: w)).lexemeAt? x w = l.lexemeAt? x r := by
  have hmarker : (l.onto (x :: w)).cursor.atMarker = l.cursor.atMarker :=
    Cursor.atMarker_onto (hc ▸ h)
  rw [lexemeAt?, lexemeAt?, hmarker]
  show lexeme? l.inFlow (l.cursor.column = 0) _ x w = _
  by_cases hx : isClosing x = true
  · rw [isClosing, Bool.or_eq_true, beq_iff_eq, beq_iff_eq] at hx
    rcases hx with rfl | rfl <;> simp [lexeme?]
  · obtain ⟨w', hw', hrest⟩ := h.cases
    cases hw'
    have hrest := hrest (by simpa using hx)
    rw [lexeme?, lexeme?, hrest.gapAhead_eq, beginsPlain_congr hrest.head?_eq hrest.gapAhead_eq]

/-- **A lexeme is read locally, and it takes something.** -/
theorem Lexeme.reads {k : Lexeme} {x : Char} {r : Text} (hc : l.cursor.rest = x :: r)
    (hk : l.lexemeAt? x r = some k)
    (h : k.read l = .ok l') (hflow : ∀ u ∈ l'.tokens, u.inFlow = true) :
    Reads k.read l l' := by
  have hne : l.cursor.rest ≠ [] := hc ▸ List.cons_ne_nil x r
  obtain ⟨hdirective, hstart, hend, hentry⟩ := Lexeme.ne_of_inFlow h hflow
  cases k with
  | directive => exact absurd rfl hdirective
  | documentStart => exact absurd rfl hstart
  | documentEnd => exact absurd rfl hend
  | blockEntry => exact absurd rfl hentry
  | openSequence | openMapping => exact reads_openFlow hne h
  | closeSequence | closeMapping => exact reads_closeFlow hne h
  | flowEntry => exact reads_flowEntry hne h
  | key => exact reads_key hne h
  | value => exact reads_value hne h
  | reference =>
    exact reads_node hne readAnchorName .alias takes_readAnchorName length_readAnchorName_le h
  | anchor =>
    exact reads_node hne readAnchorName .anchor takes_readAnchorName length_readAnchorName_le h
  | tag =>
    have hread := reads_node hne (readTag l.inFlow) .tag takes_readTag length_readTag_le h
    exact hread.congr fun _ => rfl
  | quoted single =>
    exact reads_node hne (Quoted.read single) (fun s => .scalar s false) Quoted.takes_read
      Quoted.length_read_le h
  | blockScalar => exact reads_blockScalar hne h
  | plain =>
    obtain ⟨hmarker, hbegins⟩ := lexeme?_plain hk
    exact reads_plain hmarker hc hbegins h

end Lexer
end LayeredConfig.Yaml
