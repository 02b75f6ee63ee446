import LayeredConfig.Proofs.Yaml.Lexemes

/-!
# Outside all blocks

Where all tokens are such as stand within brackets, no block is open and nothing has to be a key.
-/
namespace LayeredConfig.Yaml

open Outcome

namespace Lexer

variable {l l' : Lexer} {t : Token}

/-- No block is open, and nothing has to be a key. -/
structure Blockless (l : Lexer) : Prop where
  indent : l.indent = -1
  candidate : ∀ k ∈ l.candidate, k.required = false
  candidates : ∀ c ∈ l.candidates, ∀ k ∈ c, k.required = false

namespace Blockless

theorem start (s : Text) : (Lexer.start s).Blockless :=
  ⟨rfl, by simp [Lexer.start], by simp [Lexer.start]⟩

/-- A state that differs in other things. -/
theorem of_eq (h : l.Blockless) (hi : l'.indent = l.indent) (hc : l'.candidate = l.candidate)
    (hcs : l'.candidates = l.candidates) : l'.Blockless :=
  ⟨hi.trans h.indent, hc ▸ h.candidate, hcs ▸ h.candidates⟩

/-- Nothing keeps a candidate from being given up. -/
theorem exists_dropCandidate (h : l.Blockless) : ∃ l', l.dropCandidate = .ok l' := by
  rw [Lexer.dropCandidate]
  split
  · next k hk =>
    rw [h.candidate k hk]
    exact ⟨_, rfl⟩
  · exact ⟨_, rfl⟩

theorem dropCandidate (h : l.Blockless) (hl : l.dropCandidate = .ok l') : l'.Blockless := by
  rw [Lexer.dropCandidate] at hl
  split at hl
  · split at hl
    · cases hl
    · cases hl
      exact ⟨h.indent, by simp, h.candidates⟩
  · cases hl
    exact h

theorem noteCandidate (h : l.Blockless) (hl : l.noteCandidate = .ok l') : l'.Blockless := by
  rw [Lexer.noteCandidate] at hl
  split at hl
  · obtain ⟨l₁, hdrop, hl⟩ := bind_eq_ok.1 hl
    have h₁ := h.dropCandidate hdrop
    cases hl
    refine ⟨h₁.indent, ?_, h₁.candidates⟩
    rintro k ⟨⟩
    rw [Bool.and_eq_false_imp]
    intro _
    rw [h₁.indent]
    exact decide_eq_false (by omega)
  · cases hl
    exact h

theorem openBlock (h : l.Blockless) (column position : Nat) (ht : t.inFlow = false)
    (hflow : ∀ u ∈ (l.openBlock column position t).tokens, u.inFlow = true) :
    l.openBlock column position t = l := by
  rw [Lexer.openBlock] at hflow ⊢
  split
  · rfl
  · next hout =>
    have hcolumn : l.indent < column := by
      rw [h.indent]
      omega
    rw [if_neg hout, if_pos hcolumn] at hflow
    have htrue := hflow t (List.mem_append_right _ List.mem_cons_self)
    rw [ht] at htrue
    cases htrue

theorem openBlockHere (h : l.Blockless) (ht : t.inFlow = false) (hl : l.openBlockHere t = .ok l')
    (hflow : ∀ u ∈ l'.tokens, u.inFlow = true) : l' = l := by
  rw [Lexer.openBlockHere] at hl
  split at hl
  · cases hl
    rfl
  · split at hl
    · cases hl
      exact h.openBlock _ _ ht hflow
    · cases hl

theorem key (h : l.Blockless) (hl : l.key = .ok l') (hflow : ∀ u ∈ l'.tokens, u.inFlow = true) :
    l'.Blockless := by
  obtain ⟨l₁, hopen, hl⟩ := bind_eq_ok.1 hl
  obtain ⟨l₂, hdrop, hl⟩ := bind_eq_ok.1 hl
  cases hl
  have hfound : ∀ u ∈ l₁.tokens, u.inFlow = true := fun u hu =>
    hflow u (List.mem_cons_of_mem _ (tokens_dropCandidate hdrop ▸ hu))
  rw [h.openBlockHere rfl hopen hfound] at hdrop
  exact (h.dropCandidate hdrop).of_eq rfl rfl rfl

theorem value (h : l.Blockless) (hl : l.value = .ok l') (hflow : ∀ u ∈ l'.tokens, u.inFlow = true) :
    l'.Blockless := by
  rw [Lexer.value] at hl
  split at hl
  · next k _ =>
    cases hl
    have h₁ : (l.emitAt k.position .key).Blockless := h.of_eq rfl rfl rfl
    have hsame := h₁.openBlock k.column k.position (t := .blockMappingStart) rfl
      fun u hu => hflow u (List.mem_cons_of_mem _ hu)
    rw [hsame]
    exact ⟨h.indent, by simp, h.candidates⟩
  · obtain ⟨l₁, hopen, hl⟩ := bind_eq_ok.1 hl
    cases hl
    obtain rfl := h.openBlockHere rfl hopen fun u hu => hflow u (List.mem_cons_of_mem _ hu)
    exact h.of_eq rfl rfl rfl

theorem openFlow (h : l.Blockless) (hl : l.openFlow t = .ok l') : l'.Blockless := by
  obtain ⟨l₁, hnote, hl⟩ := bind_eq_ok.1 hl
  have h₁ := h.noteCandidate hnote
  cases hl
  exact ⟨h₁.indent, by simp, List.forall_mem_cons.2 ⟨h₁.candidate, h₁.candidates⟩⟩

theorem closeFlow (h : l.Blockless) (hl : l.closeFlow t = .ok l') : l'.Blockless := by
  obtain ⟨l₁, hdrop, hl⟩ := bind_eq_ok.1 hl
  have h₁ := h.dropCandidate hdrop
  cases hl
  split
  · next k rest heq =>
    have hcs : ∀ c ∈ k :: rest, ∀ k ∈ c, k.required = false := heq ▸ h₁.candidates
    obtain ⟨hk, hrest⟩ := List.forall_mem_cons.1 hcs
    exact ⟨h₁.indent, hk, hrest⟩
  · exact h₁.of_eq rfl rfl rfl

theorem flowEntry (h : l.Blockless) (hl : l.flowEntry = .ok l') : l'.Blockless := by
  obtain ⟨l₁, hdrop, hl⟩ := bind_eq_ok.1 hl
  cases hl
  exact (h.dropCandidate hdrop).of_eq rfl rfl rfl

theorem node {read : Cursor → Except Fault (Token × Cursor)} (h : l.Blockless)
    (hl : l.node read = .ok l') : l'.Blockless := by
  obtain ⟨l₁, hnote, hl⟩ := bind_eq_ok.1 hl
  obtain ⟨⟨t, c⟩, -, hl⟩ := bind_eq_ok.1 hl
  cases hl
  exact (h.noteCandidate hnote).of_eq rfl rfl rfl

theorem plain (h : l.Blockless) (hl : l.plain = .ok l') : l'.Blockless := by
  obtain ⟨l₁, hnote, hl⟩ := bind_eq_ok.1 hl
  obtain ⟨⟨s, broken, c⟩, -, hl⟩ := bind_eq_ok.1 hl
  cases hl
  exact (h.noteCandidate hnote).of_eq rfl rfl rfl

theorem blockScalar (h : l.Blockless) (hl : l.blockScalar = .ok l') : l'.Blockless := by
  obtain ⟨l₁, hdrop, hl⟩ := bind_eq_ok.1 hl
  obtain ⟨⟨s, c⟩, -, hl⟩ := bind_eq_ok.1 hl
  cases hl
  exact (h.dropCandidate hdrop).of_eq rfl rfl rfl

/-- Tokens such as stand within brackets open no block. -/
theorem read (h : l.Blockless) {k : Lexeme} (hl : k.read l = .ok l')
    (hflow : ∀ u ∈ l'.tokens, u.inFlow = true) : l'.Blockless := by
  obtain ⟨hdirective, hstart, hend, hentry⟩ := Lexeme.ne_of_inFlow hl hflow
  cases k with
  | directive => exact absurd rfl hdirective
  | documentStart => exact absurd rfl hstart
  | documentEnd => exact absurd rfl hend
  | blockEntry => exact absurd rfl hentry
  | openSequence | openMapping => exact h.openFlow hl
  | closeSequence | closeMapping => exact h.closeFlow hl
  | flowEntry => exact h.flowEntry hl
  | key => exact h.key hl hflow
  | value => exact h.value hl hflow
  | reference | anchor | tag | quoted =>
    rw [Lexeme.read] at hl
    exact h.node hl
  | blockScalar => exact h.blockScalar hl
  | plain => exact h.plain hl

theorem unindent (h : l.Blockless) {column : Int} (hcolumn : -1 ≤ column) :
    l.unindent column = l := by
  rw [Lexer.unindent]
  split
  · rfl
  · rw [closeBlocks, if_pos (by rw [h.indent]; exact hcolumn)]

theorem skipGap (fuel : Nat) (h : l.Blockless) : (skipGap fuel l).Blockless := by
  induction fuel generalizing l with
  | zero => exact h
  | succ fuel ih =>
    have hstep : ∀ (c : Cursor) (b : Bool), (if c.atBreak then
        Lexer.skipGap fuel { l with cursor := c.next, keyAllowed := b }
      else { l with cursor := c }).Blockless := by
      intro c b
      split
      · exact ih (h.of_eq rfl rfl rfl)
      · exact h.of_eq rfl rfl rfl
    exact hstep _ _

theorem mapM_exists {ε α β : Type} {f : α → Except ε β} {P : α → Prop}
    (hf : ∀ a, P a → ∃ b, f a = .ok b)
    {as : List α} (has : ∀ a ∈ as, P a) : ∃ bs, as.mapM f = .ok bs := by
  induction as with
  | nil => exact ⟨[], rfl⟩
  | cons a as ih =>
    obtain ⟨ha, has⟩ := List.forall_mem_cons.1 has
    obtain ⟨b, hb⟩ := hf a ha
    obtain ⟨bs, hbs⟩ := ih has
    exact ⟨b :: bs, by rw [List.mapM_cons, hb, hbs]; rfl⟩

/-- Candidates that nothing requires can be given up. -/
theorem dropStale (h : l.Blockless) :
    ∃ l', l.dropStale = .ok l' ∧ l'.Blockless ∧ l'.cursor = l.cursor := by
  unfold Lexer.dropStale
  extract_lets check
  have hcheck : ∀ c : Option Candidate, (∀ k ∈ c, k.required = false) →
      ∃ c', check c = .ok c' ∧ ∀ k ∈ c', k.required = false := by
    intro c hc
    cases c with
    | none => exact ⟨none, rfl, hc⟩
    | some k =>
      by_cases hstale : isStale l.cursor k = true
      · exact ⟨none, by simp [check, hstale, hc k rfl], by simp⟩
      · exact ⟨some k, by simp [check, hstale], hc⟩
  obtain ⟨candidate, hcandidate, hfree⟩ := hcheck _ h.candidate
  obtain ⟨candidates, hcandidates⟩ :=
    mapM_exists (fun c hc => (hcheck c hc).imp fun _ hc => hc.1) h.candidates
  have hall : ∀ c ∈ candidates, ∀ k ∈ c, k.required = false := by
    refine mapM_all (fun c c' heq hc => ?_) hcandidates h.candidates
    obtain ⟨c₁, hc₁, hfree⟩ := hcheck c hc
    cases hc₁.symm.trans heq
    exact hfree
  exact ⟨{ l with candidate, candidates }, by rw [hcandidates, hcandidate]; rfl,
    ⟨h.indent, hfree, hall⟩, rfl⟩

theorem settle (h : l.Blockless) (hl : l.settle = .ok l') :
    l'.Blockless ∧ l'.tokens = l.tokens := by
  obtain ⟨l₁, hdrop, hl⟩ := bind_eq_ok.1 hl
  obtain ⟨l₂, hdrop', h₂, -⟩ := (h.skipGap (l.cursor.rest.length + 1)).dropStale
  cases hdrop'.symm.trans hdrop
  cases hl
  rw [h₂.unindent (by omega)]
  exact ⟨h₂, (tokens_dropStale hdrop).trans (tokens_skipGap _ l)⟩

theorem outside (h : l.Blockless) : ∃ l', l.outside = .ok l' ∧ l'.tokens = l.tokens := by
  obtain ⟨l', hdrop⟩ := h.exists_dropCandidate
  have htokens := tokens_dropCandidate hdrop
  refine ⟨{ l' with keyAllowed := false }, ?_, htokens⟩
  rw [Lexer.outside, h.unindent (Int.le_refl _), hdrop]
  rfl

/-- At the end of the text the tokens are those that were found. -/
theorem run_nil (h : l.Blockless) (hl : l.cursor.rest = []) (fuel : Nat) :
    run (fuel + 1) l = .ok l.tokens.reverse := by
  obtain ⟨l₁, hdrop, h₁, hcursor⟩ := h.dropStale
  obtain ⟨l₂, hout, htokens⟩ := h₁.outside
  have hsettle : l.settle = .ok l₁ := by
    rw [Lexer.settle, skipGap_nil hl, hdrop, ok_bind, h₁.unindent (by omega)]
  have hrest : l₁.cursor.rest = [] := by rw [hcursor, hl]
  rw [run_succ, hsettle, ok_bind, finish, hrest]
  dsimp only
  rw [hout, ok_bind, htokens, tokens_dropStale hdrop]

end Blockless

end Lexer
end LayeredConfig.Yaml
