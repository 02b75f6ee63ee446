import LayeredConfig.Proofs.Yaml.Lexing

/-!
# Tokens that stay

A token is put in front of others only where a key turns out to have begun, and a place is no longer
held for that once its candidate is given up. From a state without candidates on, the tokens found
so far stay the first ones, and the next one opens no item if no dash stands there.
-/
namespace LayeredConfig.Yaml

open Outcome

def Token.isDirective : Token → Bool
  | .versionDirective .. | .tagDirective .. => true
  | _ => false

namespace Lexer

/-- What a step makes of each of several values, one after the other. -/
theorem mapM_all {ε α β : Type} {f : α → Except ε β} {P : α → Prop} {Q : β → Prop}
    (hf : ∀ a b, f a = .ok b → P a → Q b) {as : List α} {bs : List β} (h : as.mapM f = .ok bs)
    (has : ∀ a ∈ as, P a) : ∀ b ∈ bs, Q b := by
  induction as generalizing bs with
  | nil =>
    cases h
    simp
  | cons a as ih =>
    rw [List.mapM_cons] at h
    obtain ⟨b, hb, h⟩ := bind_eq_ok.1 h
    obtain ⟨bs, hbs, h⟩ := bind_eq_ok.1 h
    cases h
    obtain ⟨ha, has⟩ := List.forall_mem_cons.1 has
    exact List.forall_mem_cons.2 ⟨hf a b hb ha, ih hbs has⟩

/-- A choice that has succeeded has taken one of its two ways. -/
theorem imp_of_ite {ε α : Type} {c : Prop} [Decidable c] {a b : Except ε α} {x : α} {P : Prop}
    (ha : c → a = .ok x → P) (hb : ¬ c → b = .ok x → P) : (if c then a else b) = .ok x → P := by
  intro h
  by_cases hc : c
  · exact ha hc (by rwa [if_pos hc] at h)
  · exact hb hc (by rwa [if_neg hc] at h)

theorem imp_of_error {α : Type} {f : Fault} {x : α} {P : Prop} :
    (Except.error f : Except Fault α) = .ok x → P := fun h => by cases h

theorem isDirective_of_body {name : Text} {c c' : Cursor} {t : Token}
    (h : readDirectiveBody name c = .ok (t, c')) : t.isDirective = true := by
  revert h
  refine imp_of_ite (fun _ h => ?_) fun _ => imp_of_ite (fun _ => ?_) fun _ => imp_of_error
  · obtain ⟨⟨major, c₁⟩, -, h⟩ := bind_eq_ok.1 h
    refine imp_of_ite (fun _ h => ?_) (fun _ => imp_of_error) h
    obtain ⟨⟨minor, c₂⟩, -, h⟩ := bind_eq_ok.1 h
    cases h
    rfl
  · refine imp_of_ite (fun _ => imp_of_error) fun _ =>
      imp_of_ite (fun _ => imp_of_error) fun _ h => ?_
    obtain ⟨⟨lead, c₁⟩, -, h⟩ := bind_eq_ok.1 h
    refine imp_of_ite (fun _ => imp_of_error) (fun _ h => ?_) h
    cases h
    rfl

theorem isDirective_of_readDirective {c c' : Cursor} {t : Token}
    (h : readDirective c = .ok (t, c')) :
    t.isDirective = true := by
  revert h
  refine imp_of_ite (fun _ => imp_of_error) fun _ h => ?_
  obtain ⟨⟨t', c₁⟩, hbody, h⟩ := bind_eq_ok.1 h
  refine imp_of_ite (fun _ h => ?_) (fun _ => imp_of_error) h
  cases h
  exact isDirective_of_body hbody

/-- What has been found lies behind the tokens of `base`, the first of it no dash, and so do the
places that are held for keys. `grown` tells whether anything has been found. -/
structure Above (base : List Token) (grown : Prop) (l : Lexer) : Prop where
  tokens : ∃ later, l.tokens = later ++ base ∧ later.getLast? ≠ some .blockEntry ∧
    (grown → later ≠ [])
  candidate : ∀ k ∈ l.candidate, base.length ≤ k.position
  candidates : ∀ c ∈ l.candidates, ∀ k ∈ c, base.length ≤ k.position

variable {base : List Token} {g : Prop} {l l' : Lexer}

namespace Above

theorem length_le (h : Above base g l) : base.length ≤ l.tokens.length := by
  obtain ⟨later, heq, -⟩ := h.tokens
  rw [heq, List.length_append]
  omega

theorem weaken (h : Above base True l) : Above base g l where
  tokens := by
    obtain ⟨later, heq, hlast, hne⟩ := h.tokens
    exact ⟨later, heq, hlast, fun _ => hne trivial⟩
  candidate := h.candidate
  candidates := h.candidates

theorem emit (h : Above base g l) {t : Token} (ht : t ≠ .blockEntry ∨ g) :
    Above base True (l.emit t) where
  tokens := by
    obtain ⟨later, heq, hlast, hne⟩ := h.tokens
    refine ⟨t :: later, congrArg _ heq, ?_, fun _ => List.cons_ne_nil _ _⟩
    cases later with
    | nil =>
      rcases ht with ht | hg
      · simpa using ht
      · exact absurd rfl (hne hg)
    | cons u later => simpa [List.getLast?_cons_cons] using hlast
  candidate := h.candidate
  candidates := h.candidates

theorem emitAt (h : Above base g l) {position : Nat} (hp : base.length ≤ position) {t : Token}
    (ht : t ≠ .blockEntry) : Above base True (l.emitAt position t) where
  tokens := by
    obtain ⟨later, heq, hlast, -⟩ := h.tokens
    show ∃ later', List.take (l.tokens.length - position) l.tokens ++
      t :: List.drop (l.tokens.length - position) l.tokens = later' ++ base ∧ _
    have hle : l.tokens.length - position ≤ later.length := by
      rw [heq, List.length_append]
      omega
    rw [heq] at hle ⊢
    generalize (later ++ base).length - position = n at hle
    refine ⟨later.take n ++ t :: later.drop n, ?_, ?_, fun _ => by simp⟩
    · rw [List.take_append_of_le_length hle, List.drop_append_of_le_length hle, List.append_assoc,
        List.cons_append]
    · cases hd : later.drop n with
      | nil => simpa using ht
      | cons u rest =>
        have hlater : later = later.take n ++ u :: rest := by rw [← hd, List.take_append_drop]
        rw [hlater, List.getLast?_append] at hlast
        rw [List.getLast?_append, List.getLast?_cons_cons]
        exact hlast
  candidate := h.candidate
  candidates := h.candidates

/-- A state that differs in the position, in the blocks or in what may begin there. -/
theorem of_eq (h : Above base g l) (ht : l'.tokens = l.tokens) (hc : l'.candidate = l.candidate)
    (hcs : l'.candidates = l.candidates) : Above base g l' :=
  ⟨ht ▸ h.tokens, hc ▸ h.candidate, hcs ▸ h.candidates⟩

theorem openBlock (h : Above base g l) {position : Nat} (hp : base.length ≤ position) {t : Token}
    (ht : t ≠ .blockEntry) (column : Nat) : Above base g (l.openBlock column position t) := by
  rw [Lexer.openBlock]
  split
  · exact h
  · split
    · obtain ⟨tokens, candidate, candidates⟩ := (h.emitAt hp ht).weaken (g := g)
      exact ⟨tokens, candidate, candidates⟩
    · exact h

theorem closeBlocks (column : Int) (fuel : Nat) (h : Above base g l) :
    Above base g (closeBlocks column fuel l) := by
  induction fuel generalizing l with
  | zero => exact h
  | succ fuel ih =>
    rw [Lexer.closeBlocks]
    split
    · exact h
    · obtain ⟨tokens, candidate, candidates⟩ := (h.emit (t := .blockEnd) (Or.inl (by simp))).weaken
        (g := g)
      exact ih ⟨tokens, candidate, candidates⟩

theorem unindent (h : Above base g l) (column : Int) : Above base g (l.unindent column) := by
  rw [Lexer.unindent]
  split
  · exact h
  · exact h.closeBlocks column _

theorem dropCandidate (h : Above base g l) (hl : l.dropCandidate = .ok l') : Above base g l' := by
  rw [Lexer.dropCandidate] at hl
  split at hl
  · split at hl
    · cases hl
    · cases hl
      exact ⟨h.tokens, by simp, h.candidates⟩
  · cases hl
    exact h

theorem noteCandidate (h : Above base g l) (hl : l.noteCandidate = .ok l') : Above base g l' := by
  rw [Lexer.noteCandidate] at hl
  split at hl
  · obtain ⟨l₁, hdrop, hl⟩ := bind_eq_ok.1 hl
    cases hl
    have h₁ := h.dropCandidate hdrop
    refine ⟨h₁.tokens, ?_, h₁.candidates⟩
    intro k hk
    cases hk
    exact h₁.length_le
  · cases hl
    exact h

theorem dropStale (h : Above base g l) (hl : l.dropStale = .ok l') : Above base g l' := by
  unfold Lexer.dropStale at hl
  extract_lets check at hl
  obtain ⟨candidates, hcandidates, hl⟩ := bind_eq_ok.1 hl
  obtain ⟨candidate, hcandidate, hl⟩ := bind_eq_ok.1 hl
  cases hl
  -- A candidate is kept as it is or given up.
  have hcheck : ∀ c c' : Option Candidate, check c = Except.ok c' →
      (∀ k ∈ c, base.length ≤ k.position) → ∀ k ∈ c', base.length ≤ k.position := by
    intro c c' hc hpos
    cases c with
    | none =>
      cases hc
      exact hpos
    | some k =>
      dsimp only [check] at hc
      split at hc
      · split at hc
        · cases hc
        · cases hc
          simp
      · cases hc
        exact hpos
  exact ⟨h.tokens, hcheck _ _ hcandidate h.candidate,
    mapM_all hcheck hcandidates h.candidates⟩

theorem skipGap (fuel : Nat) (h : Above base g l) : Above base g (skipGap fuel l) := by
  induction fuel generalizing l with
  | zero => exact h
  | succ fuel ih =>
    have hstep : ∀ (c : Cursor) (b : Bool), Above base g (if c.atBreak then
        Lexer.skipGap fuel { l with cursor := c.next, keyAllowed := b }
      else { l with cursor := c }) := by
      intro c b
      split
      · exact ih (h.of_eq rfl rfl rfl)
      · exact h.of_eq rfl rfl rfl
    exact hstep _ _

theorem settle (h : Above base g l) (hl : l.settle = .ok l') : Above base g l' := by
  obtain ⟨l₁, hdrop, hl⟩ := bind_eq_ok.1 hl
  cases hl
  exact ((h.skipGap _).dropStale hdrop).unindent _

theorem openBlockHere (h : Above base g l) {t : Token} (ht : t ≠ .blockEntry)
    (hl : l.openBlockHere t = .ok l') : Above base g l' := by
  rw [Lexer.openBlockHere] at hl
  split at hl
  · cases hl
    exact h
  · split at hl
    · cases hl
      exact h.openBlock h.length_le ht _
    · cases hl

theorem outside (h : Above base g l) (hl : l.outside = .ok l') : Above base g l' := by
  obtain ⟨l₁, hdrop, hl⟩ := bind_eq_ok.1 hl
  cases hl
  obtain ⟨tokens, candidate, candidates⟩ := (h.unindent (-1)).dropCandidate hdrop
  exact ⟨tokens, candidate, candidates⟩

theorem openFlow (h : Above base g l) {t : Token} (ht : t ≠ .blockEntry)
    (hl : l.openFlow t = .ok l') : Above base True l' := by
  obtain ⟨l₁, hnote, hl⟩ := bind_eq_ok.1 hl
  cases hl
  have h₁ := (h.noteCandidate hnote).emit (Or.inl ht)
  exact ⟨h₁.tokens, by simp, List.forall_mem_cons.2 ⟨h₁.candidate, h₁.candidates⟩⟩

theorem closeFlow (h : Above base g l) {t : Token} (ht : t ≠ .blockEntry)
    (hl : l.closeFlow t = .ok l') : Above base True l' := by
  obtain ⟨l₁, hdrop, hl⟩ := bind_eq_ok.1 hl
  cases hl
  have h₁ := (h.dropCandidate hdrop).emit (Or.inl ht)
  split
  · next k rest heq =>
    have hcs : ∀ c ∈ k :: rest, ∀ k ∈ c, base.length ≤ k.position := heq ▸ h₁.candidates
    obtain ⟨hk, hrest⟩ := List.forall_mem_cons.1 hcs
    exact ⟨h₁.tokens, hk, hrest⟩
  · exact h₁.of_eq rfl rfl rfl

theorem flowEntry (h : Above base g l) (hl : l.flowEntry = .ok l') : Above base True l' := by
  obtain ⟨l₁, hdrop, hl⟩ := bind_eq_ok.1 hl
  cases hl
  exact ((h.dropCandidate hdrop).emit (Or.inl (by simp))).of_eq rfl rfl rfl

theorem blockEntry (h : Above base g l) (hg : g) (hl : l.blockEntry = .ok l') :
    Above base True l' := by
  obtain ⟨l₁, hopen, hl⟩ := bind_eq_ok.1 hl
  obtain ⟨l₂, hdrop, hl⟩ := bind_eq_ok.1 hl
  cases hl
  exact (((h.openBlockHere (by simp) hopen).dropCandidate hdrop).emit (Or.inr hg)).of_eq rfl rfl rfl

theorem key (h : Above base g l) (hl : l.key = .ok l') : Above base True l' := by
  obtain ⟨l₁, hopen, hl⟩ := bind_eq_ok.1 hl
  obtain ⟨l₂, hdrop, hl⟩ := bind_eq_ok.1 hl
  cases hl
  exact (((h.openBlockHere (by simp) hopen).dropCandidate hdrop).emit
    (Or.inl (by simp))).of_eq rfl rfl rfl

theorem value (h : Above base g l) (hl : l.value = .ok l') : Above base True l' := by
  rw [Lexer.value] at hl
  split at hl
  · next k hk =>
    cases hl
    have hp := h.candidate k hk
    have h₁ := (((h.emitAt hp (t := .key) (by simp)).openBlock hp (t := .blockMappingStart)
      (by simp) k.column).emit (t := .value) (Or.inr trivial))
    exact ⟨h₁.tokens, by simp, h₁.candidates⟩
  · obtain ⟨l₁, hopen, hl⟩ := bind_eq_ok.1 hl
    cases hl
    exact ((h.openBlockHere (by simp) hopen).emit (Or.inl (by simp))).of_eq rfl rfl rfl

theorem node {α : Type} (h : Above base g l) {read : Cursor → Except Fault (α × Cursor)}
    {f : α → Token} (hf : ∀ a, f a ≠ .blockEntry)
    (hl : l.node (fun c => (read c).map fun p => (f p.1, p.2)) = .ok l') : Above base True l' := by
  obtain ⟨l₁, hnote, hl⟩ := bind_eq_ok.1 hl
  obtain ⟨⟨t, c⟩, ht, hl⟩ := bind_eq_ok.1 hl
  obtain ⟨p, -, hp⟩ := map_eq_ok.1 ht
  cases hp
  cases hl
  exact ((h.noteCandidate hnote).emit (Or.inl (hf p.1))).of_eq rfl rfl rfl

theorem plain (h : Above base g l) (hl : l.plain = .ok l') : Above base True l' := by
  obtain ⟨l₁, hnote, hl⟩ := bind_eq_ok.1 hl
  obtain ⟨⟨s, broken, c⟩, -, hl⟩ := bind_eq_ok.1 hl
  cases hl
  exact ((h.noteCandidate hnote).emit (Or.inl (by simp))).of_eq rfl rfl rfl

theorem blockScalar (h : Above base g l) (hl : l.blockScalar = .ok l') : Above base True l' := by
  obtain ⟨l₁, hdrop, hl⟩ := bind_eq_ok.1 hl
  obtain ⟨⟨s, c⟩, -, hl⟩ := bind_eq_ok.1 hl
  cases hl
  exact ((h.dropCandidate hdrop).emit (Or.inl (by simp))).of_eq rfl rfl rfl

theorem directive (h : Above base g l) (hl : l.directive = .ok l') : Above base True l' := by
  obtain ⟨l₁, hout, hl⟩ := bind_eq_ok.1 hl
  obtain ⟨⟨t, c⟩, ht, hl⟩ := bind_eq_ok.1 hl
  cases hl
  have hne : t ≠ .blockEntry := by
    rintro rfl
    cases isDirective_of_readDirective ht
  exact ((h.outside hout).emit (Or.inl hne)).of_eq rfl rfl rfl

theorem marker (h : Above base g l) {t : Token} (ht : t ≠ .blockEntry)
    (hl : l.marker t = .ok l') : Above base True l' := by
  obtain ⟨l₁, hout, hl⟩ := bind_eq_ok.1 hl
  cases hl
  exact ((h.outside hout).emit (Or.inl ht)).of_eq rfl rfl rfl

/-- Every token is found behind those of the base, and the first one is a dash only if one stands
there. -/
theorem token (h : Above base g l) {x : Char} {r : Text} (hx : x ≠ '-' ∨ g)
    (hl : l.token x r = .ok l') : Above base True l' := by
  have hmarker : (if x = '-' then Token.documentStart else .documentEnd) ≠ .blockEntry := by
    split <;> simp
  revert hl
  refine imp_of_ite (fun _ => h.directive) fun _ => ?_
  refine imp_of_ite (fun _ => h.marker hmarker) fun _ => ?_
  refine imp_of_ite (fun _ => h.openFlow (by simp)) fun _ => ?_
  refine imp_of_ite (fun _ => h.openFlow (by simp)) fun _ => ?_
  refine imp_of_ite (fun _ => h.closeFlow (by simp)) fun _ => ?_
  refine imp_of_ite (fun _ => h.closeFlow (by simp)) fun _ => ?_
  refine imp_of_ite (fun _ => h.flowEntry) fun _ => ?_
  refine imp_of_ite (fun hdash => ?_) fun _ => ?_
  · simp only [Bool.and_eq_true, beq_iff_eq] at hdash
    exact h.blockEntry (hx.resolve_left fun hne => hne hdash.1)
  refine imp_of_ite (fun _ => h.key) fun _ => ?_
  refine imp_of_ite (fun _ => h.value) fun _ => ?_
  refine imp_of_ite (fun _ => h.node (f := Token.alias) (by simp)) fun _ => ?_
  refine imp_of_ite (fun _ => h.node (f := Token.anchor) (by simp)) fun _ => ?_
  refine imp_of_ite (fun _ => h.node (f := Token.tag) (by simp)) fun _ => ?_
  refine imp_of_ite (fun _ => h.blockScalar) fun _ => ?_
  refine imp_of_ite (fun _ => h.node (f := fun s => Token.scalar s false) (by simp)) fun _ => ?_
  exact imp_of_ite (fun _ => h.plain) fun _ => imp_of_error

end Above

theorem Above.atEnd (h : Above base g l) {ts : List Token}
    (hl : (do let l ← l.outside; .ok l.tokens.reverse) =
      (Except.ok ts : Except Fault (List Token))) :
    ∃ more, ts = base.reverse ++ more ∧ more.head? ≠ some .blockEntry := by
  obtain ⟨l₁, hout, hl⟩ := bind_eq_ok.1 hl
  cases hl
  obtain ⟨later, heq, hlast, -⟩ := (h.outside hout).tokens
  exact ⟨later.reverse, by rw [heq, List.reverse_append], by rwa [List.head?_reverse]⟩

/-- All that is found in the end begins with the base, and no dash follows where none stands. -/
theorem Above.found (h : Above base g l) (hx : l.cursor.rest.head? ≠ some '-' ∨ g) {fuel : Nat}
    {ts : List Token} (hl : finish fuel l = .ok ts) :
    ∃ more, ts = base.reverse ++ more ∧ more.head? ≠ some .blockEntry := by
  induction fuel generalizing l g with
  | zero =>
    rw [finish] at hl
    split at hl
    · exact h.atEnd hl
    · obtain ⟨l₁, -, hl⟩ := bind_eq_ok.1 hl
      cases hl
  | succ fuel ih =>
    rw [finish] at hl
    split at hl
    · exact h.atEnd hl
    · next x r hrest =>
      obtain ⟨l₁, htoken, hl⟩ := bind_eq_ok.1 hl
      rw [run_succ] at hl
      obtain ⟨l₂, hsettle, hl⟩ := bind_eq_ok.1 hl
      have h₁ := h.token (by simpa [hrest] using hx) htoken
      exact ih (h₁.settle hsettle) (Or.inr trivial) hl

/-- From a state without candidates on, what has been found stays. -/
theorem Finds.beginning {c : Cursor} {indent : Int} {outer : List Int} {b : Bool} {ts : List Token}
    (h : Finds (idle c base indent outer b) ts) (hx : c.rest.head? ≠ some '-') :
    ∃ more, ts = base.reverse ++ more ∧ more.head? ≠ some .blockEntry := by
  obtain ⟨fuel, h⟩ := h
  have habove : Above base False (idle c base indent outer b) :=
    ⟨⟨[], rfl, by simp, by simp⟩, by simp [flat], by simp [flat]⟩
  exact habove.found (Or.inl hx) h

end Lexer
end LayeredConfig.Yaml
