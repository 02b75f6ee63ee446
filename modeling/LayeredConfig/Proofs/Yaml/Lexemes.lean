import LayeredConfig.Proofs.Yaml.Growth

/-!
# The sorts of tokens

The character at a place and the one behind it tell what is read there. A token of any sort comes on
top of those found so far, after the ends of the blocks that it closes; a key, and the block that a
key opens, may be put in front of others as well.
-/
namespace LayeredConfig.Yaml

open Outcome

/-- A token that can stand within brackets, or is one. -/
def Token.inFlow : Token → Bool
  | .flowSequenceStart | .flowSequenceEnd | .flowMappingStart | .flowMappingEnd | .flowEntry
  | .key | .value | .alias _ | .anchor _ | .tag _ | .scalar .. => true
  | _ => false

namespace Lexer

variable {l l₁ l' : Lexer} {t : Token} {T T' : List Token}

inductive Lexeme where
  | directive
  | documentStart
  | documentEnd
  | openSequence
  | openMapping
  | closeSequence
  | closeMapping
  | flowEntry
  | blockEntry
  | key
  | value
  | reference
  | anchor
  | tag
  | blockScalar
  | quoted (single : Bool)
  | plain

def Lexeme.read : Lexeme → Lexer → Except Fault Lexer
  | directive, l => l.directive
  | documentStart, l => l.marker .documentStart
  | documentEnd, l => l.marker .documentEnd
  | openSequence, l => l.openFlow .flowSequenceStart
  | openMapping, l => l.openFlow .flowMappingStart
  | closeSequence, l => l.closeFlow .flowSequenceEnd
  | closeMapping, l => l.closeFlow .flowMappingEnd
  | flowEntry, l => l.flowEntry
  | blockEntry, l => l.blockEntry
  | key, l => l.key
  | value, l => l.value
  | reference, l => l.node fun c => (readAnchorName c).map fun p => (.alias p.1, p.2)
  | anchor, l => l.node fun c => (readAnchorName c).map fun p => (.anchor p.1, p.2)
  | tag, l => l.node fun c => (readTag l.inFlow c).map fun p => (.tag p.1, p.2)
  | blockScalar, l => l.blockScalar
  | quoted single, l => l.node fun c => (Quoted.read single c).map fun p => (.scalar p.1 false, p.2)
  | plain, l => l.plain

/-- The sort of the token that begins with `x`, before the text `r`. -/
def lexeme? (flow first marker : Bool) (x : Char) (r : Text) : Option Lexeme :=
  if first && x == '%' then some .directive
  else if marker then some (if x = '-' then .documentStart else .documentEnd)
  else if x == '[' then some .openSequence
  else if x == '\x7b' then some .openMapping
  else if x == ']' then some .closeSequence
  else if x == '\x7d' then some .closeMapping
  else if x == ',' then some .flowEntry
  else if x == '-' && gapAhead r then some .blockEntry
  else if x == '?' && (flow || gapAhead r) then some .key
  else if x == ':' && (flow || gapAhead r) then some .value
  else if x == '*' then some .reference
  else if x == '&' then some .anchor
  else if x == '!' then some .tag
  else if (x == '|' || x == '>') && ¬ flow then some .blockScalar
  else if x == '\'' || x == '"' then some (.quoted (x == '\''))
  else if beginsPlain flow x r then some .plain
  else none

/-- The sort of what stands at the position. -/
def lexemeAt? (l : Lexer) (x : Char) (r : Text) : Option Lexeme :=
  lexeme? l.inFlow (l.cursor.column = 0) l.cursor.atMarker x r

theorem elim_ite {α : Type} {p : Prop} [Decidable p] {k k' : Option Lexeme} {a b e : α}
    {f : Lexeme → α}
    (ha : a = k.elim e f) (hb : b = k'.elim e f) :
    (if p then a else b) = (if p then k else k').elim e f := by
  split
  · exact ha
  · exact hb

theorem token_eq (l : Lexer) (x : Char) (r : Text) :
    l.token x r = (l.lexemeAt? x r).elim (.error .lexical) (·.read l) := by
  have hmarker : l.marker (if x = '-' then .documentStart else .documentEnd) =
      (some (if x = '-' then Lexeme.documentStart else .documentEnd)).elim (.error .lexical)
        (·.read l) := by
    split <;> rfl
  rw [token, lexemeAt?, lexeme?]
  refine elim_ite rfl (elim_ite hmarker ?_)
  repeat' refine elim_ite ?_ ?_
  all_goals rfl

theorem token_eq_ok {x : Char} {r : Text} :
    l.token x r = .ok l' ↔ ∃ k, l.lexemeAt? x r = some k ∧ k.read l = .ok l' := by
  rw [token_eq]
  cases l.lexemeAt? x r with
  | none => simp
  | some k => simp

theorem ite_some_iff {p : Prop} [Decidable p] {k k' : Lexeme} {o : Option Lexeme} :
    (if p then some k else o) = some k' ↔ p ∧ k = k' ∨ ¬ p ∧ o = some k' := by
  split <;> simp [*]

section

variable {flow first marker : Bool} {x : Char} {r : Text}

theorem lexeme?_plain (h : lexeme? flow first marker x r = some .plain) :
    marker = false ∧ beginsPlain flow x r = true := by
  simp only [lexeme?, ite_some_iff, reduceCtorEq, and_false, false_or] at h
  obtain ⟨-, ⟨-, hx⟩ | ⟨hmarker, h⟩⟩ := h
  · split at hx <;> cases hx
  · exact ⟨by simpa using hmarker, by simp_all⟩

theorem lexeme?_closeSequence (h : lexeme? flow first marker x r = some .closeSequence) :
    x = ']' := by
  simp only [lexeme?, ite_some_iff, reduceCtorEq, and_false, false_or, or_false] at h
  obtain ⟨-, ⟨-, hx⟩ | ⟨-, h⟩⟩ := h
  · split at hx <;> cases hx
  · simp_all

theorem lexeme?_closeMapping (h : lexeme? flow first marker x r = some .closeMapping) :
    x = '\x7d' := by
  simp only [lexeme?, ite_some_iff, reduceCtorEq, and_false, false_or, or_false] at h
  obtain ⟨-, ⟨-, hx⟩ | ⟨-, h⟩⟩ := h
  · split at hx <;> cases hx
  · simp_all

theorem lexeme?_documentEnd (h : lexeme? flow first marker x r = some .documentEnd) :
    marker = true ∧ x ≠ '-' := by
  simp only [lexeme?, ite_some_iff, reduceCtorEq, and_false, false_or, or_false] at h
  obtain ⟨-, hmarker, hx⟩ := h
  split at hx
  · cases hx
  · next hne => exact ⟨hmarker, hne⟩

theorem lexeme?_openSequence : lexeme? flow first false '[' r = some .openSequence := by
  simp [lexeme?]

theorem lexeme?_openMapping : lexeme? flow first false '\x7b' r = some .openMapping := by
  simp [lexeme?]

end

/-- Tokens that have grown: some were found later, and keys and their blocks were put in front of
some. -/
inductive Grown (T : List Token) : List Token → Prop where
  | same : Grown T T
  | top (t : Token) {T' : List Token} (h : Grown T T') : Grown T (t :: T')
  | inside {t : Token} {later earlier : List Token} (h : Grown T (later ++ earlier))
      (ht : t = .key ∨ t = .blockMappingStart) : Grown T (later ++ t :: earlier)

namespace Grown

variable {T₁ : List Token}

theorem trans (h : Grown T T₁) (h' : Grown T₁ T') : Grown T T' := by
  induction h' with
  | same => exact h
  | top t _ ih => exact .top t ih
  | inside _ ht ih => exact .inside ih ht

theorem mem (h : Grown T T') (ht : t ∈ T) : t ∈ T' := by
  induction h with
  | same => exact ht
  | top u _ ih => exact List.mem_cons_of_mem u ih
  | inside _ _ ih =>
    rcases List.mem_append.1 ih with hlater | hearlier
    · exact List.mem_append_left _ hlater
    · exact List.mem_append_right _ (List.mem_cons_of_mem _ hearlier)

/-- The first token stays the first one, unless it begins the first key. -/
theorem first (h : Grown T T') (ht : T.getLast? = some t) :
    T'.getLast? = some t ∨ T'.getLast? = some .key ∨ T'.getLast? = some .blockMappingStart := by
  induction h with
  | same => exact Or.inl ht
  | @top u T' _ ih =>
    cases T' with
    | nil => simp at ih
    | cons v T' =>
      rw [List.getLast?_cons_cons]
      exact ih
  | @inside u later earlier _ hu ih =>
    cases earlier with
    | nil =>
      rw [List.getLast?_concat]
      exact Or.inr (hu.imp (congrArg some) (congrArg some))
    | cons v earlier =>
      rw [List.getLast?_append] at ih ⊢
      rw [List.getLast?_cons_cons]
      exact ih

theorem ends (h : Grown T T') (n : Nat) : Grown T (List.replicate n .blockEnd ++ T') := by
  induction n with
  | zero => exact h
  | succ n ih => exact .top _ ih

end Grown

theorem grown_emitAt (l : Lexer) (position : Nat) (ht : t = .key ∨ t = .blockMappingStart) :
    Grown l.tokens (l.emitAt position t).tokens := by
  refine .inside ?_ ht
  rw [List.take_append_drop]
  exact .same

theorem grown_openBlock (l : Lexer) (column position : Nat) :
    Grown l.tokens (l.openBlock column position .blockMappingStart).tokens := by
  rw [openBlock]
  split
  · exact .same
  · split
    · exact grown_emitAt l position (Or.inr rfl)
    · exact .same

theorem grown_openBlockHere (ht : l.openBlockHere t = .ok l') : Grown l.tokens l'.tokens := by
  rw [openBlockHere] at ht
  split at ht
  · cases ht
    exact .same
  · split at ht
    · cases ht
      rw [openBlock]
      split
      · exact .same
      · split
        · show Grown l.tokens (List.take (l.tokens.length - l.tokens.length) l.tokens ++
            t :: List.drop (l.tokens.length - l.tokens.length) l.tokens)
          rw [Nat.sub_self]
          exact .top t .same
        · exact .same
    · cases ht

theorem eq_of_dropCandidate (h : l.dropCandidate = .ok l') : l' = { l with candidate := none } := by
  rw [dropCandidate] at h
  split at h
  · split at h
    · cases h
    · cases h
      rfl
  · next hnone =>
    cases h
    obtain ⟨cursor, tokens, indent, outer, candidate, candidates, keyAllowed⟩ := l
    cases hnone
    rfl

theorem tokens_dropCandidate (h : l.dropCandidate = .ok l') : l'.tokens = l.tokens := by
  rw [eq_of_dropCandidate h]

theorem eq_of_noteCandidate (h : l.noteCandidate = .ok l') :
    ∃ k, l' = { l with candidate := k } := by
  rw [noteCandidate] at h
  split at h
  · obtain ⟨l₁, hdrop, h⟩ := bind_eq_ok.1 h
    obtain rfl := eq_of_dropCandidate hdrop
    cases h
    exact ⟨_, rfl⟩
  · cases h
    exact ⟨_, rfl⟩

theorem tokens_noteCandidate (h : l.noteCandidate = .ok l') : l'.tokens = l.tokens := by
  obtain ⟨k, rfl⟩ := eq_of_noteCandidate h
  rfl

/-- Blocks that end add their ends. -/
theorem tokens_unindent (l : Lexer) (column : Int) :
    ∃ n, (l.unindent column).tokens = List.replicate n .blockEnd ++ l.tokens := by
  have hclose : ∀ (fuel : Nat) (l : Lexer),
      ∃ n, (closeBlocks column fuel l).tokens = List.replicate n .blockEnd ++ l.tokens := by
    intro fuel
    induction fuel with
    | zero => exact fun l => ⟨0, rfl⟩
    | succ fuel ih =>
      intro l
      rw [closeBlocks]
      split
      · exact ⟨0, rfl⟩
      · obtain ⟨n, hn⟩ :=
          ih { l.emit .blockEnd with indent := l.outer.headD (-1), outer := l.outer.drop 1 }
        refine ⟨n + 1, hn.trans ?_⟩
        rw [List.replicate_succ', List.append_assoc]
        rfl
  rw [unindent]
  split
  · exact ⟨0, rfl⟩
  · exact hclose _ l

theorem tokens_outside (h : l.outside = .ok l') :
    ∃ n, l'.tokens = List.replicate n .blockEnd ++ l.tokens := by
  obtain ⟨l₁, hdrop, h⟩ := bind_eq_ok.1 h
  cases h
  obtain ⟨n, hn⟩ := tokens_unindent l (-1)
  exact ⟨n, (tokens_dropCandidate hdrop).trans hn⟩

theorem cursor_outside (h : l.outside = .ok l') : l'.cursor = l.cursor := by
  obtain ⟨l₁, hdrop, h⟩ := bind_eq_ok.1 h
  obtain rfl := eq_of_dropCandidate hdrop
  cases h
  exact cursor_unindent l (-1)

theorem tokens_skipGap (fuel : Nat) (l : Lexer) : (skipGap fuel l).tokens = l.tokens := by
  induction fuel generalizing l with
  | zero => rfl
  | succ fuel ih =>
    have hstep : ∀ (c : Cursor) (b : Bool), (if c.atBreak then
        skipGap fuel { l with cursor := c.next, keyAllowed := b }
      else { l with cursor := c }).tokens =
          l.tokens := by
      intro c b
      split
      · exact ih _
      · rfl
    exact hstep _ _

theorem eq_of_dropStale (h : l.dropStale = .ok l') :
    ∃ k ks, l' = { l with candidate := k, candidates := ks } := by
  unfold dropStale at h
  extract_lets check at h
  obtain ⟨candidates, -, h⟩ := bind_eq_ok.1 h
  obtain ⟨candidate, -, h⟩ := bind_eq_ok.1 h
  cases h
  exact ⟨_, _, rfl⟩

theorem tokens_dropStale (h : l.dropStale = .ok l') : l'.tokens = l.tokens := by
  obtain ⟨k, ks, rfl⟩ := eq_of_dropStale h
  rfl

/-- The place of the next token is where the gap ends. -/
theorem cursor_settle (h : l.settle = .ok l') :
    l'.cursor = (skipGap (l.cursor.rest.length + 1) l).cursor := by
  obtain ⟨l₁, hdrop, h⟩ := bind_eq_ok.1 h
  cases h
  rw [cursor_unindent]
  obtain ⟨k, ks, rfl⟩ := eq_of_dropStale hdrop
  rfl

theorem tokens_settle (h : l.settle = .ok l') :
    ∃ n, l'.tokens = List.replicate n .blockEnd ++ l.tokens := by
  obtain ⟨l₁, hdrop, h⟩ := bind_eq_ok.1 h
  cases h
  obtain ⟨n, hn⟩ := tokens_unindent l₁ l₁.cursor.column
  exact ⟨n, by rw [hn, tokens_dropStale hdrop, tokens_skipGap]⟩

/-- Closing brackets and ends of documents come from their own lexemes. -/
structure Lexeme.Tops (k : Lexeme) (t : Token) : Prop where
  sequence : t = .flowSequenceEnd → k = .closeSequence
  mapping : t = .flowMappingEnd → k = .closeMapping
  document : t = .documentEnd → k = .documentEnd

/-- What is read comes on top. -/
structure Emits (l : Lexer) (t : Token) (l' : Lexer) : Prop where
  tokens : ∃ T, l'.tokens = t :: T ∧ Grown l.tokens T

theorem Emits.mem (h : Emits l t l') : t ∈ l'.tokens := by
  obtain ⟨T, hT, -⟩ := h.tokens
  rw [hT]
  exact List.mem_cons_self

theorem Emits.grown (h : Emits l t l') : Grown l.tokens l'.tokens := by
  obtain ⟨T, hT, hgrown⟩ := h.tokens
  rw [hT]
  exact .top t hgrown

theorem emits_openFlow (h : l.openFlow t = .ok l') : Emits l t l' := by
  obtain ⟨l₁, hnote, h⟩ := bind_eq_ok.1 h
  cases h
  exact ⟨l₁.tokens, rfl, tokens_noteCandidate hnote ▸ .same⟩

theorem emits_closeFlow (h : l.closeFlow t = .ok l') : Emits l t l' := by
  obtain ⟨l₁, hdrop, h⟩ := bind_eq_ok.1 h
  cases h
  refine ⟨l₁.tokens, ?_, tokens_dropCandidate hdrop ▸ .same⟩
  split <;> rfl

theorem emits_flowEntry (h : l.flowEntry = .ok l') : Emits l .flowEntry l' := by
  obtain ⟨l₁, hdrop, h⟩ := bind_eq_ok.1 h
  cases h
  exact ⟨l₁.tokens, rfl, tokens_dropCandidate hdrop ▸ .same⟩

theorem emits_blockEntry (h : l.blockEntry = .ok l') : Emits l .blockEntry l' := by
  obtain ⟨l₁, hopen, h⟩ := bind_eq_ok.1 h
  obtain ⟨l₂, hdrop, h⟩ := bind_eq_ok.1 h
  cases h
  exact ⟨l₂.tokens, rfl, tokens_dropCandidate hdrop ▸ grown_openBlockHere hopen⟩

theorem emits_key (h : l.key = .ok l') : Emits l .key l' := by
  obtain ⟨l₁, hopen, h⟩ := bind_eq_ok.1 h
  obtain ⟨l₂, hdrop, h⟩ := bind_eq_ok.1 h
  cases h
  exact ⟨l₂.tokens, rfl, tokens_dropCandidate hdrop ▸ grown_openBlockHere hopen⟩

theorem emits_value (h : l.value = .ok l') : Emits l .value l' := by
  rw [value] at h
  split at h
  · next k _ =>
    cases h
    exact ⟨_, rfl, (grown_emitAt l k.position (Or.inl rfl)).trans (grown_openBlock _ _ _)⟩
  · obtain ⟨l₁, hopen, h⟩ := bind_eq_ok.1 h
    cases h
    exact ⟨l₁.tokens, rfl, grown_openBlockHere hopen⟩

theorem emits_node {α : Type} {read : Cursor → Except Fault (α × Cursor)} {f : α → Token}
    (h : l.node (fun c => (read c).map fun p => (f p.1, p.2)) = .ok l') :
    ∃ a, Emits l (f a) l' := by
  obtain ⟨l₁, hnote, h⟩ := bind_eq_ok.1 h
  obtain ⟨⟨t, c⟩, ht, h⟩ := bind_eq_ok.1 h
  obtain ⟨p, -, hp⟩ := map_eq_ok.1 ht
  cases hp
  cases h
  exact ⟨p.1, l₁.tokens, rfl, tokens_noteCandidate hnote ▸ .same⟩

theorem emits_plain (h : l.plain = .ok l') : ∃ s, Emits l (.scalar s true) l' := by
  obtain ⟨l₁, hnote, h⟩ := bind_eq_ok.1 h
  obtain ⟨⟨s, broken, c⟩, -, h⟩ := bind_eq_ok.1 h
  cases h
  exact ⟨s, l₁.tokens, rfl, tokens_noteCandidate hnote ▸ .same⟩

theorem emits_blockScalar (h : l.blockScalar = .ok l') : ∃ s, Emits l (.scalar s false) l' := by
  obtain ⟨l₁, hdrop, h⟩ := bind_eq_ok.1 h
  obtain ⟨⟨s, c⟩, -, h⟩ := bind_eq_ok.1 h
  cases h
  exact ⟨s, l₁.tokens, rfl, tokens_dropCandidate hdrop ▸ .same⟩

theorem emits_directive (h : l.directive = .ok l') : ∃ t, t.isDirective = true ∧ Emits l t l' := by
  obtain ⟨l₁, hout, h⟩ := bind_eq_ok.1 h
  obtain ⟨⟨t, c⟩, ht, h⟩ := bind_eq_ok.1 h
  cases h
  obtain ⟨n, hn⟩ := tokens_outside hout
  exact ⟨t, isDirective_of_readDirective ht, l₁.tokens, rfl, hn ▸ Grown.same.ends n⟩

theorem emits_marker (h : l.marker t = .ok l') : Emits l t l' := by
  obtain ⟨l₁, hout, h⟩ := bind_eq_ok.1 h
  cases h
  obtain ⟨n, hn⟩ := tokens_outside hout
  exact ⟨l₁.tokens, rfl, hn ▸ Grown.same.ends n⟩

/-- **What is read comes on top of the tokens that were found.** -/
theorem Lexeme.emits {k : Lexeme} (h : k.read l = .ok l') : ∃ t, k.Tops t ∧ Emits l t l' := by
  cases k with
  | directive =>
    obtain ⟨t, ht, hemits⟩ := emits_directive h
    refine ⟨t, ⟨?_, ?_, ?_⟩, hemits⟩ <;> (rintro rfl; cases ht)
  | documentStart => exact ⟨_, ⟨by simp, by simp, by simp⟩, emits_marker h⟩
  | documentEnd => exact ⟨_, ⟨by simp, by simp, by simp⟩, emits_marker h⟩
  | openSequence => exact ⟨_, ⟨by simp, by simp, by simp⟩, emits_openFlow h⟩
  | openMapping => exact ⟨_, ⟨by simp, by simp, by simp⟩, emits_openFlow h⟩
  | closeSequence => exact ⟨_, ⟨by simp, by simp, by simp⟩, emits_closeFlow h⟩
  | closeMapping => exact ⟨_, ⟨by simp, by simp, by simp⟩, emits_closeFlow h⟩
  | flowEntry => exact ⟨_, ⟨by simp, by simp, by simp⟩, emits_flowEntry h⟩
  | blockEntry => exact ⟨_, ⟨by simp, by simp, by simp⟩, emits_blockEntry h⟩
  | key => exact ⟨_, ⟨by simp, by simp, by simp⟩, emits_key h⟩
  | value => exact ⟨_, ⟨by simp, by simp, by simp⟩, emits_value h⟩
  | reference =>
    obtain ⟨s, hs⟩ := emits_node (f := Token.alias) h
    exact ⟨_, ⟨by simp, by simp, by simp⟩, hs⟩
  | anchor =>
    obtain ⟨s, hs⟩ := emits_node (f := Token.anchor) h
    exact ⟨_, ⟨by simp, by simp, by simp⟩, hs⟩
  | tag =>
    obtain ⟨s, hs⟩ := emits_node (f := Token.tag) h
    exact ⟨_, ⟨by simp, by simp, by simp⟩, hs⟩
  | blockScalar =>
    obtain ⟨s, hs⟩ := emits_blockScalar h
    exact ⟨_, ⟨by simp, by simp, by simp⟩, hs⟩
  | quoted single =>
    obtain ⟨s, hs⟩ := emits_node (f := fun s => Token.scalar s false) h
    exact ⟨_, ⟨by simp, by simp, by simp⟩, hs⟩
  | plain =>
    obtain ⟨s, hs⟩ := emits_plain h
    exact ⟨_, ⟨by simp, by simp, by simp⟩, hs⟩

/-- Some lexemes leave a token that cannot stand within brackets. -/
theorem Lexeme.ne_of_inFlow {k : Lexeme} (h : k.read l = .ok l')
    (hflow : ∀ u ∈ l'.tokens, u.inFlow = true) :
    k ≠ .directive ∧ k ≠ .documentStart ∧ k ≠ .documentEnd ∧ k ≠ .blockEntry := by
  have hemitted : ∀ {t}, Emits l t l' → t.inFlow = false → False := by
    intro t ht hnot
    have htrue := hflow t ht.mem
    rw [hnot] at htrue
    cases htrue
  refine ⟨?_, ?_, ?_, ?_⟩
  · rintro rfl
    obtain ⟨t, ht, hemits⟩ := emits_directive h
    exact hemitted hemits (by cases t <;> first | rfl | cases ht)
  · rintro rfl
    exact hemitted (emits_marker h) rfl
  · rintro rfl
    exact hemitted (emits_marker h) rfl
  · rintro rfl
    exact hemitted (emits_blockEntry h) rfl

end Lexer
end LayeredConfig.Yaml
