import LayeredConfig.Proofs.Yaml.Bracketed
import LayeredConfig.Proofs.Yaml.FlowNode
import LayeredConfig.Proofs.Yaml.SingleValue

/-!
# The root of a document

The first token of what a document holds tells whether it is a block collection or one in brackets.
In a text that begins with a bracket it can still be a block mapping, of which the bracket begins
the first key. A collection in brackets takes up its document, but for the marks that end it.
-/
namespace LayeredConfig.Yaml

open Outcome

def Token.isBlockStart : Token → Bool
  | .blockSequenceStart | .blockMappingStart => true
  | _ => false

/-- Whether the root begins with the start of a block collection, behind its directives, anchor and
tag. -/
def beginsBlock (ts : List Token) : Bool :=
  (ts.dropWhile Token.isProlog).head?.any Token.isBlockStart

/-- Whether a text is read as a block collection. -/
def readsBlock (s : Text) : Bool := (read s).toOption.isSome && (tokens s).toOption.any beginsBlock

theorem readsBlock_iff {s : Text} :
    readsBlock s = true ↔ (∃ v, read s = .ok v) ∧ ∃ ts, tokens s = .ok ts ∧
      beginsBlock ts = true := by
  simp only [readsBlock, Bool.and_eq_true, Option.isSome_iff_exists, Option.any_eq_true,
    toOption_eq_some]

namespace Node

variable {ts : List Token} {n : Node}

def isCollection : Node → Bool
  | .sequence .. | .mapping .. => true
  | _ => false

theorem beginsBlock_prolog (used : List Token) (h : ∀ t ∈ used, t.isProlog = true) :
    beginsBlock (used ++ ts) = beginsBlock ts := by
  rw [beginsBlock, List.dropWhile_append_of_pos h, beginsBlock]

theorem not_beginsBlock_of_ended (h : ts.all (· = .documentEnd) = true) :
    beginsBlock ts = false := by
  cases ts with
  | nil => rfl
  | cons t ts =>
    obtain ⟨ht, -⟩ := List.all_cons.symm.trans h |> Bool.and_eq_true_iff.1
    obtain rfl := of_decide_eq_true ht
    rfl

/-- A root that begins with the start of a block collection is one. -/
theorem isCollection_of_read {handles : Handles} {fuel : Nat} {r left : Rest}
    (h : read handles true false fuel r = .ok (n, left))
    (hleft : left.tokens.all (· = .documentEnd) = true)
    (hblock : beginsBlock r.tokens = true) : n.isCollection = true := by
  cases fuel with
  | zero => rw [read] at h; cases h
  | succ fuel =>
    rw [read] at h
    split at h
    · next heq =>
      rw [heq] at hblock
      cases hblock
    · obtain ⟨⟨anchor, tag, r₁⟩, hmarks, h⟩ := bind_eq_ok.1 h
      obtain ⟨used, hmarks⟩ := exists_marks hmarks
      have hprolog : ∀ t ∈ used, t.isProlog = true := by
        intro t ht
        obtain ⟨name, rfl⟩ | ⟨mark, rfl⟩ := hmarks.marks t ht <;> rfl
      rw [hmarks.tokens, beginsBlock_prolog used hprolog] at hblock
      dsimp only at h
      split at h
      · next heq =>
        rw [heq] at hblock
        cases hblock
      · next heq =>
        rw [heq] at hblock
        cases hblock
      · next heq =>
        rw [heq] at hblock
        cases hblock
      · rw [Bool.false_and, if_neg Bool.false_ne_true] at h
        split at h
        · obtain ⟨⟨items, r₂⟩, -, h⟩ := bind_eq_ok.1 h
          cases h
          rfl
        · split at h
          · obtain ⟨⟨entries, r₂⟩, -, h⟩ := bind_eq_ok.1 h
            cases h
            rfl
          · split at h
            · cases h
              rw [not_beginsBlock_of_ended hleft] at hblock
              cases hblock
            · cases h
      · next heq =>
        rw [heq] at hblock
        cases hblock

theorem beginsBlock_of_readDirectives {versioned : Bool} {handles handles' : Handles}
    {rest : List Token}
    (h : readDirectives versioned handles ts = .ok (handles', rest)) :
    beginsBlock rest = beginsBlock ts := by
  induction ts generalizing versioned handles with
  | nil =>
    cases h
    rfl
  | cons t ts ih =>
    have hdirective : t.isProlog = true → beginsBlock (t :: ts) = beginsBlock ts := fun ht =>
      beginsBlock_prolog [t] (by simp [ht])
    cases t
    case versionDirective =>
      rw [readDirectives] at h
      split at h
      · cases h
      · exact (ih h).trans (hdirective rfl).symm
    case tagDirective =>
      rw [readDirectives] at h
      split at h
      · cases h
      · exact (ih h).trans (hdirective rfl).symm
    all_goals
      cases h
      rfl

theorem isCollection_of_readFirst {fuel : Nat} {left : List Token}
    (h : readFirst fuel ts = .ok (n, left))
    (hleft : left.all (· = .documentEnd) = true) (hblock : beginsBlock ts = true) :
    n.isCollection = true := by
  obtain ⟨⟨handles, rest⟩, hdirectives, hfirst⟩ := bind_eq_ok.1 h
  have hcontent : ∀ {ts : List Token}, beginsBlock ts = true →
      (read (handles ++ standardHandles) true false fuel ⟨ts, []⟩ >>=
        fun p => .ok (p.1, p.2.tokens)) =
        .ok (n, left) → n.isCollection = true := by
    intro ts hblock hnode
    obtain ⟨⟨n', r⟩, hread, hr⟩ := bind_eq_ok.1 hnode
    cases hr
    exact isCollection_of_read hread hleft hblock
  have hrest : beginsBlock rest = true := (beginsBlock_of_readDirectives hdirectives).trans hblock
  clear h hdirectives
  dsimp only at hfirst
  split at hfirst
  case h_4 => exact hcontent hblock hfirst
  -- With directives or a mark for the start, the mark is there and the root behind it.
  all_goals
    split at hfirst
    · next inner =>
      have hinner : beginsBlock inner = true := hrest
      split at hfirst
      case h_6 => exact hcontent hinner hfirst
      all_goals
        cases hfirst
        cases hinner.symm.trans (not_beginsBlock_of_ended hleft)
    · cases hfirst

/-- **A document that begins with the start of a block collection holds a collection.** -/
theorem isCollection_of_ofTokens (h : ofTokens ts = .ok n) (hblock : beginsBlock ts = true) :
    n.isCollection = true := by
  cases ts with
  | nil => cases hblock
  | cons t ts =>
    rw [ofTokens] at h
    · obtain ⟨⟨n', left⟩, hfirst, h⟩ := bind_eq_ok.1 h
      dsimp only at h
      split at h
      · next hall =>
        cases h
        exact isCollection_of_readFirst hfirst hall hblock
      · cases h
    · rintro ⟨⟩

/-- **A collection in brackets takes up its document.** Without the marks behind it, the same node
is read. -/
theorem ofTokens_closes {α : Type} (more : Nat → Rest → Except Fault (α × Rest)) {f : α → Node}
    {t close : Token}
    (ht : t.isProlog = false)
    (hread : ∀ fuel ts, read standardHandles true false (fuel + 1) ⟨t :: ts, []⟩ =
      more fuel ⟨ts, []⟩ >>= fun p => .ok (f p.1, p.2))
    (hmore : ∀ fuel r a left, more fuel r = .ok (a, left) →
      ∃ used, Closes close 1 more used r a left)
    (h : ofTokens (t :: ts) = .ok n) :
    ∃ mid ends a, ts = mid ++ close :: ends ∧ (∀ u ∈ mid, u.inFlow = true) ∧
      (∀ u ∈ ends, u = .documentEnd) ∧ n = f a ∧ ofTokens (t :: (mid ++ [close])) = .ok n := by
  obtain ⟨left, h, hleft⟩ := (ofTokens_eq_ok ht).1 h
  rw [hread] at h
  obtain ⟨⟨a, r⟩, ha, h⟩ := bind_eq_ok.1 h
  cases h
  obtain ⟨used, hcloses⟩ := hmore _ _ _ _ ha
  obtain ⟨mid, rfl⟩ := List.getLast?_eq_some_iff.1 hcloses.last
  refine ⟨mid, r.tokens, a, ?_, fun u hu => hcloses.inFlow u (List.mem_append_left _ hu),
    fun u hu => ?_, rfl, ?_⟩
  · exact hcloses.tokens.trans (List.append_assoc mid [close] r.tokens)
  · simpa using List.all_eq_true.1 hleft u hu
  · refine (ofTokens_eq_ok ht).2 ⟨⟨[], r.names⟩, ?_, rfl⟩
    rw [hread]
    have hagain := hcloses.again (4 * (t :: (mid ++ [close])).length + 7) [] (by simp; omega)
    rw [List.append_nil] at hagain
    rw [hagain, ok_bind]

theorem ofTokens_flowSequence (h : ofTokens (.flowSequenceStart :: ts) = .ok n) :
    ∃ mid ends items, ts = mid ++ .flowSequenceEnd :: ends ∧ (∀ u ∈ mid, u.inFlow = true) ∧
      (∀ u ∈ ends, u = .documentEnd) ∧ n = .sequence none none items ∧
      ofTokens (.flowSequenceStart :: (mid ++ [.flowSequenceEnd])) = .ok n :=
  ofTokens_closes (fun fuel => readFlowItems standardHandles fuel true) rfl
    (fun fuel ts => by rw [read]; rfl) (fun fuel => (readsInside fuel).items true) h

theorem ofTokens_flowMapping (h : ofTokens (.flowMappingStart :: ts) = .ok n) :
    ∃ mid ends entries, ts = mid ++ .flowMappingEnd :: ends ∧ (∀ u ∈ mid, u.inFlow = true) ∧
      (∀ u ∈ ends, u = .documentEnd) ∧ n = .mapping none none entries ∧
      ofTokens (.flowMappingStart :: (mid ++ [.flowMappingEnd])) = .ok n :=
  ofTokens_closes (fun fuel => readFlowEntries standardHandles fuel true) rfl
    (fun fuel ts => by rw [read]; rfl) (fun fuel => (readsInside fuel).entries true) h

theorem not_ofTokens_key : ofTokens (.key :: ts) ≠ .ok n := by
  intro h
  obtain ⟨left, h, -⟩ := (ofTokens_eq_ok rfl).1 h
  rw [read] at h
  cases h

theorem ofTokens_blockMapping (h : ofTokens (.blockMappingStart :: ts) = .ok n) :
    ∃ entries, n = .mapping none none entries := by
  obtain ⟨left, h, -⟩ := (ofTokens_eq_ok rfl).1 h
  obtain ⟨fuel, entries, -, rfl⟩ := read_blockMapping h
  exact ⟨entries, rfl⟩

end Node

namespace Lexer

variable {l l₁ : Lexer} {ts : List Token}

theorem grown_run {fuel : Nat} (h : run fuel l = .ok ts) : Grown l.tokens ts.reverse := by
  induction fuel generalizing l with
  | zero => cases h
  | succ fuel ih =>
    rw [run_succ] at h
    obtain ⟨l₁, hsettle, h⟩ := bind_eq_ok.1 h
    obtain ⟨n, hn⟩ := tokens_settle hsettle
    have hsettled : Grown l.tokens l₁.tokens := hn ▸ Grown.same.ends n
    rw [finish] at h
    split at h
    · obtain ⟨l₂, hout, h⟩ := bind_eq_ok.1 h
      cases h
      obtain ⟨m, hm⟩ := tokens_outside hout
      rw [List.reverse_reverse, hm]
      exact hsettled.ends m
    · obtain ⟨l₂, htoken, h⟩ := bind_eq_ok.1 h
      obtain ⟨k, -, hread⟩ := token_eq_ok.1 htoken
      obtain ⟨t, -, hemits⟩ := Lexeme.emits hread
      exact (hsettled.trans hemits.grown).trans (ih h)

theorem lexemeAt?_opening (b : Brackets) {r : Text} (hrest : l.cursor.rest = b.opening :: r) :
    ∃ k, l.lexemeAt? b.opening r = some k ∧ ∀ l, k.read l = l.openFlow b.first := by
  have hmarker : l.cursor.atMarker = false := by
    rw [Cursor.atMarker_eq, hrest]
    cases b <;> exact Bool.and_false _
  cases b with
  | square =>
    exact ⟨.openSequence, by rw [lexemeAt?, hmarker]; exact lexeme?_openSequence, fun _ => rfl⟩
  | curly =>
    exact ⟨.openMapping, by rw [lexemeAt?, hmarker]; exact lexeme?_openMapping, fun _ => rfl⟩

/-- **A bracket at the start of a text** is its first token, or a key begins with it. -/
theorem head?_run (b : Brackets) {r : Text} {fuel : Nat}
    (h : run fuel (start (b.opening :: r)) = .ok ts) :
    ts.head? = some b.first ∨ ts.head? = some .key ∨ ts.head? = some .blockMappingStart := by
  cases fuel with
  | zero => cases h
  | succ fuel =>
    have hsettled : IsSettled (b.opening :: r) := by
      rintro y ⟨⟩
      cases b <;> decide
    have hsettle : (start (b.opening :: r)).settle = .ok (start (b.opening :: r)) :=
      settle_blanks (n := 0) hsettled (by decide)
    rw [run_succ, hsettle, ok_bind] at h
    obtain ⟨l₂, htoken, h⟩ := bind_eq_ok.1 h
    obtain ⟨k, hk, hread⟩ := token_eq_ok.1 htoken
    obtain ⟨k', hk', hopen⟩ := lexemeAt?_opening (l := start (b.opening :: r)) b rfl
    cases hk'.symm.trans hk
    rw [hopen] at hread
    obtain ⟨l₁, hnote, hread⟩ := bind_eq_ok.1 hread
    cases hread
    have hgrown : Grown (b.first :: l₁.tokens) ts.reverse := grown_run h
    rw [tokens_noteCandidate hnote] at hgrown
    have hfirst := hgrown.first rfl
    rw [List.getLast?_reverse] at hfirst
    exact hfirst

end Lexer

theorem head?_tokens (b : Brackets) {r : Text} {ts : List Token}
    (h : tokens (b.opening :: r) = .ok ts) :
    ts.head? = some b.first ∨ ts.head? = some .key ∨ ts.head? = some .blockMappingStart := by
  have hchar : b.opening ≠ '\r' ∧ b.opening ≠ '\u0085' := by cases b <;> decide
  rw [tokens] at h
  split at h
  · rw [normalizeBreaks_cons hchar.1 hchar.2] at h
    exact Lexer.head?_run b h
  · cases h

end LayeredConfig.Yaml
