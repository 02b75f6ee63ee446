import LayeredConfig.Override.Argument
import LayeredConfig.Proofs.Yaml.Root

/-!
# Arguments in flow form

A collection is taken where the text of an argument begins with a bracket. A text that begins so and
is read as one collection in brackets has its closing bracket behind it, and then only a trail. But
a block mapping whose first key is a collection in brackets begins so too, and it is taken as well.
-/
namespace LayeredConfig

open Outcome

namespace Yaml

namespace Brackets

/-- The value of a collection in these brackets. -/
def Holds : Brackets → Value → Prop
  | square, v => ∃ items, v = .sequence items
  | curly, v => ∃ entries, v = .mapping entries

/-- A text that is one collection in brackets. Nothing in it belongs to a block. -/
structure IsWhole (b : Brackets) (body : Text) (v : Value) : Prop where
  written : ∃ inner, body = b.opening :: (inner ++ [b.closing])
  tokens : ∃ mid, Yaml.tokens body = .ok (b.first :: (mid ++ [b.last])) ∧ ∀ t ∈ mid, t.inFlow = true
  read : Yaml.read body = .ok v

variable (b : Brackets)

theorem closes_ofTokens {ts : List Token} {n : Node} (h : Node.ofTokens (b.first :: ts) = .ok n) :
    ∃ mid ends, ts = mid ++ b.last :: ends ∧ (∀ u ∈ mid, u.inFlow = true) ∧
      (∀ u ∈ ends, u = .documentEnd) ∧
      Node.ofTokens (b.first :: (mid ++ [b.last])) = .ok n ∧
      ∀ {a depth j v j'}, build a depth n j = .ok (v, j') → b.Holds v := by
  cases b with
  | square =>
    obtain ⟨mid, ends, items, hts, hmid, hends, rfl, hagain⟩ := Node.ofTokens_flowSequence h
    refine ⟨mid, ends, hts, hmid, hends, hagain, fun hv => ?_⟩
    obtain ⟨depth', vs, -, rfl⟩ := build_sequence hv
    exact ⟨vs, rfl⟩
  | curly =>
    obtain ⟨mid, ends, entries, hts, hmid, hends, rfl, hagain⟩ := Node.ofTokens_flowMapping h
    refine ⟨mid, ends, hts, hmid, hends, hagain, fun hv => ?_⟩
    obtain ⟨depth', es, -, rfl⟩ := build_mapping hv
    exact ⟨es, rfl⟩

/-- **A text that begins with a bracket and is not read as a block is one collection in brackets**,
and a trail behind it. -/
theorem exists_isWhole {s : Text} {v : Value} (hs : s.head? = some b.opening)
    (hread : read s = .ok v)
    (hblock : readsBlock s = false) :
    b.Holds v ∧ ∃ body tail, s = body ++ tail ∧ Trail false tail ∧ b.IsWhole body v := by
  obtain ⟨r, rfl⟩ := List.head?_eq_some_iff.1 hs
  obtain ⟨ts, n, j, hts, hn, hv⟩ := read_eq_ok.1 hread
  have hhead : ts.head? = some b.first := by
    rcases head?_tokens b hts with h | h | h
    · exact h
    · obtain ⟨ts, rfl⟩ := List.head?_eq_some_iff.1 h
      exact absurd hn Node.not_ofTokens_key
    · obtain ⟨ts, rfl⟩ := List.head?_eq_some_iff.1 h
      rw [readsBlock_iff.2 ⟨⟨v, hread⟩, _, hts, rfl⟩] at hblock
      cases hblock
  obtain ⟨rest, rfl⟩ := List.head?_eq_some_iff.1 hhead
  obtain ⟨mid, ends, rfl, hmid, hends, hagain, hholds⟩ := b.closes_ofTokens hn
  have hflow : ∀ t ∈ b.first :: mid, t.inFlow = true :=
    List.forall_mem_cons.2 ⟨b.inFlow_first, hmid⟩
  obtain ⟨body, tail, hcut, htrail, htokens⟩ := tokens_cut hflow hends hts
  refine ⟨hholds hv, body ++ [b.closing], tail,
    by rw [hcut]; simp, htrail, ?_, ⟨mid, htokens, hmid⟩, ?_⟩
  · cases body with
    | nil => exact absurd (List.cons.inj hcut).1 b.opening_ne_closing
    | cons x inner =>
      obtain ⟨rfl, -⟩ := List.cons.inj hcut
      exact ⟨inner, rfl⟩
  · exact read_eq_ok.2 ⟨_, n, j, htokens, hagain, hv⟩

end Brackets

/-- A text read as a block that begins with a bracket is a mapping. -/
theorem exists_mapping {b : Brackets} {s : Text} (hs : s.head? = some b.opening)
    (hblock : readsBlock s = true) :
    ∃ entries, read s = .ok (.mapping entries) := by
  obtain ⟨r, rfl⟩ := List.head?_eq_some_iff.1 hs
  obtain ⟨⟨v, hread⟩, ts, hts, hbegins⟩ := readsBlock_iff.1 hblock
  obtain ⟨ts', n, j, hts', hn, hv⟩ := read_eq_ok.1 hread
  cases hts'.symm.trans hts
  rcases head?_tokens b hts with h | h | h
  · obtain ⟨ts, rfl⟩ := List.head?_eq_some_iff.1 h
    cases b <;> cases hbegins
  · obtain ⟨ts, rfl⟩ := List.head?_eq_some_iff.1 h
    cases hbegins
  · obtain ⟨ts, rfl⟩ := List.head?_eq_some_iff.1 h
    obtain ⟨entries, rfl⟩ := Node.ofTokens_blockMapping hn
    obtain ⟨depth, es, -, rfl⟩ := build_mapping hv
    exact ⟨es, hread⟩

/-- A text read as a block is a collection, or one with a tag. -/
theorem exists_withTag {s : Text} (hblock : readsBlock s = true) :
    ∃ tag v, read s = .ok (withTag tag v) ∧
      ((∃ items, v = .sequence items) ∨ ∃ entries, v = .mapping entries) := by
  obtain ⟨⟨v, hread⟩, ts, hts, hbegins⟩ := readsBlock_iff.1 hblock
  obtain ⟨ts', n, j, hts', hn, hv⟩ := read_eq_ok.1 hread
  cases hts'.symm.trans hts
  have hcollection := Node.isCollection_of_ofTokens hn hbegins
  cases n with
  | reference => cases hcollection
  | scalar => cases hcollection
  | sequence anchor tag items =>
    obtain ⟨depth, vs, -, rfl⟩ := build_sequence hv
    exact ⟨tag, _, hread, Or.inl ⟨vs, rfl⟩⟩
  | mapping anchor tag entries =>
    obtain ⟨depth, es, -, rfl⟩ := build_mapping hv
    exact ⟨tag, _, hread, Or.inr ⟨es, rfl⟩⟩

end Yaml

namespace Value

open Yaml

variable {raw : Text}

/-- Collections are taken from flow form only: what is taken as one is in its brackets, up to a
trail, and a text that is read as a block stays what it is. -/
structure TakesFlowOnly (raw : Text) : Prop where
  sequence : ∀ items, ofArgument raw = .sequence items → ∃ body tail, Text.trim raw = body ++ tail ∧
    Trail false tail ∧ Brackets.square.IsWhole body (.sequence items)
  mapping : ∀ entries, ofArgument raw = .mapping entries →
    ∃ body tail, Text.trim raw = body ++ tail ∧
    Trail false tail ∧ Brackets.curly.IsWhole body (.mapping entries)
  block : readsBlock (Text.trim raw) = true → ofArgument raw = .string (Text.trim raw)

theorem inFlowForm_iff {s : Text} :
    ofArgument.inFlowForm s = true ↔ ∃ b : Brackets, s.head? = some b.opening := by
  rw [ofArgument.inFlowForm, Bool.or_eq_true, decide_eq_true_eq, decide_eq_true_eq]
  constructor
  · rintro (h | h)
    · exact ⟨.square, h⟩
    · exact ⟨.curly, h⟩
  · rintro ⟨b, h⟩
    cases b
    · exact Or.inl h
    · exact Or.inr h

/-- A text that is taken as a collection begins with a bracket and is read as this collection. -/
theorem read_of_holds {b : Brackets} (h : b.Holds (ofArgument raw)) :
    ofArgument.inFlowForm (Text.trim raw) = true ∧ read (Text.trim raw) = .ok (ofArgument raw) := by
  have hstring : ∀ s, ¬ b.Holds (.string s) := by
    intro s hs
    cases b <;> obtain ⟨_, h⟩ := hs <;> cases h
  rw [ofArgument] at h ⊢
  split at h
  · exact absurd h (hstring _)
  · next hempty =>
    rw [if_neg hempty]
    split at h
    · next items hread =>
      split at h
      · next hform => exact ⟨hform, by rw [hread, if_pos hform]⟩
      · exact absurd h (hstring _)
    · next entries hread =>
      split at h
      · next hform => exact ⟨hform, by rw [hread, if_pos hform]⟩
      · exact absurd h (hstring _)
    · exact absurd h (hstring _)
    · exact absurd h (hstring _)
    · next v hsequence hmapping _ hread =>
      cases b
      · obtain ⟨items, rfl⟩ := h
        exact (hsequence items rfl).elim
      · obtain ⟨entries, rfl⟩ := h
        exact (hmapping entries rfl).elim

theorem ofArgument_of_withTag {tag : Option Text} {v : Value}
    (hread : read (Text.trim raw) = .ok (withTag tag v))
    (hv : (∃ items, v = .sequence items) ∨ ∃ entries, v = .mapping entries)
    (hform : ofArgument.inFlowForm (Text.trim raw) = false) :
    ofArgument raw = .string (Text.trim raw) := by
  rw [ofArgument]
  split
  · next hempty => rw [List.isEmpty_iff.1 hempty]
  · rw [hread, hform]
    cases htag : localTag? tag with
    | some name => rw [withTag, htag]
    | none =>
      rw [withTag, htag]
      obtain ⟨items, rfl⟩ | ⟨entries, rfl⟩ := hv
      · rfl
      · rfl

theorem ofArgument_mapping {entries : Entries}
    (hread : read (Text.trim raw) = .ok (.mapping entries))
    (hform : ofArgument.inFlowForm (Text.trim raw) = true) : ofArgument raw = .mapping entries := by
  have hempty : ¬ (Text.trim raw).isEmpty = true := by
    intro h
    rw [List.isEmpty_iff.1 h] at hform
    cases hform
  rw [ofArgument, if_neg hempty, hread, hform]
  rfl

/-- **Collections are taken from flow form only, but for block mappings whose text begins with a
bracket.** -/
theorem takesFlowOnly_iff (raw : Text) : TakesFlowOnly raw ↔
    ¬ (ofArgument.inFlowForm (Text.trim raw) = true ∧ readsBlock (Text.trim raw) = true) := by
  constructor
  · rintro htakes ⟨hform, hblock⟩
    obtain ⟨b, hb⟩ := inFlowForm_iff.1 hform
    obtain ⟨entries, hread⟩ := exists_mapping hb hblock
    have hvalue := htakes.block hblock
    rw [ofArgument_mapping hread hform] at hvalue
    cases hvalue
  · intro hnot
    have hwhole : ∀ {b : Brackets}, b.Holds (ofArgument raw) →
        ∃ b : Brackets, b.Holds (ofArgument raw) ∧
        ∃ body tail, Text.trim raw = body ++ tail ∧ Trail false tail ∧
          b.IsWhole body (ofArgument raw) := by
      intro b h
      obtain ⟨hform, hread⟩ := read_of_holds h
      obtain ⟨b, hb⟩ := inFlowForm_iff.1 hform
      have hblock : readsBlock (Text.trim raw) = false :=
        Bool.eq_false_iff.2 fun hblock => hnot ⟨hform, hblock⟩
      exact ⟨b, b.exists_isWhole hb hread hblock⟩
    refine ⟨fun items h => ?_, fun entries h => ?_, fun hblock => ?_⟩
    · obtain ⟨b, hholds, hbody⟩ := hwhole (b := .square) ⟨items, h⟩
      rw [h] at hholds hbody
      cases b with
      | square => exact hbody
      | curly => obtain ⟨entries, h⟩ := hholds; cases h
    · obtain ⟨b, hholds, hbody⟩ := hwhole (b := .curly) ⟨entries, h⟩
      rw [h] at hholds hbody
      cases b with
      | curly => exact hbody
      | square => obtain ⟨items, h⟩ := hholds; cases h
    · obtain ⟨tag, v, hread, hv⟩ := exists_withTag hblock
      exact ofArgument_of_withTag hread hv (Bool.eq_false_iff.2 fun hform => hnot ⟨hform, hblock⟩)

/-- **Not every block mapping is kept as a text.** With a collection in brackets as its first key it
is taken as a mapping. -/
theorem not_takesFlowOnly_bracketed_key :
    ofArgument "[a]: b" = .mapping [(.sequence [.string "a"], .string "b")] ∧
    ¬ TakesFlowOnly "[a]: b" ∧
      ofArgument "\x7ba: 1\x7d: b" =
        .mapping [(.mapping [(.string "a", .number (.int 1))], .string "b")] ∧
      ¬ TakesFlowOnly "\x7ba: 1\x7d: b" := by
  have hkept : ∀ {raw : Text} {entries : Entries}, ofArgument raw = .mapping entries →
      readsBlock (Text.trim raw) = true → ¬ TakesFlowOnly raw := by
    intro raw entries hvalue hblock htakes
    have hstring := htakes.block hblock
    rw [hvalue] at hstring
    cases hstring
  have hsequence : ofArgument "[a]: b" = .mapping [(.sequence [.string "a"], .string "b")] := by
    decide +kernel
  have hmapping : ofArgument "\x7ba: 1\x7d: b" =
      .mapping [(.mapping [(.string "a", .number (.int 1))], .string "b")] := by decide +kernel
  exact ⟨hsequence, hkept hsequence (by decide +kernel), hmapping,
    hkept hmapping (by decide +kernel)⟩

end Value
end LayeredConfig
