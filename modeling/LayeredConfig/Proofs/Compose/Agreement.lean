import LayeredConfig.Compose.Lenient
import LayeredConfig.Proofs.Compose.Steps
import LayeredConfig.Proofs.Compose.Strict
import LayeredConfig.Proofs.Text.Segments

/-!
# Where the two compositions agree

Strict and lenient composition read a defaults list with different rules. On root documents that
stay clear of the differences, whatever can be composed strictly is composed leniently to the same
value, its mappings in the same order.
-/
namespace LayeredConfig

open Outcome

/-- The decoded defaults list of a document. -/
def Defaults.entriesOf (document : Value) : List DefaultsEntry :=
  (Defaults.ofDocument? document).getD []

/-- What keeps a root document clear of the differences between the two compositions. -/
structure CommonGround (t : FileTree) (root : Path) (document : Value) : Prop where
  /-- There is no defaults list, or one that is not empty. -/
  listed : (∀ es, document.entries? = some es →
      Entries.find? es (.string Defaults.listKey) = none) ∨ Defaults.entriesOf document ≠ []
  noOverride : ∀ s, .group s ∈ Defaults.entriesOf document → s.isOverride = false
  /-- A group is a single segment. -/
  oneSegment : ∀ s, .group s ∈ Defaults.entriesOf document → s.group ≠ [] ∧ '/' ∉ s.group
  groupFile : ∀ s, .group s ∈ Defaults.entriesOf document →
    t.document? (modulePath root s.group s.name) ≠ some .null
  rootFile : ∀ name, .bare name ∈ Defaults.entriesOf document →
    t.document? (modulePath root Defaults.rootGroup name) ≠ some .null

theorem Defaults.packageOf_one_segment {group : Text} (hne : group ≠ []) (h : '/' ∉ group) :
    Defaults.packageOf group = [group] := by
  rw [Defaults.packageOf, Text.splitAll_of_not_mem h]
  simp [hne]

namespace Lenient

variable {t : FileTree} {root p : Path} {own : Value}

theorem withoutList_baseOf {document : Value} (h : Strict.ownKeys p document = .ok own) :
    withoutList (baseOf document) = own := by
  cases document with
  | null =>
    cases h
    rfl
  | mapping es =>
    cases h
    rfl
  | _ => cases h

theorem ofDocument?_baseOf {document : Value} (h : Strict.ownKeys p document = .ok own) :
    (Defaults.ofDocument? (baseOf document)).getD [] = Defaults.entriesOf document := by
  cases document with
  | null => rfl
  | mapping es => rfl
  | _ => cases h

/-- A document without a defaults list is its own keys. -/
theorem baseOf_of_no_list {document : Value} (hk : document.Keyed)
    (habs : ∀ es, document.entries? = some es →
      Entries.find? es (.string Defaults.listKey) = none)
    (h : Strict.ownKeys p document = .ok own) :
    baseOf document = (Value.mapping []).merge own := by
  cases document with
  | null =>
    cases h
    rfl
  | mapping es =>
    cases h
    rw [Entries.erase_of_find?_none (habs es rfl), Value.empty_merge (Value.keyed_mapping.1 hk).1]
    rfl
  | _ => cases h

/-- Lenient composition lays a fragment as it is, if strict composition accepts it and it is not
empty. -/
theorem mergeModule_of_readFragment {group name label : Text} {package : List Text} {c : Value}
    (hfile : t.isFile (modulePath root group name) = true)
    (hnull : t.document? (modulePath root group name) ≠ some .null)
    (h : Strict.readFragment t (modulePath root group name) label = .ok c) (acc : Value) :
    mergeModule t root group name package acc = .ok (acc.merge (Value.nest package c)) := by
  obtain ⟨⟨s, v⟩, hv, h⟩ := bind_eq_ok.1 h
  have hdoc : t.document? (modulePath root group name) = some v :=
    FileTree.document?_eq_some.2 ⟨s, Strict.readDocument_eq_ok.1 hv⟩
  have hvc : v = c := by
    dsimp only at h
    split at h
    · cases h
    cases v with
    | null => exact absurd hdoc hnull
    | mapping es =>
      dsimp only at h
      split at h
      · cases h
      · cases h
        rfl
    | _ => cases h
  subst hvc
  have hread : readModule? t root group name = .ok (some v) := by
    unfold readModule?
    simp only [hfile, if_true, hv]
    rfl
  exact bind_eq_ok.2 ⟨some v, hread, rfl⟩

/-- The step that strict composition makes of an entry, seen from the lenient one. -/
structure SameStep (t : FileTree) (root : Path) (own : Value) (e : DefaultsEntry) (step : Step) :
    Prop where
  layer : ∀ c, Strict.contribution t root own step = .ok c → ∀ acc,
    layerEntry t root own acc e = .ok (acc.merge c)
  marker : step = .ownKeys ↔ e = .selfMarker

theorem sameStep_of_add {plan q : Plan} {e : DefaultsEntry}
    (hov : ∀ s, e = .group s → s.isOverride = false)
    (hseg : ∀ s, e = .group s → s.group ≠ [] ∧ '/' ∉ s.group)
    (hgroup : ∀ s, e = .group s → t.document? (modulePath root s.group s.name) ≠ some .null)
    (hbare : ∀ name, e = .bare name →
      t.document? (modulePath root Defaults.rootGroup name) ≠ some .null)
    (h : Plan.add t root plan e = .ok q) :
    ∃ step, q = plan ++ [step] ∧ SameStep t root own e step := by
  cases Plan.add_eq_ok.1 h with
  | selfMarker =>
    refine ⟨.ownKeys, rfl, fun c hc acc => ?_, by simp⟩
    cases hc
    rfl
  | bare hfile =>
    refine ⟨_, rfl, fun c hc acc => ?_, by simp⟩
    exact mergeModule_of_readFragment hfile (hbare _ rfl) hc acc
  | group hplain =>
    refine ⟨_, rfl, fun c hc acc => ?_, by simp⟩
    obtain ⟨hne, hslash⟩ := hseg _ rfl
    unfold Strict.contribution at hc
    dsimp only at hc
    split at hc
    · next hfile =>
      obtain ⟨v, hv, hc⟩ := bind_eq_ok.1 hc
      cases hc
      rw [Defaults.packageOf_one_segment hne hslash]
      simp only [layerEntry, hplain, Bool.false_eq_true, if_false]
      exact mergeModule_of_readFragment hfile (hgroup _ rfl) hv acc
    · cases hc
  | override hmark _ =>
    rw [hov _ rfl] at hmark
    cases hmark

/-- A plan without overrides has one step for each entry. -/
theorem sameSteps_of_add {entries : List DefaultsEntry} {plan q : Plan}
    (hstep : ∀ e ∈ entries, ∀ plan q, Plan.add t root plan e = .ok q →
      ∃ step, q = plan ++ [step] ∧ SameStep t root own e step)
    (h : entries.foldlM (Plan.add t root) plan = .ok q) :
    ∃ steps, q = plan ++ steps ∧ List.Forall₂ (SameStep t root own) entries steps := by
  induction entries generalizing plan with
  | nil =>
    cases h
    exact ⟨[], by simp, .nil⟩
  | cons e entries ih =>
    obtain ⟨he, hstep⟩ := List.forall_mem_cons.1 hstep
    rw [List.foldlM_cons] at h
    obtain ⟨plan', hp, h⟩ := bind_eq_ok.1 h
    obtain ⟨step, rfl, hs⟩ := he _ _ hp
    obtain ⟨steps, rfl, hss⟩ := ih hstep h
    exact ⟨step :: steps, by simp, .cons hs hss⟩

/-- Entries are laid over each other as the steps of the plan are. -/
theorem foldlM_layerEntry {entries : List DefaultsEntry} {steps : Plan} {layers : List Value}
    (hs : List.Forall₂ (SameStep t root own) entries steps)
    (hl : List.Forall₂ (fun step c => Strict.contribution t root own step = .ok c) steps layers)
    (acc : Value) :
    entries.foldlM (layerEntry t root own) acc = .ok (layers.foldl Value.merge acc) := by
  induction hs generalizing layers acc with
  | nil =>
    cases hl
    rfl
  | cons hs _ ih =>
    cases hl with
    | cons hc hl => exact bind_eq_ok.2 ⟨_, hs.layer _ hc acc, ih hl _⟩

theorem contains_ownKeys {entries : List DefaultsEntry} {steps : Plan}
    (h : List.Forall₂ (SameStep t root own) entries steps) :
    List.contains steps .ownKeys = Defaults.hasSelfMarker entries := by
  induction h with
  | nil => rfl
  | cons hs _ ih =>
    rw [Bool.eq_iff_iff] at ih ⊢
    simp only [Defaults.hasSelfMarker, List.contains_iff_mem, List.mem_cons] at ih ⊢
    rw [ih, eq_comm, hs.marker, eq_comm]

theorem forall₂_concat {α β : Type} {R : α → β → Prop} {xs : List α} {x : α} {ys : List β}
    (h : List.Forall₂ R (xs ++ [x]) ys) :
    ∃ front y, ys = front ++ [y] ∧ List.Forall₂ R xs front ∧ R x y := by
  induction xs generalizing ys with
  | nil =>
    cases h with
    | cons hx hnil =>
      cases hnil
      exact ⟨[], _, rfl, .nil, hx⟩
  | cons a xs ih =>
    cases h with
    | cons ha h =>
      obtain ⟨front, y, rfl, hfront, hy⟩ := ih h
      exact ⟨_ :: front, y, rfl, .cons ha hfront, hy⟩

/-- The plan of a list and its layers, laid leniently. -/
theorem layer_eq_strict {entries : List DefaultsEntry} {base v : Value} {plan : Plan}
    (hne : entries ≠ []) (hown : withoutList base = own)
    (hstep : ∀ e ∈ entries, ∀ plan q, Plan.add t root plan e = .ok q →
      ∃ step, q = plan ++ [step] ∧ SameStep t root own e step)
    (hplan : Plan.ofEntries t root entries = .ok plan)
    (hv : Strict.layer t root own plan = .ok v) : layer t root base entries = .ok v := by
  obtain ⟨q, hq, hclose⟩ := bind_eq_ok.1 hplan
  obtain ⟨steps, rfl, hs⟩ := sameSteps_of_add hstep hq
  cases hclose
  obtain ⟨layers, hl, rfl⟩ := Strict.layer_eq_ok.1 hv
  have hempty : entries.isEmpty = false := by simp [hne]
  unfold layer
  simp only [hempty, Bool.false_eq_true, if_false, hown]
  rw [Plan.close, contains_ownKeys hs] at hl
  cases hm : Defaults.hasSelfMarker entries with
  | true =>
    rw [hm, if_pos rfl] at hl
    exact bind_eq_ok.2 ⟨_, foldlM_layerEntry hs hl _, rfl⟩
  | false =>
    -- The document's own keys come after the layers of the list.
    rw [hm, if_neg (by simp)] at hl
    obtain ⟨front, c, rfl, hfront, hc⟩ := forall₂_concat hl
    cases hc
    refine bind_eq_ok.2 ⟨_, foldlM_layerEntry hs hfront _, ?_⟩
    rw [List.foldl_append]
    rfl

/-- **The two strategies agree on their common ground.** Whatever is composed strictly without
overrides is composed leniently to the same value, with the same order of keys. -/
theorem compose_eq_strict {document v : Value} (hd : t.document? p = some document)
    (hg : CommonGround t root document) (h : Strict.compose t root p [] = .ok v) :
    compose t root p [] = .ok v := by
  obtain ⟨document', own, plan, hd', hown, hplan, hv⟩ := Strict.compose_nil_eq_ok.1 h
  obtain rfl : document = document' := Option.some.inj (hd.symm.trans hd')
  obtain ⟨s, hs⟩ := FileTree.document?_eq_some.1 hd
  refine bind_eq_ok.2 ⟨(s, document), Strict.readDocument_eq_ok.2 hs, ?_⟩
  refine bind_eq_ok.2 ⟨v, ?_, rfl⟩
  rw [ofDocument?_baseOf hown]
  have hstep : ∀ e ∈ Defaults.entriesOf document, ∀ plan q, Plan.add t root plan e = .ok q →
      ∃ step, q = plan ++ [step] ∧ SameStep t root own e step := by
    intro e he plan q hq
    refine sameStep_of_add ?_ ?_ ?_ ?_ hq
    · rintro s rfl
      exact hg.noOverride s he
    · rintro s rfl
      exact hg.oneSegment s he
    · rintro s rfl
      exact hg.groupFile s he
    · rintro name rfl
      exact hg.rootFile name he
  by_cases hne : Defaults.entriesOf document = []
  · -- Without a list the document stays as it is.
    have habs := hg.listed.resolve_right fun h => h hne
    rw [hne]
    change Plan.ofEntries t root (Defaults.entriesOf document) = .ok plan at hplan
    rw [hne] at hplan
    cases hplan
    obtain ⟨layers, hl, rfl⟩ := Strict.layer_eq_ok.1 hv
    cases hl with
    | cons hc hnil =>
      cases hnil
      cases hc
      exact congrArg Except.ok (baseOf_of_no_list (FileTree.document?_keyed hd) habs hown)
  · exact layer_eq_strict hne (withoutList_baseOf hown) hstep hplan hv

/-- The root document of `Strict.interleaved`. -/
def interleavedRoot : Value := .mapping [
  (.string "defaults", .sequence [.string "base", .string "_self_",
    .mapping [(.string "model", .string "wide")]]),
  (.string "model", .number (.int 1))]

theorem interleaved_commonGround : CommonGround Strict.interleaved "/conf" interleavedRoot := by
  have hlist : Defaults.entriesOf interleavedRoot =
      [.bare "base", .selfMarker, .group ⟨"model", "wide", false, .mapping⟩] := by decide +kernel
  have hgroup : ∀ s, .group s ∈ Defaults.entriesOf interleavedRoot →
      s = ⟨"model", "wide", false, .mapping⟩ := by
    intro s hs
    simpa only [hlist, List.mem_cons, reduceCtorEq, DefaultsEntry.group.injEq, false_or,
      List.not_mem_nil, or_false] using hs
  have hbare : ∀ name, .bare name ∈ Defaults.entriesOf interleavedRoot →
      name = "base".toList := by
    intro name hs
    simpa only [hlist, List.mem_cons, reduceCtorEq, DefaultsEntry.bare.injEq, List.not_mem_nil,
      or_false] using hs
  constructor
  · exact Or.inr (by simp [hlist])
  · intro s hs
    rw [hgroup s hs]
  · intro s hs
    rw [hgroup s hs]
    decide
  · intro s hs
    rw [hgroup s hs]
    decide +kernel
  · intro name hs
    rw [hbare name hs]
    decide +kernel

theorem compose_eq_strict_interleaved :
    let v : Value := .mapping [
      (.string "model", .mapping [(.string "width", .number (.int 4))]),
      (.string "rate", .number (.int 2))]
    Strict.interleaved.document? "/conf/config.yaml" = some interleavedRoot ∧
    CommonGround Strict.interleaved "/conf" interleavedRoot ∧
    Strict.compose Strict.interleaved "/conf" "/conf/config.yaml" [] = .ok v ∧
    compose Strict.interleaved "/conf" "/conf/config.yaml" [] = .ok v := by
  have hd : Strict.interleaved.document? "/conf/config.yaml" = some interleavedRoot := by
    decide +kernel
  have hv : Strict.compose Strict.interleaved "/conf" "/conf/config.yaml" [] = .ok (.mapping [
      (.string "model", .mapping [(.string "width", .number (.int 4))]),
      (.string "rate", .number (.int 2))]) := by decide +kernel
  exact ⟨hd, interleaved_commonGround, hv, compose_eq_strict hd interleaved_commonGround hv⟩

end Lenient
end LayeredConfig
