import LayeredConfig.Compose.Strict
import LayeredConfig.Proofs.Document.Lookup
import LayeredConfig.Proofs.Yaml.Reader
import Mathlib.Data.List.Forall2

/-!
# The last layer wins

The layers of a strict composition, one for each step of its plan, and what the composition holds
at a path: the value that the last layer touching the path has there. Overrides from outside are
not considered.
-/
namespace LayeredConfig

open Outcome

/-- The entries of a document that is read as a mapping; an empty document has none. -/
def Value.mappingEntries? : Value → Option Entries
  | .mapping es => some es
  | .null => some []
  | _ => none

/-- The entries of the mapping that a module file holds. -/
def FileTree.fragment? (t : FileTree) (p : Path) : Option Entries :=
  (t.document? p).bind Value.mappingEntries?

/-- What a step of a plan adds to the composition of a root document. -/
inductive Contributes (t : FileTree) (root : Path) (document : Value) : Step → Value → Prop
  | ownKeys (es : Entries) : document.mappingEntries? = some es →
    Contributes t root document .ownKeys (.mapping (Entries.erase es (.string Defaults.listKey)))
  | rootFile {name : Text} {es : Entries} :
    t.fragment? (modulePath root Defaults.rootGroup name) = some es →
    Contributes t root document (.rootFile name) (.mapping es)
  | group {group name : Text} {es : Entries} :
    t.fragment? (modulePath root group name) = some es →
    Contributes t root document (.group group name)
      (Value.nest (Defaults.packageOf group) (.mapping es))

namespace FileTree

theorem document?_eq_some {t : FileTree} {p : Path} {v : Value} :
    t.document? p = some v ↔ ∃ s, t.readText p = .ok s ∧ Yaml.read s = .ok v := by
  simp only [document?, Option.bind_eq_bind, Option.bind_eq_some_iff, toOption_eq_some]

theorem document?_keyed {t : FileTree} {p : Path} {v : Value} (h : t.document? p = some v) :
    v.Keyed := by
  obtain ⟨s, -, hv⟩ := document?_eq_some.1 h
  exact Yaml.read_keyed hv

theorem fragment?_keyed {t : FileTree} {p : Path} {es : Entries} (h : t.fragment? p = some es) :
    (Value.mapping es).Keyed := by
  obtain ⟨v, hv, he⟩ := Option.bind_eq_some_iff.1 h
  have hk := document?_keyed hv
  cases v with
  | null =>
    cases he
    exact Value.keyed_empty
  | mapping fs =>
    cases he
    exact hk
  | _ => cases he

end FileTree

theorem Contributes.keyed {t : FileTree} {root : Path} {document : Value} {step : Step}
    {c : Value} (hd : document.Keyed) (h : Contributes t root document step c) : c.Keyed := by
  cases h with
  | ownKeys es he =>
    have hes : (Value.mapping es).Keyed := by
      cases document with
      | null =>
        cases he
        exact Value.keyed_empty
      | mapping fs =>
        cases he
        exact hd
      | _ => cases he
    exact hes.erase _
  | rootFile he => exact FileTree.fragment?_keyed he
  | group he => exact Value.nest_keyed (FileTree.fragment?_keyed he) _

theorem contributes_keyed {t : FileTree} {root : Path} {document : Value} (hd : document.Keyed)
    {plan : Plan} {layers : List Value}
    (h : List.Forall₂ (Contributes t root document) plan layers) : ∀ c ∈ layers, c.Keyed := by
  induction h with
  | nil => simp
  | cons hc _ ih => exact List.forall_mem_cons.2 ⟨hc.keyed hd, ih⟩

namespace Strict

variable {t : FileTree} {root p : Path}

theorem readDocument_eq_ok {s : Text} {v : Value} :
    readDocument t p = .ok (s, v) ↔ t.readText p = .ok s ∧ Yaml.read s = .ok v := by
  unfold readDocument
  rw [bind_eq_ok]
  simp only [mapError_eq_ok, bind_eq_ok, Except.ok.injEq, Prod.mk.injEq]
  constructor
  · rintro ⟨s', hs, v', hv, rfl, rfl⟩
    exact ⟨hs, hv⟩
  · rintro ⟨hs, hv⟩
    exact ⟨s, hs, v, hv, rfl, rfl⟩

/-- A fragment that is accepted is the mapping its file holds. -/
theorem readFragment_eq_ok {label : Text} {v : Value} (h : readFragment t p label = .ok v) :
    ∃ es, v = .mapping es ∧ t.fragment? p = some es := by
  obtain ⟨⟨s, w⟩, hw, h⟩ := bind_eq_ok.1 h
  have hdoc : t.document? p = some w :=
    FileTree.document?_eq_some.2 ⟨s, readDocument_eq_ok.1 hw⟩
  dsimp only at h
  split at h
  · cases h
  cases w with
  | null =>
    cases h
    exact ⟨[], rfl, by rw [FileTree.fragment?, hdoc]; rfl⟩
  | mapping es =>
    dsimp only at h
    split at h
    · cases h
    · cases h
      exact ⟨es, rfl, by rw [FileTree.fragment?, hdoc]; rfl⟩
  | _ => cases h

theorem ownKeys_eq_ok {document own : Value} (h : ownKeys p document = .ok own) :
    Contributes t root document .ownKeys own := by
  cases document with
  | null =>
    cases h
    exact Contributes.ownKeys [] rfl
  | mapping es =>
    cases h
    exact Contributes.ownKeys es rfl
  | _ => cases h

theorem contributes_of_contribution {document own c : Value} {step : Step}
    (hown : ownKeys p document = .ok own) (h : contribution t root own step = .ok c) :
    Contributes t root document step c := by
  cases step with
  | ownKeys =>
    cases h
    exact ownKeys_eq_ok hown
  | rootFile name =>
    obtain ⟨es, rfl, hes⟩ := readFragment_eq_ok h
    exact Contributes.rootFile hes
  | group group name =>
    unfold contribution at h
    dsimp only at h
    split at h
    · obtain ⟨v, hv, h⟩ := bind_eq_ok.1 h
      obtain ⟨es, rfl, hes⟩ := readFragment_eq_ok hv
      cases h
      exact Contributes.group hes
    · cases h

/-- The layers of a plan are laid over each other in its order. -/
theorem layer_from_eq_ok {own base v : Value} {plan : Plan} :
    plan.foldlM (fun acc step => do .ok (acc.merge (← contribution t root own step))) base =
        (.ok v : Except ComposeError Value) ↔
      ∃ layers, List.Forall₂ (fun step c => contribution t root own step = .ok c) plan layers ∧
        v = layers.foldl Value.merge base := by
  induction plan generalizing base with
  | nil =>
    constructor
    · intro h
      cases h
      exact ⟨[], .nil, rfl⟩
    · rintro ⟨layers, hl, rfl⟩
      cases hl
      rfl
  | cons step plan ih =>
    rw [List.foldlM_cons, bind_eq_ok]
    constructor
    · rintro ⟨acc, hacc, h⟩
      obtain ⟨c, hc, hacc⟩ := bind_eq_ok.1 hacc
      cases hacc
      obtain ⟨layers, hl, rfl⟩ := ih.1 h
      exact ⟨c :: layers, .cons hc hl, rfl⟩
    · rintro ⟨layers, hl, rfl⟩
      cases hl with
      | cons hc hl => exact ⟨_, bind_eq_ok.2 ⟨_, hc, rfl⟩, ih.2 ⟨_, hl, rfl⟩⟩

theorem layer_eq_ok {own v : Value} {plan : Plan} :
    layer t root own plan = .ok v ↔
      ∃ layers, List.Forall₂ (fun step c => contribution t root own step = .ok c) plan layers ∧
        v = layers.foldl Value.merge (.mapping []) := layer_from_eq_ok

theorem layer_keyed {document own v : Value} {plan : Plan} (hd : document.Keyed)
    (hown : ownKeys p document = .ok own) (h : layer t root own plan = .ok v) : v.Keyed := by
  obtain ⟨layers, hl, rfl⟩ := layer_eq_ok.1 h
  have hkeyed := contributes_keyed hd (hl.imp fun _ _ => contributes_of_contribution hown)
  exact List.foldlRecOn layers Value.merge Value.keyed_empty fun b hb c hc => hb.merge (hkeyed c hc)

/-- A composition without overrides is the stack of layers of its plan. -/
theorem compose_nil_eq_ok {v : Value} :
    compose t root p [] = .ok v ↔
      ∃ document own plan, t.document? p = some document ∧ ownKeys p document = .ok own ∧
        Plan.ofEntries t root ((Defaults.ofDocument? document).getD []) = .ok plan ∧
        layer t root own plan = .ok v := by
  constructor
  · intro h
    obtain ⟨⟨s, document⟩, hd, h⟩ := bind_eq_ok.1 h
    obtain ⟨own, hown, h⟩ := bind_eq_ok.1 h
    obtain ⟨overrides, ho, h⟩ := bind_eq_ok.1 h
    cases ho
    obtain ⟨plan, hplan, h⟩ := bind_eq_ok.1 h
    obtain ⟨⟨q, rest⟩, hrest, h⟩ := bind_eq_ok.1 h
    cases hrest
    obtain ⟨w, hv, h⟩ := bind_eq_ok.1 h
    cases h
    exact ⟨document, own, plan,
      FileTree.document?_eq_some.2 ⟨s, readDocument_eq_ok.1 hd⟩, hown, hplan, hv⟩
  · rintro ⟨document, own, plan, hd, hown, hplan, hv⟩
    obtain ⟨s, hs⟩ := FileTree.document?_eq_some.1 hd
    refine bind_eq_ok.2 ⟨(s, document), readDocument_eq_ok.2 hs, ?_⟩
    refine bind_eq_ok.2 ⟨own, hown, bind_eq_ok.2 ⟨[], rfl, bind_eq_ok.2 ⟨plan, hplan, ?_⟩⟩⟩
    exact bind_eq_ok.2 ⟨(plan, []), rfl, bind_eq_ok.2 ⟨v, hv, rfl⟩⟩

/-- **The last layer that touches a path decides it.** The composition has a value that is no
mapping at a path exactly if one of the layers has it there and no later one touches the path. -/
theorem compose_last_wins {v : Value} (h : compose t root p [] = .ok v) :
    ∃ document plan layers, t.document? p = some document ∧
      Plan.ofEntries t root ((Defaults.ofDocument? document).getD []) = .ok plan ∧
      List.Forall₂ (Contributes t root document) plan layers ∧ v.StackedBy layers := by
  obtain ⟨document, own, plan, hd, hown, hplan, hv⟩ := compose_nil_eq_ok.1 h
  obtain ⟨layers, hl, rfl⟩ := layer_eq_ok.1 hv
  have hc : List.Forall₂ (Contributes t root document) plan layers :=
    hl.imp fun _ _ => contributes_of_contribution hown
  have hkeyed := contributes_keyed (FileTree.document?_keyed hd) hc
  exact ⟨document, plan, layers, hd, hplan, hc, Value.stackedBy_foldl_merge hkeyed⟩

/-- A root document whose own keys come between two modules: the first is a subtree that a scalar
erases, the second a subtree that takes its place. -/
def interleaved : FileTree where
  entries := [
    (["conf".toList], .directory),
    (["conf".toList, "config.yaml".toList],
      .file (.text "defaults:\n- base\n- _self_\n- model: wide\nmodel: 1\n")),
    (["conf".toList, "base.yaml".toList], .file (.text "model: {depth: 3}\nrate: 2\n")),
    (["conf".toList, "model".toList], .directory),
    (["conf".toList, "model".toList, "wide.yaml".toList], .file (.text "width: 4\n"))]
  workingDirectory := []

theorem compose_last_wins_interleaved :
    let v : Value := .mapping [
      (.string "model", .mapping [(.string "width", .number (.int 4))]),
      (.string "rate", .number (.int 2))]
    compose interleaved "/conf" "/conf/config.yaml" [] = .ok v ∧
    ∃ document plan layers, interleaved.document? "/conf/config.yaml" = some document ∧
      Plan.ofEntries interleaved "/conf" ((Defaults.ofDocument? document).getD []) = .ok plan ∧
      List.Forall₂ (Contributes interleaved "/conf" document) plan layers ∧
      v.StackedBy layers := by
  have h : compose interleaved "/conf" "/conf/config.yaml" [] = .ok (.mapping [
      (.string "model", .mapping [(.string "width", .number (.int 4))]),
      (.string "rate", .number (.int 2))]) := by decide +kernel
  exact ⟨h, compose_last_wins h⟩

end Strict
end LayeredConfig
