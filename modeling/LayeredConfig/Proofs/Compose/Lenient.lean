import LayeredConfig.Proofs.Compose.Agreement
import LayeredConfig.Proofs.Compose.Steps
import LayeredConfig.Proofs.Files.Tree

/-!
# The layers of a lenient composition

Each entry of a defaults list adds one layer or none, and which one does not depend on what lies
below it. The document's own keys are the layer of the marker `_self_`, which stands at the end of a
list that does not have it. Over all of them lie the assignments, as one document.
-/
namespace LayeredConfig

open Outcome

/-- What has been composed, with one more layer over it if there is one. -/
def Value.under (acc : Value) : Option Value → Value
  | some c => acc.merge c
  | none => acc

namespace Lenient

/-- The layer that an entry adds, if it adds one. -/
def layerOf (t : FileTree) (root : Path) (own : Value) :
    DefaultsEntry → Except ComposeError (Option Value)
  | .selfMarker => .ok (some own)
  | .bare name => readModule? t root Defaults.rootGroup name
  | .group s =>
    if s.isOverride then .ok none
    else (readModule? t root s.group s.name).map (Option.map (Value.nest [s.group]))
  | .unrecognized _ => .ok none

variable {t : FileTree} {root p : Path} {raws : List Text} {document own acc d : Value}

theorem mergeModule_eq (group name : Text) (package : List Text) (acc : Value) :
    mergeModule t root group name package acc =
      ((readModule? t root group name).map (Option.map (Value.nest package))).map acc.under := by
  unfold mergeModule
  cases readModule? t root group name with
  | error e => rfl
  | ok v => cases v <;> rfl

/-- Laying an entry is laying its layer. -/
theorem layerEntry_eq (e : DefaultsEntry) (acc : Value) :
    layerEntry t root own acc e = (layerOf t root own e).map acc.under := by
  cases e with
  | selfMarker => rfl
  | unrecognized raw => rfl
  | bare name =>
    rw [layerEntry, layerOf, mergeModule_eq]
    cases readModule? t root Defaults.rootGroup name with
    | error e => rfl
    | ok v => cases v <;> rfl
  | group s =>
    simp only [layerEntry, layerOf]
    split
    · rfl
    · exact mergeModule_eq s.group s.name [s.group] acc

/-- One more entry at the end. -/
theorem foldlM_layerEntry_concat {es : List DefaultsEntry} {e : DefaultsEntry} :
    (es ++ [e]).foldlM (layerEntry t root own) (.mapping []) = .ok acc ↔
      ∃ mid c, es.foldlM (layerEntry t root own) (.mapping []) = .ok mid ∧
        layerOf t root own e = .ok c ∧ acc = mid.under c := by
  rw [List.foldlM_append, bind_eq_ok]
  simp only [List.foldlM_cons, List.foldlM_nil, layerEntry_eq, bind_eq_ok, map_eq_ok]
  constructor
  · rintro ⟨mid, hmid, -, ⟨c, hc, rfl⟩, ⟨⟩⟩
    exact ⟨mid, c, hmid, hc, rfl⟩
  · rintro ⟨mid, c, hmid, hc, rfl⟩
    exact ⟨mid, hmid, _, ⟨c, hc, rfl⟩, rfl⟩

/-- A module that is read is the value of its file. -/
theorem readModule?_eq_some {group name : Text} {v : Value} :
    readModule? t root group name = .ok (some v) ↔
      t.document? (modulePath root group name) = some v := by
  rw [FileTree.document?_eq_some, readModule?]
  split
  · rw [map_eq_ok]
    constructor
    · rintro ⟨⟨s, w⟩, hw, ⟨⟩⟩
      exact ⟨s, Strict.readDocument_eq_ok.1 hw⟩
    · rintro ⟨s, hs⟩
      exact ⟨(s, v), Strict.readDocument_eq_ok.2 hs, rfl⟩
  · next hfile =>
    refine iff_of_false (by simp) ?_
    rintro ⟨s, hs, -⟩
    exact hfile (FileTree.isFile_iff.2 ⟨_, FileTree.readText_eq_ok.1 hs⟩)

theorem withoutList_keyed {v : Value} (h : v.Keyed) : (withoutList v).Keyed := by
  cases v with
  | mapping es => exact h.erase _
  | _ => exact h

theorem baseOf_keyed {v : Value} (h : v.Keyed) : (baseOf v).Keyed := by
  cases v with
  | mapping es => exact h
  | null => exact Value.keyed_empty
  | _ => exact Value.nest_keyed h _

/-- The layers have no key twice. -/
theorem layerOf_keyed (hown : own.Keyed) {e : DefaultsEntry} {c : Value}
    (h : layerOf t root own e = .ok (some c)) : c.Keyed := by
  cases e with
  | selfMarker =>
    cases h
    exact hown
  | bare name => exact FileTree.document?_keyed (readModule?_eq_some.1 h)
  | group s =>
    simp only [layerOf] at h
    split at h
    · cases h
    · obtain ⟨v, hv, hc⟩ := map_eq_ok.1 h
      obtain ⟨w, rfl, rfl⟩ := Option.map_eq_some_iff.1 hc
      exact Value.nest_keyed (FileTree.document?_keyed (readModule?_eq_some.1 hv)) _
  | unrecognized raw => cases h

/-- The layers of a list are those of its entries, with the own keys at the end if the list does not
say where they go. -/
theorem layer_eq_foldlM {base : Value} {es : List DefaultsEntry} (hne : es ≠ []) :
    layer t root base es =
      (Defaults.withSelfMarker es).foldlM (layerEntry t root (withoutList base)) (.mapping []) := by
  have hempty : es.isEmpty = false := by simp [hne]
  unfold layer Defaults.withSelfMarker
  rw [hempty, if_neg Bool.false_ne_true]
  cases Defaults.hasSelfMarker es with
  | true =>
    simp only [if_true]
    exact bind_pure _
  | false =>
    rw [if_neg Bool.false_ne_true, List.foldlM_append]
    rfl

theorem compose_of_document? (h : t.document? p = some document) (raws : List Text) :
    compose t root p raws = composeValue t root document raws := by
  obtain ⟨s, hs⟩ := FileTree.document?_eq_some.1 h
  rw [compose, Strict.readDocument_eq_ok.2 hs]
  rfl

theorem compose_eq_ok :
    compose t root p raws = .ok d ↔
      ∃ document, t.document? p = some document ∧ composeValue t root document raws = .ok d := by
  constructor
  · intro h
    obtain ⟨⟨s, document⟩, hd, h⟩ := bind_eq_ok.1 h
    exact ⟨document, FileTree.document?_eq_some.2 ⟨s, Strict.readDocument_eq_ok.1 hd⟩, h⟩
  · rintro ⟨document, hd, h⟩
    rw [compose_of_document? hd, h]

/-- A composed document with the assignments over it. -/
def assigned (raws : List Text) (v : Value) : Value :=
  if (raws.filterMap Assignment.parse?).isEmpty then v
  else v.merge (Assignment.tree (raws.filterMap Assignment.parse?))

theorem composeValue_eq (raws : List Text) :
    composeValue t root document raws =
      (layer t root (baseOf document) (Defaults.entriesOf (baseOf document))).map
        (assigned raws) := by
  unfold composeValue Defaults.entriesOf
  dsimp only
  cases layer t root (baseOf document) ((Defaults.ofDocument? (baseOf document)).getD []) <;> rfl

end Lenient
end LayeredConfig
