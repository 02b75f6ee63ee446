import LayeredConfig.Compose.Preview
import LayeredConfig.Defaults.Resolved
import LayeredConfig.Proofs.Compose.Agreement
import LayeredConfig.Proofs.Files.Tree

/-!
# What a preview depends on

Without overrides, a preview reads the root document and looks for the files that the entries of its
defaults list name. Trees that agree on these files show the same text, whatever else they hold.
-/
namespace LayeredConfig

open Outcome

variable {t t' : FileTree} {root p : Path}

namespace FileTree

/-- The trees hold the same file at a path, or both have none that can be read there. -/
def SameAt (t t' : FileTree) (p : Path) : Prop := ∀ c, t'.read p = .ok c ↔ t.read p = .ok c

theorem SameAt.isFile (h : SameAt t t' p) : t'.isFile p = t.isFile p := by
  rw [Bool.eq_iff_iff, isFile_iff, isFile_iff]
  exact exists_congr h

theorem SameAt.readText (h : SameAt t t' p) (hp : t.isFile p = true) :
    t'.readText p = t.readText p := by
  obtain ⟨c, hc⟩ := isFile_iff.1 hp
  rw [FileTree.readText, FileTree.readText, (h c).2 hc, hc]

end FileTree

/-- Where the file of an entry is looked for. -/
def DefaultsEntry.file? (root : Path) : DefaultsEntry → Option Path
  | .bare name => some (modulePath root Defaults.rootGroup name)
  | .group s => some (modulePath root s.group s.name)
  | .selfMarker | .unrecognized _ => none

/-- The modules of a document are selected by its entries. -/
theorem ConfigModule.resolve_of_document? {document : Value} (hd : t.document? p = some document) :
    resolve t root p = (Defaults.entriesOf document).filterMap (select? t root) := by
  rw [resolve, hd, Option.bind_some, Defaults.entriesOf]
  cases Defaults.ofDocument? document <;> rfl

/-- An entry whose file is there selects a module with that file. -/
theorem ConfigModule.exists_select? {e : DefaultsEntry} {f : Path} (hf : e.file? root = some f)
    (hfile : t.isFile f = true) : ∃ m, select? t root e = some m ∧ m.path = some f := by
  cases e with
  | bare name =>
    cases hf
    have hpath : (locate t root Defaults.rootGroup name false).path =
        some (modulePath root Defaults.rootGroup name) := if_pos hfile
    refine ⟨_, if_pos ?_, hpath⟩
    rw [resolved, hpath]
    rfl
  | group s =>
    cases hf
    exact ⟨_, rfl, if_pos hfile⟩
  | selfMarker => cases hf
  | unrecognized raw => cases hf

/-- The trees agree on the files of the entries. -/
def Defaults.SameFiles (t t' : FileTree) (root : Path) (entries : List DefaultsEntry) : Prop :=
  ∀ e ∈ entries, ∀ f, e.file? root = some f → t.SameAt t' f

theorem Strict.readDocument_congr (h : t'.readText p = t.readText p) :
    readDocument t' p = readDocument t p := by
  rw [readDocument, readDocument, h]

theorem Strict.readFragment_congr (h : t'.readText p = t.readText p) (label : Text) :
    readFragment t' p label = readFragment t p label := by
  rw [readFragment, readFragment, readDocument_congr h]

namespace Plan

variable {plan q : Plan} {e : DefaultsEntry}

theorem add_congr (h : ∀ f, e.file? root = some f → t.SameAt t' f) (plan : Plan) :
    add t' root plan e = add t root plan e := by
  cases e with
  | bare name => simp only [add, (h _ rfl).isFile]
  | _ => rfl

theorem mem_switch {group name : Text} {step : Step} (h : step ∈ plan.switch group name) :
    step = .group group name ∨ step ∈ plan := by
  induction plan with
  | nil => cases h
  | cons s plan ih =>
    unfold switch at h
    split at h
    · exact (List.mem_cons.1 h).imp_right (List.mem_cons_of_mem _)
    · rcases List.mem_cons.1 h with rfl | h
      · exact Or.inr List.mem_cons_self
      · exact (ih h).imp_right (List.mem_cons_of_mem _)

end Plan

namespace Strict

/-- A step that contributes the same from both trees. -/
def SameContribution (t t' : FileTree) (root : Path) (step : Step) : Prop :=
  ∀ own, contribution t' root own step = contribution t root own step

theorem sameContribution_group {group name : Text}
    (h : t.SameAt t' (modulePath root group name)) :
    SameContribution t t' root (.group group name) := by
  intro own
  simp only [contribution, h.isFile]
  split
  · next hfile => rw [readFragment_congr (h.readText hfile)]
  · rfl

/-- The steps that an entry brings into a plan. -/
theorem sameContribution_of_add {plan q : Plan} {e : DefaultsEntry}
    (h : ∀ f, e.file? root = some f → t.SameAt t' f) (hq : plan.add t root e = .ok q) :
    ∀ step ∈ q, step ∈ plan ∨ SameContribution t t' root step := by
  intro step hstep
  cases Plan.add_eq_ok.1 hq with
  | selfMarker =>
    refine (List.mem_append.1 hstep).imp_right fun hlast => ?_
    obtain rfl := List.mem_singleton.1 hlast
    exact fun own => rfl
  | bare hfile =>
    refine (List.mem_append.1 hstep).imp_right fun hlast => ?_
    obtain rfl := List.mem_singleton.1 hlast
    exact fun own => readFragment_congr ((h _ rfl).readText hfile) _
  | group _ =>
    refine (List.mem_append.1 hstep).imp_right fun hlast => ?_
    obtain rfl := List.mem_singleton.1 hlast
    exact sameContribution_group (h _ rfl)
  | override _ _ =>
    rcases Plan.mem_switch hstep with rfl | hin
    · exact Or.inr (sameContribution_group (h _ rfl))
    · exact Or.inl hin

/-- Every step of the plan of a defaults list contributes the same from both trees. -/
theorem sameContribution_of_ofEntries {entries : List DefaultsEntry} {plan : Plan}
    (h : Defaults.SameFiles t t' root entries)
    (hplan : Plan.ofEntries t root entries = .ok plan) :
    ∀ step ∈ plan, SameContribution t t' root step := by
  obtain ⟨q, hq, hclose⟩ := bind_eq_ok.1 hplan
  have hsteps : ∀ step ∈ q, SameContribution t t' root step := by
    refine foldlM_preserves (P := fun plan : Plan => ∀ step ∈ plan, SameContribution t t' root step)
      (fun e he start next hstart hnext step hstep => ?_) (by simp) hq
    exact (sameContribution_of_add (h e he) hnext step hstep).elim (hstart step) id
  cases hclose
  intro step hstep
  unfold Plan.close at hstep
  split at hstep
  · exact hsteps step hstep
  · rcases List.mem_append.1 hstep with hstep | hlast
    · exact hsteps step hstep
    · obtain rfl := List.mem_singleton.1 hlast
      exact fun own => rfl

theorem ofEntries_congr {entries : List DefaultsEntry}
    (h : Defaults.SameFiles t t' root entries) :
    Plan.ofEntries t' root entries = Plan.ofEntries t root entries := by
  rw [Plan.ofEntries, Plan.ofEntries, foldlM_congr fun e he => Plan.add_congr (h e he)]

theorem layer_congr {own : Value} {plan : Plan}
    (h : ∀ step ∈ plan, SameContribution t t' root step) :
    layer t' root own plan = layer t root own plan :=
  foldlM_congr (fun step hstep acc => by rw [h step hstep own]) _

/-- **What strict composition depends on**: the root document and the files of its entries. -/
theorem compose_congr (hp : t'.readText p = t.readText p)
    (h : ∀ document, t.document? p = some document →
      Defaults.SameFiles t t' root (Defaults.entriesOf document)) :
    compose t' root p [] = compose t root p [] := by
  rw [compose, compose, readDocument_congr hp]
  cases hd : readDocument t p with
  | error e => rfl
  | ok d =>
    obtain ⟨s, document⟩ := d
    have hsame := h document (FileTree.document?_eq_some.2 ⟨s, readDocument_eq_ok.1 hd⟩)
    have hplans : Plan.ofEntries t' root ((Defaults.ofDocument? document).getD []) =
        Plan.ofEntries t root ((Defaults.ofDocument? document).getD []) := ofEntries_congr hsame
    simp only [ok_bind, composeValue, hplans]
    cases ownKeys p document with
    | error e => rfl
    | ok own =>
      cases hplan : Plan.ofEntries t root ((Defaults.ofDocument? document).getD []) with
      | error e => rfl
      | ok plan =>
        have hlayer : layer t' root own plan = layer t root own plan :=
          layer_congr (sameContribution_of_ofEntries hsame hplan)
        exact congrArg (· >>= fun v => ([] : List Override).foldlM applyOverride v) hlayer

end Strict

namespace Lenient

theorem mergeModule_congr {group name : Text} (h : t.SameAt t' (modulePath root group name))
    (package : List Text) (acc : Value) :
    mergeModule t' root group name package acc = mergeModule t root group name package acc := by
  have hread : readModule? t' root group name = readModule? t root group name := by
    unfold readModule?
    simp only [h.isFile]
    split
    · next hfile => rw [Strict.readDocument_congr (h.readText hfile)]
    · rfl
  rw [mergeModule, mergeModule, hread]

theorem layerEntry_congr {e : DefaultsEntry} (h : ∀ f, e.file? root = some f → t.SameAt t' f)
    (own acc : Value) : layerEntry t' root own acc e = layerEntry t root own acc e := by
  cases e with
  | bare name => exact mergeModule_congr (h _ rfl) _ _
  | group s =>
    simp only [layerEntry]
    split
    · rfl
    · exact mergeModule_congr (h _ rfl) _ _
  | _ => rfl

theorem layer_congr {entries : List DefaultsEntry} (h : Defaults.SameFiles t t' root entries)
    (base : Value) : layer t' root base entries = layer t root base entries := by
  have hfold : ∀ own, entries.foldlM (layerEntry t' root own) (.mapping []) =
      entries.foldlM (layerEntry t root own) (.mapping []) := fun own =>
    foldlM_congr (fun e he acc => layerEntry_congr (h e he) own acc) _
  simp only [layer, hfold]

/-- A document that is no mapping has no entries when it is composed. -/
theorem mem_entriesOf {document : Value} {e : DefaultsEntry}
    (h : e ∈ (Defaults.ofDocument? (baseOf document)).getD []) :
    e ∈ Defaults.entriesOf document := by
  cases document with
  | mapping es => exact h
  | _ => cases h

/-- **What lenient composition depends on**: the same as strict composition. -/
theorem compose_congr (hp : t'.readText p = t.readText p)
    (h : ∀ document, t.document? p = some document →
      Defaults.SameFiles t t' root (Defaults.entriesOf document)) (raws : List Text) :
    compose t' root p raws = compose t root p raws := by
  rw [compose, compose, Strict.readDocument_congr hp]
  cases hd : Strict.readDocument t p with
  | error e => rfl
  | ok d =>
    obtain ⟨s, document⟩ := d
    have hsame := h document (FileTree.document?_eq_some.2 ⟨s, Strict.readDocument_eq_ok.1 hd⟩)
    simp only [ok_bind, composeValue]
    rw [layer_congr fun e he => hsame e (mem_entriesOf he)]

end Lenient

/-- **What a preview depends on.** Without overrides, trees with the same root document that agree
on the files of its entries show the same text, with every strategy and in every wording. -/
theorem Preview.merge_congr (env : Environment) (settings : MergeSettings) (wording : Wording)
    (hp : t'.readText p = t.readText p)
    (h : ∀ document, t.document? p = some document →
      Defaults.SameFiles t t' root (Defaults.entriesOf document)) :
    merge env t' root settings (some p) [] wording =
      merge env t root settings (some p) [] wording := by
  have hmanual : manual t' root p [] wording = manual t root p [] wording := by
    rw [manual, manual, Lenient.compose_congr hp h]
  have hnative : ∀ resolve, native env t' root p resolve [] = native env t root p resolve [] := by
    intro resolve
    rw [native, native, Strict.compose_congr hp h]
  simp only [merge, hmanual, hnative]

end LayeredConfig
