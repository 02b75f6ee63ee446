import LayeredConfig.Proofs.Compose.Assigned
import LayeredConfig.Proofs.Compose.Reads
import LayeredConfig.Proofs.Document.Shown
import LayeredConfig.Proofs.Files.Overwrite
import Mathlib.Data.List.Induction

/-!
# Modules without content

A file without content is null as a document. Two compositions are compared, one with null and one
with an empty mapping in the same file. They fail alike, and they differ in nothing but what null
has wiped out: paths that lead into the package of the module, where something was composed before,
and which no later layer touches.
-/
namespace LayeredConfig

open Outcome Value

variable {t t' : FileTree} {root p f : Path} {own : Value} {keys : List Value}

/-- The trees differ in documents only that are null in the first and an empty mapping in the
second. -/
structure FileTree.Filled (t t' : FileTree) : Prop where
  isFile : ∀ q, t'.isFile q = t.isFile q
  reads : ∀ q, Strict.readDocument t' q = Strict.readDocument t q ∨
    t.document? q = some .null ∧ t'.document? q = some (.mapping [])

/-- A null document is overwritten with an empty mapping. -/
theorem FileTree.filled_of_write {s : Text} (hf : t.document? f = some .null)
    (hs : Yaml.read s = .ok (.mapping [])) (hw : t.write f (.text s) = .ok t') : Filled t t' := by
  obtain ⟨old, hold, hnull⟩ := document?_eq_some.1 hf
  have hread := readText_eq_ok.1 hold
  have h := overwritten_of_write (isFile_iff.2 ⟨_, hread⟩) hw
  refine ⟨h.isFile, fun q => ?_⟩
  rcases h.stat q with hsame | ⟨hnew, c, hc, hstat⟩
  · left
    apply Strict.readDocument_congr
    rw [readText, readText, read, read, hsame]
  · right
    -- The path leads to the file, so that it reads the same text as `f` does.
    rw [(read_eq_ok hread).2] at hc
    cases hc
    constructor
    · refine document?_eq_some.2 ⟨old, readText_eq_ok.2 ?_, hnull⟩
      rw [read, hstat]
      rfl
    · refine document?_eq_some.2 ⟨s, readText_eq_ok.2 ?_, hs⟩
      rw [read, hnew]
      rfl

namespace Lenient

/-- The entry adds a module below the package, and its document is null in the first tree and an
empty mapping in the second. -/
inductive LoadsEmpty (t t' : FileTree) (root : Path) : DefaultsEntry → List Text → Prop
  | bare {name : Text} : t.document? (modulePath root Defaults.rootGroup name) = some .null →
    t'.document? (modulePath root Defaults.rootGroup name) = some (.mapping []) →
    LoadsEmpty t t' root (.bare name) []
  | group {s : GroupSelection} : s.isOverride = false →
    t.document? (modulePath root s.group s.name) = some .null →
    t'.document? (modulePath root s.group s.name) = some (.mapping []) →
    LoadsEmpty t t' root (.group s) [s.group]

/-- What is lost at a path because of one entry of a list: the path leads into the package of the
entry, to the package itself or to something composed before, and no later entry touches it. -/
structure WipedBy (t t' : FileTree) (root : Path) (own : Value) (keys : List Value)
    (before : List DefaultsEntry) (e : DefaultsEntry) (after : List DefaultsEntry)
    (package : List Text) : Prop where
  loads : LoadsEmpty t t' root e package
  inside : stringKeys package <+: keys
  something : keys = stringKeys package ∨
    ∃ acc, before.foldlM (layerEntry t' root own) (.mapping []) = .ok acc ∧ acc.atKeys? keys ≠ none
  last : ∀ x ∈ after, ∀ c, layerOf t root own x = .ok (some c) → ¬ c.Touches keys

/-- What is lost at a path because of some entry of a list. -/
def Wiped (t t' : FileTree) (root : Path) (own : Value) (keys : List Value)
    (es : List DefaultsEntry) : Prop :=
  ∃ before e after package, es = before ++ e :: after ∧
    WipedBy t t' root own keys before e after package

theorem LoadsEmpty.layerOf {e : DefaultsEntry} {package : List Text}
    (h : LoadsEmpty t t' root e package) (own : Value) :
    layerOf t root own e = .ok (some (nest package .null)) ∧
      layerOf t' root own e = .ok (some (nest package (.mapping []))) := by
  cases h with
  | bare hnull hempty => exact ⟨readModule?_eq_some.2 hnull, readModule?_eq_some.2 hempty⟩
  | @group s hplain hnull hempty =>
    have hlayer : ∀ u : FileTree, Lenient.layerOf u root own (.group s) =
        (readModule? u root s.group s.name).map (Option.map (nest [s.group])) := by
      intro u
      rw [Lenient.layerOf, hplain, if_neg Bool.false_ne_true]
    rw [hlayer, hlayer, readModule?_eq_some.2 hnull, readModule?_eq_some.2 hempty]
    exact ⟨rfl, rfl⟩

theorem LoadsEmpty.unique {e : DefaultsEntry} {package other : List Text}
    (h : LoadsEmpty t t' root e package) (h' : LoadsEmpty t t' root e other) : package = other := by
  cases h <;> cases h' <;> rfl

theorem readModule?_filled (h : t.Filled t') (root : Path) (group name : Text) :
    readModule? t' root group name = readModule? t root group name ∨
      t.document? (modulePath root group name) = some .null ∧
        t'.document? (modulePath root group name) = some (.mapping []) := by
  refine (h.reads (modulePath root group name)).imp_left fun hsame => ?_
  rw [readModule?, readModule?, h.isFile, hsame]

/-- An entry adds the same layer in both trees, if it is not one of those that load null. -/
theorem layerOf_filled (h : t.Filled t') (root : Path) (own : Value) (e : DefaultsEntry) :
    layerOf t' root own e = layerOf t root own e ∨ ∃ package, LoadsEmpty t t' root e package := by
  cases e with
  | selfMarker => exact Or.inl rfl
  | unrecognized raw => exact Or.inl rfl
  | bare name =>
    refine (readModule?_filled h root Defaults.rootGroup name).imp_right ?_
    rintro ⟨hnull, hempty⟩
    exact ⟨[], .bare hnull hempty⟩
  | group s =>
    cases hplain : s.isOverride with
    | true => simp [layerOf, hplain]
    | false =>
      refine (readModule?_filled h root s.group s.name).imp (fun hsame => ?_) ?_
      · simp only [layerOf, hsame]
      · rintro ⟨hnull, hempty⟩
        exact ⟨[s.group], .group hplain hnull hempty⟩

theorem not_loadsEmpty_of_same {e : DefaultsEntry}
    (h : layerOf t' root own e = layerOf t root own e)
    (package : List Text) : ¬ LoadsEmpty t t' root e package := by
  intro hloads
  obtain ⟨hnull, hempty⟩ := hloads.layerOf own
  rw [hnull, hempty] at h
  have hat := congrArg (fun v => v.atKeys? (stringKeys package))
    (Option.some.inj (Except.ok.inj h))
  simp only [atKeys?_nest] at hat
  cases hat

/-- Compositions of the two trees fail alike. -/
theorem foldlM_filled (h : t.Filled t') (es : List DefaultsEntry) (acc acc' : Value) :
    (es.foldlM (layerEntry t root own) acc).map (fun _ => ()) =
      (es.foldlM (layerEntry t' root own) acc').map (fun _ => ()) := by
  induction es generalizing acc acc' with
  | nil => rfl
  | cons e es ih =>
    simp only [List.foldlM_cons, layerEntry_eq]
    rcases layerOf_filled h root own e with hsame | ⟨package, hloads⟩
    · rw [hsame]
      cases layerOf t root own e with
      | error err => rfl
      | ok c => exact ih _ _
    · obtain ⟨hnull, hempty⟩ := hloads.layerOf own
      rw [hnull, hempty]
      exact ih _ _

/-- One more entry wipes out something itself, or leaves what was wiped out before. -/
theorem wiped_concat {es : List DefaultsEntry} {e : DefaultsEntry} :
    Wiped t t' root own keys (es ++ [e]) ↔
      (∃ package, WipedBy t t' root own keys es e [] package) ∨
      Wiped t t' root own keys es ∧
      ∀ c, layerOf t root own e = .ok (some c) → ¬ c.Touches keys := by
  constructor
  · rintro ⟨before, x, after, package, hsplit, hw⟩
    rcases List.eq_nil_or_concat after with rfl | ⟨after, y, rfl⟩
    · obtain ⟨rfl, hx⟩ := List.append_inj' hsplit rfl
      cases hx
      exact Or.inl ⟨package, hw⟩
    · have hassoc : before ++ x :: (after ++ [y]) = (before ++ x :: after) ++ [y] := by simp
      rw [List.concat_eq_append, hassoc] at hsplit
      obtain ⟨rfl, hy⟩ := List.append_inj' hsplit rfl
      cases hy
      rw [List.concat_eq_append] at hw
      refine Or.inr ⟨⟨before, x, after, package, rfl, hw.loads, hw.inside, hw.something, ?_⟩, ?_⟩
      · exact fun z hz => hw.last z (List.mem_append_left _ hz)
      · exact hw.last e (List.mem_append_right _ List.mem_cons_self)
  · rintro (⟨package, hw⟩ | ⟨⟨before, x, after, package, rfl, hw⟩, hlast⟩)
    · exact ⟨es, e, [], package, rfl, hw⟩
    · refine ⟨before, x, after ++ [e], package, by simp, hw.loads, hw.inside, hw.something, ?_⟩
      intro z hz
      rcases List.mem_append.1 hz with hz | hz
      · exact hw.last z hz
      · rw [List.mem_singleton.1 hz]
        exact hlast

/-- Where the last entry touches the path, nothing is lost. -/
theorem not_wiped_concat {es : List DefaultsEntry} {e : DefaultsEntry} {c : Value}
    (hloads : ∀ package, ¬ LoadsEmpty t t' root e package)
    (hc : layerOf t root own e = .ok (some c)) (htouch : c.Touches keys) :
    ¬ Wiped t t' root own keys (es ++ [e]) := by
  rw [wiped_concat]
  rintro (⟨package, hw⟩ | ⟨-, hlast⟩)
  · exact hloads package hw.loads
  · exact hlast c hc htouch

/-- A layer that is alike in both trees keeps the difference, unless it touches the path. -/
theorem shownAt?_eq_iff_of_alike {es : List DefaultsEntry} {e : DefaultsEntry}
    {c c' mid mid' : Value}
    (hc : layerOf t root own e = .ok (some c)) (halike : AlikeAt keys c c') (hk : c.Keyed)
    (hk' : c'.Keyed) (hno : ¬ ∃ package, WipedBy t t' root own keys es e [] package)
    (hmid : mid.shownAt? keys = mid'.shownAt? keys ↔ ¬ Wiped t t' root own keys es) :
    (mid.merge c).shownAt? keys = (mid'.merge c').shownAt? keys ↔
      ¬ Wiped t t' root own keys (es ++ [e]) := by
  rw [halike.shownAt?_merge hk hk', hmid, wiped_concat, or_iff_right hno, hc]
  simp only [Except.ok.injEq, Option.some.injEq, forall_eq']
  tauto

/-- Inside of the package, an entry that loads null wipes out what was there, and nothing else
counts. -/
theorem shownAt?_eq_iff_of_inside {es : List DefaultsEntry} {e : DefaultsEntry}
    {package : List Text}
    {mid' : Value} (hloads : LoadsEmpty t t' root e package) (hin : stringKeys package <+: keys)
    (hmid' : es.foldlM (layerEntry t' root own) (.mapping []) = .ok mid') (mid : Value) :
    (mid.merge (nest package .null)).shownAt? keys =
        (mid'.merge (nest package (.mapping []))).shownAt? keys ↔
      ¬ Wiped t t' root own keys (es ++ [e]) := by
  -- Null touches the path, so that what earlier entries have wiped out does not count any more.
  have htouch : ¬ ∀ c, layerOf t root own e = .ok (some c) → ¬ c.Touches keys := fun hlast =>
    hlast _ (hloads.layerOf own).1 (touches_nest_null hin)
  rw [wiped_concat, or_iff_left fun hw => htouch hw.2, shownAt?_merge_null_eq_empty hin]
  constructor
  · rintro ⟨hne, hnone⟩ ⟨other, hw⟩
    obtain rfl := hloads.unique hw.loads
    rcases hw.something with heq | ⟨acc, hacc, hat⟩
    · exact hne heq
    · rw [hmid'] at hacc
      cases hacc
      exact hat hnone
  · intro hno
    constructor
    · exact fun heq => hno ⟨package, hloads, hin, Or.inl heq, by simp⟩
    · by_contra hat
      exact hno ⟨package, hloads, hin, Or.inr ⟨mid', hmid', hat⟩, by simp⟩

/-- The layers of a list show the same in both trees where nothing has been wiped out. -/
theorem shownAt?_eq_iff_not_wiped (h : t.Filled t') (hown : own.Keyed) {es : List DefaultsEntry}
    {acc acc' : Value} (hacc : es.foldlM (layerEntry t root own) (.mapping []) = .ok acc)
    (hacc' : es.foldlM (layerEntry t' root own) (.mapping []) = .ok acc') :
    acc.shownAt? keys = acc'.shownAt? keys ↔ ¬ Wiped t t' root own keys es := by
  induction es using List.reverseRecOn generalizing acc acc' with
  | nil =>
    cases hacc
    cases hacc'
    refine iff_of_true rfl ?_
    rintro ⟨before, e, after, package, hsplit, -⟩
    simp at hsplit
  | append_singleton es e ih =>
    obtain ⟨mid, c, hmid, hc, rfl⟩ := foldlM_layerEntry_concat.1 hacc
    obtain ⟨mid', c', hmid', hc', rfl⟩ := foldlM_layerEntry_concat.1 hacc'
    have ih := ih hmid hmid'
    rcases layerOf_filled h root own e with hsame | ⟨package, hloads⟩
    · have hno : ¬ ∃ package, WipedBy t t' root own keys es e [] package := by
        rintro ⟨package, hw⟩
        exact not_loadsEmpty_of_same hsame package hw.loads
      rw [hsame, hc] at hc'
      cases hc'
      cases c with
      | none =>
        rw [wiped_concat, or_iff_right hno, hc]
        simpa [under] using ih
      | some c =>
        have hk := layerOf_keyed hown hc
        exact shownAt?_eq_iff_of_alike hc (AlikeAt.refl keys c) hk hk hno ih
    · obtain ⟨hnull, hempty⟩ := hloads.layerOf own
      rw [hnull] at hc
      rw [hempty] at hc'
      cases hc
      cases hc'
      by_cases hin : stringKeys package <+: keys
      · exact shownAt?_eq_iff_of_inside hloads hin hmid' mid
      · have hno : ¬ ∃ package, WipedBy t t' root own keys es e [] package := by
          rintro ⟨other, hw⟩
          obtain rfl := hloads.unique hw.loads
          exact hin hw.inside
        exact shownAt?_eq_iff_of_alike hnull (alikeAt_nest hin _ _) (layerOf_keyed hown hnull)
          (layerOf_keyed hown hempty) hno ih

/-- The layers of a defaults list, with the document's own keys among them. -/
theorem layer_filled (h : t.Filled t') {base : Value} (hbase : base.Keyed)
    (es : List DefaultsEntry) :
    (layer t root base es).map (fun _ => ()) = (layer t' root base es).map (fun _ => ()) ∧
    ∀ v v', layer t root base es = .ok v → layer t' root base es = .ok v' → ∀ keys,
      (v.shownAt? keys = v'.shownAt? keys ↔
        ¬ Wiped t t' root (withoutList base) keys (Defaults.withSelfMarker es)) := by
  by_cases hne : es = []
  · subst hne
    refine ⟨rfl, ?_⟩
    rintro v v' ⟨⟩ ⟨⟩ keys
    refine iff_of_true rfl ?_
    -- A list without entries loads nothing.
    rintro ⟨before, e, after, package, hsplit, hw⟩
    have he : e ∈ Defaults.withSelfMarker [] := by
      rw [hsplit]
      simp
    obtain rfl := List.mem_singleton.1 he
    cases hw.loads
  · rw [layer_eq_foldlM hne, layer_eq_foldlM hne]
    exact ⟨foldlM_filled h _ _ _, fun v v' hv hv' keys =>
      shownAt?_eq_iff_not_wiped h (withoutList_keyed hbase) hv hv'⟩

/-- Assignments show the same over two values where they touch the path, or the values show the
same. -/
theorem shownAt?_assigned {raws : List Text} {v v' : Value} :
    (assigned raws v).shownAt? keys = (assigned raws v').shownAt? keys ↔
      (raws.filterMap Assignment.parse? ≠ [] ∧
        (Assignment.tree (raws.filterMap Assignment.parse?)).Touches keys) ∨
      v.shownAt? keys = v'.shownAt? keys := by
  unfold assigned
  cases raws.filterMap Assignment.parse? with
  | nil => simp
  | cons a as =>
    have hkeyed := Assignment.tree_keyed (a :: as)
    refine ((AlikeAt.refl keys _).shownAt?_merge hkeyed hkeyed v v').trans ?_
    simp

/-- A root document that is null is read as an empty mapping in any case. -/
theorem document?_filled (h : t.Filled t') {document : Value} (hd : t.document? p = some document) :
    ∃ document', t'.document? p = some document' ∧ baseOf document' = baseOf document := by
  rcases h.reads p with hsame | ⟨hnull, hempty⟩
  · obtain ⟨s, hs⟩ := FileTree.document?_eq_some.1 hd
    rw [Strict.readDocument_eq_ok.2 hs] at hsame
    exact ⟨document, FileTree.document?_eq_some.2 ⟨s, Strict.readDocument_eq_ok.1 hsame⟩, rfl⟩
  · rw [hnull] at hd
    cases hd
    exact ⟨.mapping [], hempty, rfl⟩

/-- **What a module without content wipes out.** If an empty mapping is written into a file that is
null, the composition succeeds or fails as before. It shows the same as before at exactly those
paths that the assignments touch, and those at which no entry that loads the file wipes out
anything: an entry does so where the path is its package, or leads into it to something composed
before, unless a later entry or the own keys touch the path. -/
theorem compose_empty_module {s : Text} {document : Value} (hd : t.document? p = some document)
    (hf : t.document? f = some .null) (hs : Yaml.read s = .ok (.mapping []))
    (hw : t.write f (.text s) = .ok t') (raws : List Text) :
    (compose t root p raws).map (fun _ => ()) = (compose t' root p raws).map (fun _ => ()) ∧
    ∀ d d', compose t root p raws = .ok d → compose t' root p raws = .ok d' → ∀ keys,
      (d.shownAt? keys = d'.shownAt? keys ↔
        (raws.filterMap Assignment.parse? ≠ [] ∧
          (Assignment.tree (raws.filterMap Assignment.parse?)).Touches keys) ∨
        ¬ Wiped t t' root (withoutList (baseOf document)) keys
          (Defaults.withSelfMarker (Defaults.entriesOf (baseOf document)))) := by
  have hfill := FileTree.filled_of_write hf hs hw
  obtain ⟨document', hd', hbase⟩ := document?_filled hfill hd
  obtain ⟨hends, hshown⟩ := layer_filled hfill
    (baseOf_keyed (FileTree.document?_keyed hd)) (Defaults.entriesOf (baseOf document))
  rw [compose_of_document? hd, compose_of_document? hd', composeValue_eq, composeValue_eq, hbase]
  constructor
  · have hmap : ∀ x : Except ComposeError Value,
        (x.map (assigned raws)).map (fun _ => ()) = x.map fun _ => () := by
      intro x
      cases x <;> rfl
    rw [hmap, hmap, hends]
  · intro d d' h h' keys
    obtain ⟨v, hv, rfl⟩ := map_eq_ok.1 h
    obtain ⟨v', hv', rfl⟩ := map_eq_ok.1 h'
    rw [shownAt?_assigned, hshown v v' hv hv']

/-- A root document with an own key, and behind it a file with the given content and a module. -/
def hollow (content : Text) : FileTree where
  entries := [
    (["conf".toList], .directory),
    (["conf".toList, "config.yaml".toList],
      .file (.text "defaults:\n- _self_\n- empty\n- db: main\nx: 1\n")),
    (["conf".toList, "empty.yaml".toList], .file (.text content)),
    (["conf".toList, "db".toList], .directory),
    (["conf".toList, "db".toList, "main.yaml".toList], .file (.text "port: 1\n"))]
  workingDirectory := []

def hollowRoot : Value := .mapping [
  (.string "defaults", .sequence [.string "_self_", .string "empty",
    .mapping [(.string "db", .string "main")]]),
  (.string "x", .number (.int 1))]

/-- The module behind the file without content brings its port along. -/
theorem compose_empty_module_port :
    let x : Value × Value := (.string "x", .number (.int 1))
    let db : Value × Value := (.string "db", .mapping [(.string "port", .number (.int 1))])
    (hollow []).document? "/conf/config.yaml" = some hollowRoot ∧
    (hollow []).document? "/conf/empty.yaml" = some .null ∧
    Yaml.read "{}\n" = .ok (.mapping []) ∧
    (hollow []).write "/conf/empty.yaml" (.text "{}\n") = .ok (hollow "{}\n") ∧
    compose (hollow []) "/conf" "/conf/config.yaml" [] = .ok (.mapping [db]) ∧
    compose (hollow "{}\n") "/conf" "/conf/config.yaml" [] = .ok (.mapping [x, db]) ∧
    (Value.mapping [db]).shownAt? [.string "db", .string "port"] =
      (Value.mapping [x, db]).shownAt? [.string "db", .string "port"] := by
  intro x db
  have hd : (hollow []).document? "/conf/config.yaml" = some hollowRoot := by decide +kernel
  have hf : (hollow []).document? "/conf/empty.yaml" = some .null := by decide +kernel
  have hs : Yaml.read "{}\n" = .ok (.mapping []) := by decide +kernel
  have hw : (hollow []).write "/conf/empty.yaml" (.text "{}\n") = .ok (hollow "{}\n") := by
    decide +kernel
  have h : compose (hollow []) "/conf" "/conf/config.yaml" [] = .ok (.mapping [db]) := by
    decide +kernel
  have h' : compose (hollow "{}\n") "/conf" "/conf/config.yaml" [] = .ok (.mapping [x, db]) := by
    decide +kernel
  obtain ⟨-, hshown⟩ := @compose_empty_module _ _ "/conf" _ _ _ _ hd hf hs hw []
  refine ⟨hd, hf, hs, hw, h, h', (hshown _ _ h h' _).2 (Or.inr ?_)⟩
  have hentries : Defaults.withSelfMarker (Defaults.entriesOf (baseOf hollowRoot)) =
      [.selfMarker, .bare "empty"] ++ [.group ⟨"db", "main", false, .mapping⟩] := by decide +kernel
  have hmodule : (hollow []).document? (modulePath "/conf" "db" "main") =
      some (.mapping [(.string "port", .number (.int 1))]) := by decide +kernel
  rw [hentries]
  refine not_wiped_concat (c := .mapping [db]) ?_ ?_ (Or.inl (by decide +kernel))
  · rintro package (_ | ⟨-, hnull, -⟩)
    rw [hmodule] at hnull
    cases hnull
  · simp only [layerOf, Bool.false_eq_true, if_false]
    rw [readModule?_eq_some.2 hmodule]
    rfl

/-- What was composed before a file without content is gone. -/
theorem compose_empty_module_wiped :
    let x : Value × Value := (.string "x", .number (.int 1))
    let db : Value × Value := (.string "db", .mapping [(.string "port", .number (.int 1))])
    (hollow []).document? "/conf/empty.yaml" = some .null ∧
    (hollow []).write "/conf/empty.yaml" (.text "{}\n") = .ok (hollow "{}\n") ∧
    (hollow "{}\n").document? "/conf/empty.yaml" = some (.mapping []) ∧
    compose (hollow []) "/conf" "/conf/config.yaml" [] = .ok (.mapping [db]) ∧
    compose (hollow "{}\n") "/conf" "/conf/config.yaml" [] = .ok (.mapping [x, db]) := by
  decide +kernel

end Lenient
end LayeredConfig
