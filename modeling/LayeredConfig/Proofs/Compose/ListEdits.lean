import LayeredConfig.Proofs.Compose.Agreement
import LayeredConfig.Proofs.Compose.Steps

/-!
# Overrides that edit the list

An override whose key is a group is an edit of the defaults list. Composing a root document with it,
and with any overrides behind it, is composing with the others alone a document whose list has been
edited.
-/
namespace LayeredConfig

open Outcome DefaultsEntry

/-- The entry as if it were written as a mapping. -/
def DefaultsEntry.formless : DefaultsEntry → DefaultsEntry
  | .group s => .group { s with form := .mapping }
  | e => e

theorem DefaultsEntry.isMarked_formless (e : DefaultsEntry) : e.formless.isMarked = e.isMarked := by
  cases e <;> rfl

/-- The name that an override gives to a group. -/
def Override.name (o : Override) : Text := Text.trim (o.value.getD [])

namespace Defaults

/-- The list that an override whose key is a group makes of a list without marked entries. -/
inductive Edits (t : FileTree) (root : Path) (o : Override) (es : List DefaultsEntry) :
    List DefaultsEntry → Prop
  /-- The first entry of the group gets another name. -/
  | switch : o.kind = .assign ∨ o.kind = .forceAdd → es.any (isOf o.key) = true →
    Edits t root o es (rename o.key o.name es)
  /-- The first entry of the group is removed. -/
  | remove : o.kind = .delete → es.any (isOf o.key) = true →
    Edits t root o es (es.eraseP (isOf o.key))
  /-- An entry of a group that is not selected yet comes behind all others. -/
  | append : o.kind = .append ∨ o.kind = .forceAdd → es.any (isOf o.key) = false → o.name ≠ [] →
    t.isFile (modulePath root o.key o.name) = true →
    Edits t root o es (withSelfMarker es ++ [.group ⟨o.key, o.name, false, .mapping⟩])

end Defaults

open Defaults

namespace Plan

variable {t : FileTree} {root : Path} {o : Override} {es fs : List DefaultsEntry}

theorem steps_formless (es : List DefaultsEntry) :
    steps t root (es.map formless) = steps t root es := by
  induction es with
  | nil => rfl
  | cons e es ih => rw [List.map_cons, steps_cons, steps_cons, ih]; cases e <;> rfl

/-- How entries are written does not count. -/
theorem ofEntries_of_formless (h : es.map formless = fs.map formless)
    (hplain : ∀ e ∈ fs, e.isMarked = false) : ofEntries t root es = ofEntries t root fs := by
  have hes : ∀ e ∈ es, e.isMarked = false := by
    intro e he
    have hmem : e.formless ∈ fs.map formless := h ▸ List.mem_map_of_mem he
    obtain ⟨f, hf, hform⟩ := List.mem_map.1 hmem
    rw [← isMarked_formless e, ← hform, isMarked_formless]
    exact hplain f hf
  rw [ofEntries_eq_steps hes, ofEntries_eq_steps hplain, ← steps_formless es, h, steps_formless]

theorem contains_steps {p : Plan} (h : steps t root es = .ok p) :
    List.contains p .ownKeys = hasSelfMarker es := by
  induction es generalizing p with
  | nil =>
    cases h
    rfl
  | cons e es ih =>
    rw [steps_cons] at h
    obtain ⟨s, hs, h⟩ := bind_eq_ok.1 h
    obtain ⟨q, hq, rfl⟩ := map_eq_ok.1 h
    have hhead : (Step.ownKeys == s) = (DefaultsEntry.selfMarker == e) := by
      cases e with
      | bare name =>
        simp only [DefaultsEntry.step] at hs
        split at hs
        · cases hs
          rfl
        · cases hs
      | unrecognized raw => cases hs
      | _ =>
        cases hs
        rfl
    rw [List.contains_cons, ih hq, hhead, hasSelfMarker, hasSelfMarker, List.contains_cons]

/-- A list with the place of the own keys in it makes a closed plan. -/
theorem steps_withSelfMarker (es : List DefaultsEntry) :
    steps t root (withSelfMarker es) = (steps t root es).map close := by
  unfold withSelfMarker
  cases hp : steps t root es with
  | error e =>
    split
    · exact hp
    · rw [steps_append, hp]
      rfl
  | ok p =>
    have hcontains := contains_steps hp
    split
    · next hm =>
      rw [hp]
      exact congrArg Except.ok (if_pos (hcontains.trans hm)).symm
    · next hm =>
      rw [steps_append, hp]
      exact congrArg Except.ok (if_neg (hcontains ▸ hm)).symm

theorem applyOverrides_changed {p q : Plan} (h : p.meet t root o = .ok (.changed q))
    (os : List Override) : p.applyOverrides t root (o :: os) = q.applyOverrides t root os := by
  rw [applyOverrides, h]
  rfl

theorem meet_switch {p : Plan} (hkind : o.kind = .assign ∨ o.kind = .forceAdd)
    (hsel : p.selects o.key = true) :
    p.meet t root o = .ok (.changed (p.switch o.key o.name)) := by
  rcases hkind with hk | hk <;> simp only [meet, hk, hsel] <;> rfl

theorem meet_remove {p : Plan} (hkind : o.kind = .delete) (hsel : p.selects o.key = true) :
    p.meet t root o = .ok (.changed (p.deselect o.key)) := by
  simp only [meet, hkind, hsel]

theorem meet_append {p : Plan} (hkind : o.kind = .append ∨ o.kind = .forceAdd)
    (hsel : p.selects o.key = false) (hname : o.name ≠ [])
    (hfile : t.isFile (modulePath root o.key o.name) = true) :
    p.meet t root o = .ok (.changed (p ++ [.group o.key o.name])) := by
  have hsome : (Text.trim (o.value.getD [])).isEmpty = false := by simpa [Override.name] using hname
  have hthere : t.isFile (modulePath root o.key (Text.trim (o.value.getD []))) = true := hfile
  rcases hkind with hk | hk <;> simp [meet, hk, hsel, hsome, hthere, Override.name]

theorem mem_rename {group name : Text} {e : DefaultsEntry} (h : e ∈ rename group name es) :
    ∃ f ∈ es, e.isMarked = f.isMarked := by
  induction es with
  | nil => cases h
  | cons f es ih =>
    unfold rename at h
    split at h
    · rcases List.mem_cons.1 h with rfl | h
      · exact ⟨f, List.mem_cons_self, isMarked_withName f name⟩
      · exact ⟨e, List.mem_cons_of_mem _ h, rfl⟩
    · rcases List.mem_cons.1 h with rfl | h
      · exact ⟨e, List.mem_cons_self, rfl⟩
      · obtain ⟨g, hg, hmark⟩ := ih h
        exact ⟨g, List.mem_cons_of_mem _ hg, hmark⟩

/-- An edit brings no marked entries into a list. -/
theorem not_isMarked_of_edits (h : Edits t root o es fs) (hplain : ∀ e ∈ es, e.isMarked = false) :
    ∀ e ∈ fs, e.isMarked = false := by
  intro e he
  cases h with
  | switch _ _ =>
    obtain ⟨f, hf, hmark⟩ := mem_rename he
    exact hmark.trans (hplain f hf)
  | remove _ _ => exact hplain e (List.mem_of_mem_eraseP he)
  | append _ _ _ _ =>
    rcases List.mem_append.1 he with he | he
    · unfold withSelfMarker at he
      split at he
      · exact hplain e he
      · rcases List.mem_append.1 he with he | he
        · exact hplain e he
        · obtain rfl := List.mem_singleton.1 he
          rfl
    · obtain rfl := List.mem_singleton.1 he
      rfl

/-- **An override that edits the list does to its plan what the edit does.** -/
theorem applyOverrides_edits (h : Edits t root o es fs) (hplain : ∀ e ∈ es, e.isMarked = false)
    (os : List Override) :
    ((ofEntries t root es).bind fun p => p.applyOverrides t root (o :: os)) =
      (ofEntries t root fs).bind fun p => p.applyOverrides t root os := by
  rw [ofEntries_eq_steps hplain, ofEntries_eq_steps (not_isMarked_of_edits h hplain)]
  cases h with
  | switch hkind hsel =>
    rw [steps_rename]
    cases hp : steps t root es with
    | error _ => rfl
    | ok p =>
      have hp' := (selects_steps hp o.key).trans hsel
      have hmeet : (close p).meet t root o = .ok (.changed (close (p.switch o.key o.name))) := by
        rw [close_switch hp']
        exact meet_switch hkind ((selects_close p _).trans hp')
      exact applyOverrides_changed hmeet os
  | remove hkind hsel =>
    rw [steps_eraseP]
    cases hp : steps t root es with
    | error _ => rfl
    | ok p =>
      have hp' := (selects_steps hp o.key).trans hsel
      have hmeet : (close p).meet t root o = .ok (.changed (close (p.deselect o.key))) := by
        rw [close_deselect]
        exact meet_remove hkind ((selects_close p _).trans hp')
      exact applyOverrides_changed hmeet os
  | append hkind hsel hname hfile =>
    rw [steps_append, steps_withSelfMarker]
    cases hp : steps t root es with
    | error _ => rfl
    | ok p =>
      have hp' := (selects_steps hp o.key).trans hsel
      have hmeet := meet_append hkind ((selects_close p _).trans hp') hname hfile
      have hclosed : close (close p ++ [.group o.key o.name]) = close p ++ [.group o.key o.name] :=
        if_pos (by simpa using ownKeys_mem_close p)
      refine (applyOverrides_changed hmeet os).trans ?_
      exact congrArg (fun p : Plan => p.applyOverrides t root os) hclosed.symm

end Plan

namespace Strict

variable {t : FileTree} {root p : Path} {document edited own : Value} {o : Override}
  {raw : Text} {rest : List Text}

theorem parseOverrides_cons (h : Override.parse? raw = some o) (rest : List Text) :
    parseOverrides (raw :: rest) = (parseOverrides rest).map (o :: ·) := by
  rw [parseOverrides, List.mapM_cons, h]
  cases hrest : parseOverrides rest with
  | error _ => rw [parseOverrides] at hrest; rw [hrest]; rfl
  | ok os => rw [parseOverrides] at hrest; rw [hrest]; rfl

/-- The stages of a composition: the plan, what the overrides leave of it, and its layers. -/
theorem composeValue_eq {raws : List Text} {os : List Override}
    (hown : ownKeys p document = .ok own) (hos : parseOverrides raws = .ok os) :
    composeValue t root p document raws =
      ((Plan.ofEntries t root (entriesOf document)).bind fun plan =>
        plan.applyOverrides t root os).bind fun r =>
          (layer t root own r.1).bind fun v => r.2.foldlM applyOverride v := by
  rw [composeValue, hown, hos, entriesOf]
  cases Plan.ofEntries t root ((ofDocument? document).getD []) <;> rfl

/-- A document that has been read is composed wherever it lies, unless it is no mapping. -/
theorem composeValue_of_ownKeys {p' : Path} (h : ownKeys p document = .ok own) (raws : List Text) :
    composeValue t root p' document raws = composeValue t root p document raws := by
  have hown : ownKeys p' document = ownKeys p document := by
    cases document with
    | null => rfl
    | mapping es => rfl
    | _ => cases h
  rw [composeValue, composeValue, hown]

theorem compose_of_document? (h : t.document? p = some document) (raws : List Text) :
    compose t root p raws = composeValue t root p document raws := by
  obtain ⟨s, hs⟩ := FileTree.document?_eq_some.1 h
  rw [compose, readDocument_eq_ok.2 hs]
  rfl

/-- **Overrides of groups are edits of the defaults list.** A root document without entries marked
`override` is composed with an override whose key is a group, and others behind it, to the same
value or error as a document with the same keys and the edited list is with the others alone. -/
theorem compose_edit {es : List DefaultsEntry} (hraw : Override.parse? raw = some o)
    (hplain : ∀ e ∈ entriesOf document, e.isMarked = false)
    (hedit : Edits t root o (entriesOf document) es)
    (hlist : (entriesOf edited).map formless = es.map formless)
    (hown : ownKeys p edited = ownKeys p document) :
    composeValue t root p document (raw :: rest) = composeValue t root p edited rest ∧
    ∀ p', t.document? p = some document → t.document? p' = some edited →
      ownKeys p document = .ok own → compose t root p (raw :: rest) = compose t root p' rest := by
  have hplan : Plan.ofEntries t root (entriesOf edited) = Plan.ofEntries t root es :=
    Plan.ofEntries_of_formless hlist (Plan.not_isMarked_of_edits hedit hplain)
  have hvalue : composeValue t root p document (raw :: rest) =
      composeValue t root p edited rest := by
    cases ho : ownKeys p document with
    | error _ => rw [composeValue, composeValue, hown, ho]; rfl
    | ok own =>
      cases hos : parseOverrides rest with
      | error _ => rw [composeValue, composeValue, hown, ho, parseOverrides_cons hraw, hos]; rfl
      | ok os =>
        have hraws : parseOverrides (raw :: rest) = .ok (o :: os) := by
          rw [parseOverrides_cons hraw, hos]
          rfl
        rw [composeValue_eq ho hraws, composeValue_eq (hown.trans ho) hos, hplan,
          Plan.applyOverrides_edits hedit hplain os]
  refine ⟨hvalue, fun p' hd hd' ho => ?_⟩
  rw [compose_of_document? hd, compose_of_document? hd', hvalue]
  exact (composeValue_of_ownKeys (hown.trans ho) rest).symm

/-- A root document, and beside it one with another name in the first entry of its list. -/
def switchable : FileTree where
  entries := [
    (["conf".toList], .directory),
    (["conf".toList, "config.yaml".toList],
      .file (.text "defaults:\n- db: mysql\n- _self_\nx: 1\n")),
    (["conf".toList, "edited.yaml".toList],
      .file (.text "defaults:\n- db/postgres\n- _self_\nx: 1\n")),
    (["conf".toList, "db".toList], .directory),
    (["conf".toList, "db".toList, "postgres.yaml".toList], .file (.text "port: 2\n")),
    (["conf".toList, "cache".toList], .directory),
    (["conf".toList, "cache".toList, "big.yaml".toList], .file (.text "size: 3\n"))]
  workingDirectory := []

def switchableRoot (entry : Value) : Value := .mapping [
  (.string "defaults", .sequence [entry, .string "_self_"]), (.string "x", .number (.int 1))]

theorem compose_edit_switchable :
    compose switchable "/conf" "/conf/config.yaml" ["db= postgres", "+cache=big", "x=2"] =
      compose switchable "/conf" "/conf/edited.yaml" ["+cache=big", "x=2"] ∧
    compose switchable "/conf" "/conf/config.yaml" ["db= postgres", "+cache=big", "x=2"] =
      .ok (.mapping [
        (.string "db", .mapping [(.string "port", .number (.int 2))]),
        (.string "x", .number (.int 2)),
        (.string "cache", .mapping [(.string "size", .number (.int 3))])]) := by
  have hraw : Override.parse? "db= postgres" = some ⟨.assign, "db", some " postgres"⟩ := by
    decide +kernel
  have hlist : entriesOf (switchableRoot (.mapping [(.string "db", .string "mysql")])) =
      [.group ⟨"db", "mysql", false, .mapping⟩, .selfMarker] := by decide +kernel
  have hplain : ∀ e ∈ entriesOf (switchableRoot (.mapping [(.string "db", .string "mysql")])),
      e.isMarked = false := by
    rw [hlist]
    decide
  have hedit : Edits switchable "/conf" ⟨.assign, "db", some " postgres"⟩
      (entriesOf (switchableRoot (.mapping [(.string "db", .string "mysql")]))) _ :=
    .switch (Or.inl rfl) (by rw [hlist]; decide)
  have hedited : (entriesOf (switchableRoot (.string "db/postgres"))).map formless =
      (rename "db" (Override.name ⟨.assign, "db", some " postgres"⟩)
          (entriesOf (switchableRoot (.mapping [(.string "db", .string "mysql")])))).map
        formless := by
    decide +kernel
  refine ⟨(compose_edit hraw hplain hedit hedited rfl).2 _ ?_ ?_ rfl, ?_⟩ <;> decide +kernel

/-- Root documents that are not composed with an override as their edited neighbours are without
it. -/
def inedible : FileTree where
  entries := [
    (["conf".toList], .directory),
    (["conf".toList, "unnamed.yaml".toList], .file (.text "x: 1\n")),
    (["conf".toList, "unnamed_edited.yaml".toList],
      .file (.text "defaults:\n- _self_\n- db: ''\nx: 1\n")),
    (["conf".toList, "equals.yaml".toList], .file (.text "defaults:\n- a=b: x\n")),
    (["conf".toList, "equals_edited.yaml".toList], .file (.text "defaults:\n- a=b: y\n")),
    (["conf".toList, "paired.yaml".toList],
      .file (.text "defaults:\n- db: mysql\n  model: [a]\n")),
    (["conf".toList, "paired_edited.yaml".toList],
      .file (.text "defaults:\n- db: postgres\n  model: [a]\n")),
    (["conf".toList, "db".toList], .directory),
    (["conf".toList, "db".toList, ".yaml".toList], .file (.text "host: h\n")),
    (["conf".toList, "a=b".toList], .directory),
    (["conf".toList, "a=b".toList, "y.yaml".toList], .file (.text "port: 1\n"))]
  workingDirectory := []

/-- Not every text of the form `group=name` edits the list. An addition without a name is left for
the document even if there is a file for it. A group whose name holds an equals sign is cut there.
And where the entry is a pair of a mapping with another one that is not recognized, the edit shows
in the other's error. -/
theorem compose_not_edit :
    (inedible.isFile (modulePath "/conf" "db" "") = true ∧
      compose inedible "/conf" "/conf/unnamed.yaml" ["+db="] =
        .ok (.mapping [(.string "x", .number (.int 1)), (.string "db", .string "")]) ∧
      compose inedible "/conf" "/conf/unnamed_edited.yaml" [] =
        .ok (.mapping [(.string "x", .number (.int 1)),
          (.string "db", .mapping [(.string "host", .string "h")])])) ∧
    (compose inedible "/conf" "/conf/equals.yaml" ["a=b=y"] =
        .error (.missingModule "a=b" "x" "/conf/a=b/x.yaml") ∧
      compose inedible "/conf" "/conf/equals_edited.yaml" [] =
        .ok (.mapping [(.string "a=b", .mapping [(.string "port", .number (.int 1))])])) ∧
    (compose inedible "/conf" "/conf/paired.yaml" ["db=postgres"] =
        .error (.unsupportedEntry "db: mysql model: - a") ∧
      compose inedible "/conf" "/conf/paired_edited.yaml" [] =
        .error (.unsupportedEntry "db: postgres model: - a")) := by
  refine ⟨⟨?_, ?_, ?_⟩, ⟨?_, ?_⟩, ?_, ?_⟩ <;> decide +kernel

end Strict
end LayeredConfig
