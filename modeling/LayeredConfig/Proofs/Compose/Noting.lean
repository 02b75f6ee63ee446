import LayeredConfig.Proofs.Compose.Reads

/-!
# Compositions that note what they read

Both compositions, each with a note of every document file it reads. What they compute stays the
same, and what they note is known before they run: the files of the modules that are not marked
`override` for the lenient composition, and for the strict one the files of its plan.
-/
namespace LayeredConfig

open Outcome

/-- A computation that notes the files it reads behind those noted before. -/
abbrev Noting (α : Type) := StateT (List Path) (Except ComposeError) α

/-- A computation that reads the file at a path. -/
def Noting.reading {α : Type} (p : Path) (x : Except ComposeError α) : Noting α :=
  fun noted => x.map fun a => (a, noted ++ [p])

namespace Lenient

/-- Like `readModule?`, with notes. -/
def readModuleNoting? (t : FileTree) (root : Path) (group name : Text) : Noting (Option Value) :=
  let p := modulePath root group name
  if t.isFile p then Noting.reading p ((Strict.readDocument t p).map fun d => d.2) else pure none

/-- Like `mergeModule`, with notes. -/
def mergeModuleNoting (t : FileTree) (root : Path) (group name : Text) (package : List Text)
    (acc : Value) : Noting Value := do
  match ← readModuleNoting? t root group name with
  | some v => pure (acc.merge (Value.nest package v))
  | none => pure acc

/-- Like `layerEntry`, with notes. -/
def layerEntryNoting (t : FileTree) (root : Path) (own acc : Value) : DefaultsEntry → Noting Value
  | .selfMarker => pure (acc.merge own)
  | .bare name => mergeModuleNoting t root Defaults.rootGroup name [] acc
  | .group s =>
    if s.isOverride then pure acc else mergeModuleNoting t root s.group s.name [s.group] acc
  | .unrecognized _ => pure acc

/-- Like `layer`, with notes. -/
def layerNoting (t : FileTree) (root : Path) (base : Value) (entries : List DefaultsEntry) :
    Noting Value :=
  if entries.isEmpty then pure base
  else do
    let own := withoutList base
    let acc ← entries.foldlM (layerEntryNoting t root own) (.mapping [])
    pure (if Defaults.hasSelfMarker entries then acc else acc.merge own)

/-- Like `compose`, with notes. -/
def composeNoting (t : FileTree) (root p : Path) (raws : List Text) : Noting Value := do
  let (_, document) ← Noting.reading p (Strict.readDocument t p)
  let base := baseOf document
  let v ← layerNoting t root base ((Defaults.ofDocument? base).getD [])
  let assignments := raws.filterMap Assignment.parse?
  pure (if assignments.isEmpty then v else v.merge (Assignment.tree assignments))

end Lenient

namespace Strict

/-- Like `contribution`, with notes. -/
def contributionNoting (t : FileTree) (root : Path) (own : Value) : Step → Noting Value
  | .ownKeys => pure own
  | .rootFile name =>
    let p := modulePath root Defaults.rootGroup name
    Noting.reading p (readFragment t p (Defaults.rootGroup ++ '/' :: name))
  | .group group name => do
    let p := modulePath root group name
    if t.isFile p then
      let v ← Noting.reading p (readFragment t p (group ++ '/' :: name))
      pure (Value.nest (Defaults.packageOf group) v)
    else throw (.missingModule group name p)

/-- Like `layer`, with notes. -/
def layerNoting (t : FileTree) (root : Path) (own : Value) (p : Plan) : Noting Value :=
  p.foldlM (fun acc step => do pure (acc.merge (← contributionNoting t root own step)))
    (.mapping [])

/-- Like `compose`, with notes. -/
def composeNoting (t : FileTree) (root p : Path) (raws : List Text) : Noting Value := do
  let (_, document) ← Noting.reading p (readDocument t p)
  let own ← ownKeys p document
  let overrides ← parseOverrides raws
  let plan ← Plan.ofEntries t root ((Defaults.ofDocument? document).getD [])
  let (plan, rest) ← plan.applyOverrides t root overrides
  let v ← layerNoting t root own plan
  (rest.foldlM applyOverride v : Except ComposeError Value)

end Strict

/-- With notes, a computation gives what it gives without, and notes the files. -/
def Noting.Of {α : Type} (noting : Noting α) (x : Except ComposeError α) (files : List Path) :
    Prop :=
  ∀ noted, noting noted = x.map fun a => (a, noted ++ files)

namespace Noting

variable {α β : Type}

theorem of_ok (a : α) : Of (pure a) (.ok a) [] := fun noted => by
  show Except.ok (a, noted) = Except.ok (a, noted ++ [])
  rw [List.append_nil]

theorem of_lift (x : Except ComposeError α) : Of (liftM x) x [] := fun noted => by
  cases x <;> simp [liftM, monadLift, MonadLift.monadLift, StateT.lift, bind, Except.bind,
    Except.map, pure, Except.pure]

theorem of_throw (e : ComposeError) (files : List Path) :
    Of (throw e : Noting α) (.error e) files := fun _ => rfl

theorem of_reading (p : Path) (x : Except ComposeError α) : Of (reading p x) x [p] := fun _ => rfl

/-- Files are noted one step after the other. -/
theorem Of.bind {x' : Noting α} {x : Except ComposeError α} {f' : α → Noting β}
    {f : α → Except ComposeError β} {files more : List Path} (hx : Of x' x files)
    (hf : ∀ a, x = .ok a → Of (f' a) (f a) more) : Of (x' >>= f') (x >>= f) (files ++ more) := by
  intro noted
  change (x' noted >>= fun r => f' r.1 r.2) = _
  rw [hx noted]
  cases x with
  | error e => rfl
  | ok a =>
    change f' a (noted ++ files) = (f a).map _
    rw [hf a rfl, List.append_assoc]

theorem of_foldlM {f' : β → α → Noting β} {f : β → α → Except ComposeError β}
    {files : α → List Path} (hf : ∀ b a, Of (f' b a) (f b a) (files a)) (l : List α) (b : β) :
    Of (l.foldlM f' b) (l.foldlM f b) (l.flatMap files) := by
  induction l generalizing b with
  | nil => exact of_ok b
  | cons a l ih =>
    rw [List.foldlM_cons, List.foldlM_cons, List.flatMap_cons]
    exact (hf b a).bind fun b' _ => ih b'

end Noting

namespace ConfigModule

variable {t : FileTree} {root : Path}

/-- The file of a module, unless it is marked `override`. -/
def plainFile? (m : ConfigModule) : Option Path := if m.isOverride then none else m.path

theorem locate_path (t : FileTree) (root : Path) (group name : Text) (isOverride : Bool) :
    (locate t root group name isOverride).path =
      if t.isFile (modulePath root group name) then some (modulePath root group name) else none :=
  rfl

/-- The module of a bare name has a file, or there is none. -/
theorem bind_select?_bare (t : FileTree) (root : Path) (name : Text) :
    (select? t root (.bare name)).bind plainFile? =
      (locate t root Defaults.rootGroup name false).path := by
  simp only [select?]
  by_cases h : (locate t root Defaults.rootGroup name false).resolved = true
  · rw [if_pos h]
    rfl
  · rw [if_neg h]
    exact (by simpa [resolved] using h : (locate _ _ _ _ _).path = none).symm

/-- A module that a defaults entry selects is where it is looked for. -/
theorem eq_locate_of_select? {e : DefaultsEntry} {m : ConfigModule}
    (h : select? t root e = some m) : m = locate t root m.group m.name m.isOverride := by
  cases e with
  | group s =>
    cases h
    rfl
  | bare name =>
    simp only [select?] at h
    split at h
    · cases h
      rfl
    · cases h
  | selfMarker => cases h
  | unrecognized raw => cases h

end ConfigModule

namespace Lenient

variable {t : FileTree} {root : Path}

theorem readModuleNoting?_of (group name : Text) :
    Noting.Of (readModuleNoting? t root group name) (readModule? t root group name)
      (ConfigModule.locate t root group name false).path.toList := by
  unfold readModuleNoting? readModule?
  rw [ConfigModule.locate_path]
  dsimp only
  split
  · exact Noting.of_reading _ _
  · exact Noting.of_ok none

theorem mergeModuleNoting_of (group name : Text) (package : List Text) (acc : Value) :
    Noting.Of (mergeModuleNoting t root group name package acc)
      (mergeModule t root group name package acc)
      (ConfigModule.locate t root group name false).path.toList := by
  rw [← List.append_nil (Option.toList _)]
  refine (readModuleNoting?_of group name).bind fun v _ => ?_
  cases v with
  | none => exact Noting.of_ok acc
  | some v => exact Noting.of_ok _

/-- An entry has the file of its module read, unless it is marked `override`. -/
theorem layerEntryNoting_of (own acc : Value) (e : DefaultsEntry) :
    Noting.Of (layerEntryNoting t root own acc e) (layerEntry t root own acc e)
      ((ConfigModule.select? t root e).bind ConfigModule.plainFile?).toList := by
  cases e with
  | selfMarker => exact Noting.of_ok _
  | bare name =>
    rw [ConfigModule.bind_select?_bare]
    exact mergeModuleNoting_of _ _ _ acc
  | group s =>
    simp only [layerEntryNoting, layerEntry, ConfigModule.select?, Option.bind_some]
    cases ho : s.isOverride with
    | true => exact Noting.of_ok acc
    | false => exact mergeModuleNoting_of _ _ _ acc
  | unrecognized raw => exact Noting.of_ok acc

theorem layerNoting_of (base : Value) (entries : List DefaultsEntry) :
    Noting.Of (layerNoting t root base entries) (layer t root base entries)
      ((entries.filterMap (ConfigModule.select? t root)).filterMap ConfigModule.plainFile?) := by
  have hfiles : (entries.filterMap (ConfigModule.select? t root)).filterMap
      ConfigModule.plainFile? = entries.flatMap fun e =>
        ((ConfigModule.select? t root e).bind ConfigModule.plainFile?).toList := by
    rw [List.filterMap_filterMap, List.filterMap_eq_flatMap_toList]
  unfold layerNoting layer
  cases entries with
  | nil => exact Noting.of_ok base
  | cons e entries =>
    rw [if_neg (by simp), if_neg (by simp), hfiles, ← List.append_nil (List.flatMap _ _)]
    refine (Noting.of_foldlM (fun acc e => layerEntryNoting_of _ acc e) _ _).bind fun acc _ => ?_
    exact Noting.of_ok _

/-- **What is noted.** The root document is read, and then the files of the modules that are not
marked `override`. -/
theorem composeNoting_of {p : Path} {es : Entries} (raws : List Text)
    (hd : t.document? p = some (.mapping es)) :
    Noting.Of (composeNoting t root p raws) (compose t root p raws)
      (p :: (ConfigModule.resolve t root p).filterMap ConfigModule.plainFile?) := by
  rw [← List.singleton_append]
  refine (Noting.of_reading p _).bind fun d hread => ?_
  obtain ⟨s, document⟩ := d
  have hdoc := FileTree.document?_eq_some.2 ⟨s, Strict.readDocument_eq_ok.1 hread⟩
  obtain rfl : Value.mapping es = document := Option.some.inj (hd.symm.trans hdoc)
  rw [ConfigModule.resolve_of_document? hd,
    ← List.append_nil (List.filterMap ConfigModule.plainFile? _)]
  exact (layerNoting_of _ _).bind fun v _ => Noting.of_ok _

end Lenient

/-- The file that a step loads. -/
def Step.file? (root : Path) : Step → Option Path
  | .ownKeys => none
  | .rootFile name => some (modulePath root Defaults.rootGroup name)
  | .group g name => some (modulePath root g name)

namespace Strict

variable {t : FileTree} {root p : Path} {own : Value}

theorem contributionNoting_of (step : Step) :
    Noting.Of (contributionNoting t root own step) (contribution t root own step)
      (step.file? root).toList := by
  cases step with
  | ownKeys => exact Noting.of_ok own
  | rootFile name => exact Noting.of_reading _ _
  | group group name =>
    simp only [contributionNoting, contribution, Step.file?, Option.toList_some]
    split
    · rw [← List.append_nil [_]]
      exact (Noting.of_reading _ _).bind fun v _ => Noting.of_ok _
    · exact Noting.of_throw _ _

theorem layerNoting_of (plan : Plan) :
    Noting.Of (layerNoting t root own plan) (layer t root own plan)
      (plan.filterMap (Step.file? root)) := by
  rw [List.filterMap_eq_flatMap_toList]
  refine Noting.of_foldlM (fun acc step => ?_) plan _
  rw [← List.append_nil (Option.toList _)]
  exact (contributionNoting_of step).bind fun c _ => Noting.of_ok _

/-- **What is noted.** The root document is read, and then the files of its plan. -/
theorem composeNoting_of {document : Value} {plan : Plan} (hd : t.document? p = some document)
    (hplan : Plan.ofEntries t root (Defaults.entriesOf document) = .ok plan) :
    Noting.Of (composeNoting t root p []) (compose t root p [])
      (p :: plan.filterMap (Step.file? root)) := by
  rw [← List.singleton_append]
  refine (Noting.of_reading p _).bind fun d hread => ?_
  obtain ⟨s, document'⟩ := d
  have hdoc := FileTree.document?_eq_some.2 ⟨s, readDocument_eq_ok.1 hread⟩
  obtain rfl : document = document' := Option.some.inj (hd.symm.trans hdoc)
  -- Nothing is read until the plan is made.
  refine (Noting.of_lift _).bind fun own _ => ?_
  refine (Noting.of_lift (parseOverrides [])).bind fun overrides ho => ?_
  cases ho
  refine (Noting.of_lift _).bind fun plan' hplan' => ?_
  obtain rfl : plan = plan' := Except.ok.inj (hplan.symm.trans hplan')
  refine (Noting.of_lift (Plan.applyOverrides t root plan [])).bind fun r hr => ?_
  cases hr
  rw [← List.append_nil (List.filterMap _ _)]
  exact (layerNoting_of plan).bind fun v _ => Noting.of_lift _

/-- A step that contributes something has its file. -/
theorem isFile_of_contribution {step : Step} {c : Value} {f : Path} (hf : step.file? root = some f)
    (h : contribution t root own step = .ok c) : t.isFile f = true := by
  cases step with
  | ownKeys => cases hf
  | rootFile name =>
    cases hf
    obtain ⟨es, -, hes⟩ := readFragment_eq_ok h
    obtain ⟨v, hv, -⟩ := Option.bind_eq_some_iff.1 hes
    obtain ⟨s, hs, -⟩ := FileTree.document?_eq_some.1 hv
    exact FileTree.isFile_iff.2 ⟨_, FileTree.readText_eq_ok.1 hs⟩
  | group g name =>
    cases hf
    simp only [contribution] at h
    split at h
    · next hfile => exact hfile
    · cases h

end Strict

end LayeredConfig
