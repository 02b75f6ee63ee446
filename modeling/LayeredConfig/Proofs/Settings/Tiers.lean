import LayeredConfig.Proofs.Compose.Strict
import LayeredConfig.Proofs.Document.MergeLaws
import LayeredConfig.Proofs.Document.Overlay
import LayeredConfig.Settings.Tiers
import Mathlib.Data.List.Nodup

/-!
# Settings, field by field

The files of the tiers are merged as documents, and settings are read from the result. As long as
the files hold settings, each of them is settled on its own: by the environment if it sets it, else
by the project's file, else by the user's file, else by the built-in value. A null settles nothing,
and what a file holds beside settings makes no difference.

Both levels of a document are merged alike: what has all of its parts, under something that gives
some of them, has all of its parts. The parts of a document are its sections, and the parts of a
section its fields.
-/
namespace LayeredConfig

open Value (atKeys? mergeWith mergeEntries)

/-- Whether a value is a string without a tag. -/
def Value.isString : Value → Bool
  | .string _ => true
  | _ => false

/-- All keys of a mapping are strings. -/
def Entries.StringKeyed (es : Entries) : Prop := ∀ e ∈ es, e.1.isString = true

/-- The user's file of settings. -/
def SettingsPaths.userFile (paths : SettingsPaths) : Option Path :=
  paths.userDir.map fun d => Path.join d Settings.userFileName

namespace Settings

/-- A value that may give parts by their names: nothing, or a mapping with strings for keys in which
each part that is there has an allowed value. -/
def Gives {α : Type} (parts : List (Text × α)) (Allowed : α → Value → Prop) : Value → Prop
  | .null => True
  | .mapping es => Entries.StringKeyed es ∧
      ∀ p ∈ parts, ∀ v ∈ Entries.find? es (.string p.1), Allowed p.2 v
  | _ => False

/-- A mapping with strings for keys that has an allowed value for every part. -/
def Has {α : Type} (parts : List (Text × α)) (Allowed : α → Value → Prop) : Value → Prop
  | .mapping es => Entries.StringKeyed es ∧
      ∀ p ∈ parts, ∃ w ∈ Entries.find? es (.string p.1), Allowed p.2 w
  | _ => False

/-- The fields of a section, with the values that each of them takes. -/
abbrev Fields := List (Text × (Value → Bool))

def backupFields : Fields :=
  [("dir_name", fun v => v.text?.isSome), ("manifest_name", fun v => v.text?.isSome),
    ("pre_restore_tag", fun v => v.text?.isSome)]

def mergeFields : Fields :=
  [("strategy", fun v => (strategy? v).isSome),
    ("resolve_interpolations", fun v => (bool? v).isSome)]

def watchFields : Fields := [("debounce_ms", fun v => (natural? v).isSome)]

def sections : List (Text × Fields) :=
  [("backups", backupFields), ("merge", mergeFields), ("watch", watchFields)]

/-- A section of a file: each field that it has is null or has a value of the field's type. -/
def IsSection (fields : Fields) : Value → Prop :=
  Gives fields fun takes v => v = .null ∨ takes v = true

/-- A file of settings. -/
def IsLayer : Value → Prop := Gives sections IsSection

/-- A section with a value of its type for every field. -/
def IsWholeSection (fields : Fields) : Value → Prop := Has fields fun takes v => takes v = true

/-- A document with all sections and all of their fields. -/
def IsWhole : Value → Prop := Has sections IsWholeSection

/-- The value that a layer gives a field. A null gives none. -/
def given? (layer : Value) (sectionName field : Text) : Option Value :=
  (layer.atKeys? [.string sectionName, .string field]).filter (· ≠ .null)

instance (es : Entries) : Decidable (Entries.StringKeyed es) :=
  inferInstanceAs (Decidable (∀ e ∈ es, e.1.isString = true))

section
variable {α : Type} (parts : List (Text × α)) (Allowed : α → Value → Prop)
  [∀ a v, Decidable (Allowed a v)]

instance : (v : Value) → Decidable (Gives parts Allowed v)
  | .null => .isTrue trivial
  | .mapping es => inferInstanceAs (Decidable (Entries.StringKeyed es ∧
      ∀ p ∈ parts, ∀ v ∈ Entries.find? es (.string p.1), Allowed p.2 v))
  | .bool _ | .number _ | .string _ | .sequence _ | .tagged .. => .isFalse id

instance : (v : Value) → Decidable (Has parts Allowed v)
  | .mapping es => inferInstanceAs (Decidable (Entries.StringKeyed es ∧
      ∀ p ∈ parts, ∃ w ∈ Entries.find? es (.string p.1), Allowed p.2 w))
  | .null | .bool _ | .number _ | .string _ | .sequence _ | .tagged .. => .isFalse id

end

instance (fields : Fields) (v : Value) : Decidable (IsSection fields v) :=
  inferInstanceAs (Decidable (Gives ..))

instance (v : Value) : Decidable (IsLayer v) := inferInstanceAs (Decidable (Gives ..))

instance (fields : Fields) (v : Value) : Decidable (IsWholeSection fields v) :=
  inferInstanceAs (Decidable (Has ..))

instance (v : Value) : Decidable (IsWhole v) := inferInstanceAs (Decidable (Has ..))

theorem stringKeyed_insert {es : Entries} (h : Entries.StringKeyed es) {k : Value}
    (hk : k.isString = true) (v : Value) : Entries.StringKeyed (Entries.insert es k v) := by
  induction es with
  | nil => exact List.forall_mem_singleton.2 hk
  | cons e es ih =>
    obtain ⟨he, hes⟩ := List.forall_mem_cons.1 h
    rw [Entries.insert]
    split
    · exact List.forall_mem_cons.2 ⟨he, hes⟩
    · exact List.forall_mem_cons.2 ⟨he, ih hes⟩

theorem stringKeyed_mergeEntries {nulls : NullPolicy} {bs os : Entries}
    (hb : Entries.StringKeyed bs)
    (ho : Entries.StringKeyed os) : Entries.StringKeyed (mergeEntries nulls bs os) := by
  induction os generalizing bs with
  | nil => rwa [mergeEntries]
  | cons e os ih =>
    obtain ⟨k, v⟩ := e
    obtain ⟨hk, ho⟩ := List.forall_mem_cons.1 ho
    rw [Value.mergeEntries_cons]
    split
    · exact ih (stringKeyed_insert hb hk _) ho
    · exact ih hb ho

variable {α : Type} {parts : List (Text × α)} {Allowed Given : α → Value → Prop} {b o : Value}

theorem Has.exists_mapping {v : Value} (h : Has parts Allowed v) :
    ∃ es, v = .mapping es ∧ Has parts Allowed (.mapping es) := by
  cases v with
  | mapping es => exact ⟨es, rfl, h⟩
  | _ => cases h

/-- What becomes of the parts of a base: the overlay does not have a part, or has a value for it
that is merged over the base's. -/
theorem Has.mergeWith_cases (hb : Has parts Allowed b) (ho : Gives parts Given o) (hk : o.Keyed) :
    ∃ es, mergeWith .keepBase b o = .mapping es ∧ Entries.StringKeyed es ∧
      ∀ p ∈ parts, ∃ w, b.atKeys? [.string p.1] = some w ∧ Allowed p.2 w ∧
        (o.atKeys? [.string p.1] = none ∧ Entries.find? es (.string p.1) = some w ∨
          ∃ v, o.atKeys? [.string p.1] = some v ∧ Given p.2 v ∧ v.Keyed ∧
            Entries.find? es (.string p.1) = some (mergeWith .keepBase w v)) := by
  obtain ⟨bs, rfl, hbs, hparts⟩ := hb.exists_mapping
  cases o with
  | null =>
    refine ⟨bs, by rw [mergeWith, if_pos rfl], hbs, fun p hp => ?_⟩
    obtain ⟨w, hw, hallowed⟩ := hparts p hp
    exact ⟨w, by rw [atKeys?, hw]; rfl, hallowed, Or.inl ⟨rfl, hw⟩⟩
  | mapping os =>
    obtain ⟨hos, hgiven⟩ := ho
    refine ⟨mergeEntries .keepBase bs os, Value.mergeWith_mapping ..,
      stringKeyed_mergeEntries hbs hos, fun p hp => ?_⟩
    obtain ⟨w, hw, hallowed⟩ := hparts p hp
    refine ⟨w, by rw [atKeys?, hw]; rfl, hallowed, ?_⟩
    have hfind := Value.find?_mergeEntries .keepBase (Value.keyed_mapping.1 hk).1 bs (.string p.1)
    cases hv : Entries.find? os (.string p.1) with
    | none => exact Or.inl ⟨by rw [atKeys?, hv]; rfl, by rw [hfind, hv]; exact hw⟩
    | some v =>
      refine Or.inr ⟨v, by rw [atKeys?, hv]; rfl, hgiven p hp v hv, hk.of_find? hv, ?_⟩
      rw [hfind, hv, hw]
      rfl
  | _ => cases ho

/-- No field takes a null or a mapping. -/
theorem takes_eq_false {v : Value} (hv : v = .null ∨ v.isMapping = true) :
    ∀ s ∈ sections, ∀ f ∈ s.2, f.2 v = false := by
  simp only [sections, backupFields, mergeFields, watchFields, List.forall_mem_cons]
  rcases hv with rfl | hv
  · exact ⟨⟨rfl, rfl, rfl, by simp⟩, ⟨rfl, rfl, by simp⟩, ⟨rfl, by simp⟩, by simp⟩
  · obtain ⟨es, rfl⟩ := Value.isMapping_eq_true hv
    exact ⟨⟨rfl, rfl, rfl, by simp⟩, ⟨rfl, rfl, by simp⟩, ⟨rfl, by simp⟩, by simp⟩

theorem plain_of_takes {s : Text × Fields} (hs : s ∈ sections) {f : Text × (Value → Bool)}
    (hf : f ∈ s.2) {v : Value} (hv : f.2 v = true) : v ≠ .null ∧ v.isMapping = false := by
  have hnot : ¬ (v = .null ∨ v.isMapping = true) := by
    intro h
    rw [takes_eq_false h s hs f hf] at hv
    cases hv
  rw [not_or, Bool.not_eq_true] at hnot
  exact hnot

/-- A value that a field takes replaces what is below it, and a null does not. -/
theorem mergeWith_field {s : Text × Fields} (hs : s ∈ sections) {f : Text × (Value → Bool)}
    (hf : f ∈ s.2) {w v : Value} (hw : f.2 w = true) (hv : v = .null ∨ f.2 v = true) :
    f.2 (mergeWith .keepBase w v) = true ∧
      some (mergeWith .keepBase w v) = ((some v).filter (· ≠ .null)).or (some w) := by
  rcases hv with rfl | hv
  · have hkeep : mergeWith .keepBase w .null = w := by rw [mergeWith, if_pos rfl]
    rw [hkeep]
    exact ⟨hw, rfl⟩
  · obtain ⟨hnull, hplain⟩ := plain_of_takes hs hf hv
    have hover : mergeWith .keepBase w v = v := by
      rcases Value.mergeWith_cases .keepBase w v with h | ⟨h, -⟩ | ⟨-, os, -, rfl⟩
      · exact h
      · exact absurd h hnull
      · cases hplain
    rw [hover, Option.filter_some, if_pos (decide_eq_true hnull)]
    exact ⟨hv, rfl⟩

/-- A section of a file over a whole section. -/
theorem IsWholeSection.mergeWith {s : Text × Fields} (hs : s ∈ sections) {b x : Value}
    (hb : IsWholeSection s.2 b) (hx : IsSection s.2 x) (hk : x.Keyed) :
    IsWholeSection s.2 (mergeWith .keepBase b x) ∧ ∀ f ∈ s.2,
      (mergeWith .keepBase b x).atKeys? [.string f.1] =
        ((x.atKeys? [.string f.1]).filter (· ≠ .null)).or (b.atKeys? [.string f.1]) := by
  obtain ⟨es, hes, hkeyed, hparts⟩ := hb.mergeWith_cases hx hk
  have hfield : ∀ f ∈ s.2, ∃ w, Entries.find? es (.string f.1) = some w ∧ f.2 w = true ∧
      some w = ((x.atKeys? [.string f.1]).filter (· ≠ .null)).or (b.atKeys? [.string f.1]) := by
    intro f hf
    obtain ⟨w, hw, htaken, ⟨hnone, hfind⟩ | ⟨v, hv, hgiven, -, hfind⟩⟩ := hparts f hf
    · exact ⟨w, hfind, htaken, by rw [hnone, hw]; rfl⟩
    · obtain ⟨hmerged, heq⟩ := mergeWith_field hs hf htaken hgiven
      exact ⟨_, hfind, hmerged, by rw [hv, hw, heq]⟩
  rw [hes]
  refine ⟨⟨hkeyed, fun f hf => ?_⟩, fun f hf => ?_⟩
  · obtain ⟨w, hfind, htaken, -⟩ := hfield f hf
    exact ⟨w, hfind, htaken⟩
  · obtain ⟨w, hfind, -, heq⟩ := hfield f hf
    rw [← heq, atKeys?, hfind]
    rfl

theorem atKeys?_pair (v : Value) (k l : Value) :
    v.atKeys? [k, l] = (v.atKeys? [k]).bind (·.atKeys? [l]) :=
  Value.atKeys?_append v [k] [l]

/-- A file over a whole document. -/
theorem IsWhole.mergeWith {b o : Value} (hb : IsWhole b) (ho : IsLayer o) (hk : o.Keyed) :
    IsWhole (mergeWith .keepBase b o) ∧ ∀ s ∈ sections, ∀ f ∈ s.2,
      (mergeWith .keepBase b o).atKeys? [.string s.1, .string f.1] =
        (given? o s.1 f.1).or (b.atKeys? [.string s.1, .string f.1]) := by
  obtain ⟨es, hes, hkeyed, hparts⟩ := hb.mergeWith_cases ho hk
  have hsection : ∀ s ∈ sections, ∃ w, Entries.find? es (.string s.1) = some w ∧
      IsWholeSection s.2 w ∧
      ∀ f ∈ s.2, w.atKeys? [.string f.1] =
        (given? o s.1 f.1).or (b.atKeys? [.string s.1, .string f.1]) := by
    intro s hs
    obtain ⟨w, hw, hwhole, ⟨hnone, hfind⟩ | ⟨v, hv, hgiven, hvk, hfind⟩⟩ := hparts s hs
    · refine ⟨w, hfind, hwhole, fun f _ => ?_⟩
      rw [given?, atKeys?_pair o, hnone, atKeys?_pair b, hw]
      rfl
    · obtain ⟨hmerged, heq⟩ := hwhole.mergeWith hs hgiven hvk
      refine ⟨_, hfind, hmerged, fun f hf => ?_⟩
      rw [heq f hf, given?, atKeys?_pair o, hv, atKeys?_pair b, hw]
      rfl
  rw [hes]
  refine ⟨⟨hkeyed, fun s hs => ?_⟩, fun s hs f hf => ?_⟩
  · obtain ⟨w, hfind, hwhole, -⟩ := hsection s hs
    exact ⟨w, hfind, hwhole⟩
  · obtain ⟨w, hfind, -, heq⟩ := hsection s hs
    rw [← heq f hf, atKeys?, hfind]
    rfl

theorem IsWhole.ne_null {b : Value} (hb : IsWhole b) : b ≠ .null := by
  rintro rfl
  cases hb

/-- The file that is merged last and gives a field decides it. -/
theorem IsWhole.mergeAll {b : Value} (hb : IsWhole b) (hbk : b.Keyed) {layers : List Value}
    (hl : ∀ o ∈ layers, IsLayer o ∧ o.Keyed) :
    IsWhole (Value.mergeAll .keepBase (b :: layers)) ∧
    (Value.mergeAll .keepBase (b :: layers)).Keyed ∧
      ∀ s ∈ sections, ∀ f ∈ s.2,
        (Value.mergeAll .keepBase (b :: layers)).atKeys? [.string s.1, .string f.1] =
          layers.foldl (fun below o => (given? o s.1 f.1).or below)
            (b.atKeys? [.string s.1, .string f.1]) := by
  induction layers generalizing b with
  | nil => exact ⟨hb, hbk, fun _ _ _ _ => rfl⟩
  | cons o layers ih =>
    obtain ⟨⟨ho, hok⟩, hl⟩ := List.forall_mem_cons.1 hl
    obtain ⟨hmerged, heq⟩ := hb.mergeWith ho hok
    have hmergedKeyed := Value.mergeWith_keyed .keepBase hbk o hok
    have hcons : Value.mergeAll .keepBase (b :: o :: layers) =
        Value.mergeAll .keepBase (Value.mergeWith .keepBase b o :: layers) := by
      simp only [Value.mergeAll, List.foldl_cons, if_true, if_neg hb.ne_null]
    obtain ⟨hwhole, hkeyed, hfields⟩ := ih hmerged hmergedKeyed hl
    rw [hcons]
    refine ⟨hwhole, hkeyed, fun s hs f hf => ?_⟩
    rw [hfields s hs f hf, heq s hs f hf, List.foldl_cons]

theorem exists_named {es : Entries} (h : Entries.StringKeyed es) :
    ∃ named : List (Text × Value), es = named.map fun e => (.string e.1, e.2) := by
  induction es with
  | nil => exact ⟨[], rfl⟩
  | cons e es ih =>
    obtain ⟨k, v⟩ := e
    obtain ⟨hk, hes⟩ := List.forall_mem_cons.1 h
    obtain ⟨named, rfl⟩ := ih hes
    cases k with
    | string s => exact ⟨(s, v) :: named, rfl⟩
    | _ => cases hk

theorem find?_named (named : List (Text × Value)) (n : Text) :
    Entries.find? (named.map fun e => (.string e.1, e.2)) (.string n) = named.lookup n := by
  induction named with
  | nil => rfl
  | cons e named ih =>
    obtain ⟨s, v⟩ := e
    rw [List.map_cons, Entries.find?_cons, ih, List.lookup_cons]
    by_cases h : s = n
    · subst h
      simp [Value.sameKey_refl]
    · have hkey : ¬ (Value.string s).sameKey (.string n) = true := by
        rw [Value.sameKey_string]
        simpa using h
      rw [if_neg hkey]
      have hne : (n == s) = false := by simpa using fun hns => h hns.symm
      rw [hne]

theorem read_named (named : List (Text × Value)) :
    (named.map fun e => (Value.string e.1, e.2)).mapM (fun e => e.1.text?.map (·, e.2)) =
      some named := by
  induction named with
  | nil => rfl
  | cons e named ih =>
    rw [List.map_cons, List.mapM_cons, ih]
    rfl

/-- Distinct keys have distinct names, so that no name is read twice. -/
theorem filter_named {named : List (Text × Value)}
    (h : Entries.Distinct (named.map fun e => (.string e.1, e.2))) (n : Text) :
    (named.filter (·.1 = n)).length ≤ 1 := by
  have hnodup : (named.map (·.1)).Nodup := by
    rw [List.Nodup, List.pairwise_map]
    refine (List.pairwise_map.1 h).imp fun hkeys heq => ?_
    rw [heq, Value.sameKey_refl] at hkeys
    cases hkeys
  have hcount := List.nodup_iff_count_le_one.1 hnodup n
  rw [List.count, List.countP_map, List.countP_eq_length_filter] at hcount
  simpa only [Function.comp_def, beq_eq_decide] using hcount

/-- The fields of a mapping with strings for keys are the values under these keys. -/
theorem fields?_mapping {es : Entries} (hs : Entries.StringKeyed es) (hd : Entries.Distinct es)
    (names : List Text) :
    fields? names (.mapping es) = some (names.map fun n => Entries.find? es (.string n)) := by
  obtain ⟨named, rfl⟩ := exists_named hs
  have honce : (names.all fun n => (named.filter (·.1 = n)).length ≤ 1) = true :=
    List.all_eq_true.2 fun n _ => decide_eq_true (filter_named hd n)
  simp only [fields?, Value.untag,
    read_named, Option.bind_eq_bind, Option.bind_some, honce, if_true, find?_named]

theorem Has.fields?_eq {v : Value} (hv : Has parts Allowed v) (hk : v.Keyed) :
    fields? (parts.map (·.1)) v = some (parts.map fun p => v.atKeys? [.string p.1]) := by
  obtain ⟨es, rfl, hs, -⟩ := hv.exists_mapping
  rw [fields?_mapping hs (Value.keyed_mapping.1 hk).1, List.map_map]
  have hat : ∀ k, (Value.mapping es).atKeys? [k] = Entries.find? es k :=
    fun k => Option.bind_fun_some _
  simp only [hat]
  rfl

/-- A field of a whole section has a value, and it is of the field's type. -/
theorem IsWholeSection.field {fields : Fields} {v : Value} (hv : IsWholeSection fields v) {β : Type}
    (decode : Value → Option β) {n : Text} (hn : (n, fun w => (decode w).isSome) ∈ fields) :
    ∃ a, (v.atKeys? [.string n]).bind decode = some a ∧
      ∀ default, orDefault decode default (v.atKeys? [.string n]) = some a := by
  obtain ⟨es, rfl, -, hparts⟩ := hv.exists_mapping
  obtain ⟨w, hw, htakes⟩ := hparts _ hn
  obtain ⟨a, ha⟩ := Option.isSome_iff_exists.1 htakes
  have hat : (Value.mapping es).atKeys? [.string n] = some w := by
    rw [atKeys?, hw]
    rfl
  rw [hat]
  exact ⟨a, ha, fun _ => ha⟩

theorem backups?_of_whole {v : Value} (hv : IsWholeSection backupFields v) (hk : v.Keyed) :
    ∃ s, backups? v = some s ∧ (v.atKeys? [.string "dir_name"]).bind Value.text? = some s.dirName ∧
      (v.atKeys? [.string "manifest_name"]).bind Value.text? = some s.manifestName ∧
      (v.atKeys? [.string "pre_restore_tag"]).bind Value.text? = some s.preRestoreTag := by
  have hfields : fields? ["dir_name", "manifest_name", "pre_restore_tag"] v =
      some [v.atKeys? [.string "dir_name"], v.atKeys? [.string "manifest_name"],
        v.atKeys? [.string "pre_restore_tag"]] := hv.fields?_eq hk
  obtain ⟨dir, hdir, hdir'⟩ := hv.field Value.text? (n := "dir_name") (by simp [backupFields])
  obtain ⟨manifest, hmanifest, hmanifest'⟩ :=
    hv.field Value.text? (n := "manifest_name") (by simp [backupFields])
  obtain ⟨tag, htag, htag'⟩ :=
    hv.field Value.text? (n := "pre_restore_tag") (by simp [backupFields])
  refine ⟨⟨dir, manifest, tag⟩, ?_, hdir, hmanifest, htag⟩
  simp only [backups?, hfields, Option.bind_eq_bind, Option.bind_some, hdir', hmanifest', htag']

theorem merge?_of_whole {v : Value} (hv : IsWholeSection mergeFields v) (hk : v.Keyed) :
    ∃ s, merge? v = some s ∧ (v.atKeys? [.string "strategy"]).bind strategy? = some s.strategy ∧
      (v.atKeys? [.string "resolve_interpolations"]).bind bool? = some s.resolveInterpolations := by
  have hfields : fields? ["strategy", "resolve_interpolations"] v =
      some [v.atKeys? [.string "strategy"], v.atKeys? [.string "resolve_interpolations"]] :=
    hv.fields?_eq hk
  obtain ⟨strategy, hstrategy, hstrategy'⟩ :=
    hv.field strategy? (n := "strategy") (by simp [mergeFields])
  obtain ⟨resolve, hresolve, hresolve'⟩ :=
    hv.field bool? (n := "resolve_interpolations") (by simp [mergeFields])
  refine ⟨⟨strategy, resolve⟩, ?_, hstrategy, hresolve⟩
  simp only [merge?, hfields, Option.bind_eq_bind, Option.bind_some, hstrategy', hresolve']

theorem watch?_of_whole {v : Value} (hv : IsWholeSection watchFields v) (hk : v.Keyed) :
    ∃ n, watch? v = some n ∧ (v.atKeys? [.string "debounce_ms"]).bind natural? = some n := by
  have hfields : fields? ["debounce_ms"] v = some [v.atKeys? [.string "debounce_ms"]] :=
    hv.fields?_eq hk
  obtain ⟨n, hn, hn'⟩ := hv.field natural? (n := "debounce_ms") (by simp [watchFields])
  refine ⟨n, ?_, hn⟩
  simp only [watch?, hfields, Option.bind_eq_bind, Option.bind_some, hn']

theorem IsWhole.section {v : Value} (hv : IsWhole v) (hk : v.Keyed) {s : Text × Fields}
    (hs : s ∈ sections) :
    ∃ w, v.atKeys? [.string s.1] = some w ∧ IsWholeSection s.2 w ∧ w.Keyed ∧
      ∀ k, v.atKeys? [.string s.1, k] = w.atKeys? [k] := by
  obtain ⟨es, rfl, -, hparts⟩ := hv.exists_mapping
  obtain ⟨w, hw, hwhole⟩ := hparts s hs
  have hat : (Value.mapping es).atKeys? [.string s.1] = some w := by
    rw [atKeys?, hw]
    rfl
  exact ⟨w, hat, hwhole, hk.of_find? hw, fun k => by rw [atKeys?_pair, hat]; rfl⟩

/-- A field's value in a document, as the field's type has it. -/
def read? {β : Type} (v : Value) (sectionName field : Text) (decode : Value → Option β) :
    Option β :=
  (v.atKeys? [.string sectionName, .string field]).bind decode

/-- From a whole document settings can be read, each from the value of its field. -/
theorem ofValue?_of_whole {v : Value} (hv : IsWhole v) (hk : v.Keyed) :
    ∃ s, ofValue? v = some s ∧
      read? v "backups" "dir_name" Value.text? = some s.backups.dirName ∧
      read? v "backups" "manifest_name" Value.text? = some s.backups.manifestName ∧
      read? v "backups" "pre_restore_tag" Value.text? = some s.backups.preRestoreTag ∧
      read? v "merge" "strategy" strategy? = some s.merge.strategy ∧
      read? v "merge" "resolve_interpolations" bool? = some s.merge.resolveInterpolations ∧
      read? v "watch" "debounce_ms" natural? = some s.debounceMs := by
  have hsections : fields? ["backups", "merge", "watch"] v =
      some [v.atKeys? [.string "backups"], v.atKeys? [.string "merge"],
        v.atKeys? [.string "watch"]] :=
    hv.fields?_eq hk
  obtain ⟨b, hb, hbs, hbk, hbat⟩ :=
    hv.section hk (s := ("backups", backupFields)) (by simp [sections])
  obtain ⟨m, hm, hms, hmk, hmat⟩ := hv.section hk (s := ("merge", mergeFields)) (by simp [sections])
  obtain ⟨w, hw, hws, hwk, hwat⟩ := hv.section hk (s := ("watch", watchFields)) (by simp [sections])
  obtain ⟨backups, hbackups, hfields⟩ := backups?_of_whole hbs hbk
  obtain ⟨merge, hmerge, hfields'⟩ := merge?_of_whole hms hmk
  obtain ⟨debounce, hdebounce, hfields''⟩ := watch?_of_whole hws hwk
  simp only [read?, hbat, hmat, hwat]
  refine ⟨⟨backups, merge, debounce⟩, ?_, hfields.1, hfields.2.1, hfields.2.2,
    hfields'.1, hfields'.2, hfields''⟩
  simp only [ofValue?, hsections, hb, hm, hw, orDefault, Option.bind_eq_bind, Option.bind_some,
    hbackups, hmerge, hdebounce]

theorem isWhole_standard : IsWhole standard.toValue ∧ standard.toValue.Keyed := by decide +kernel

/-- The value that the environment and the files come to for a field. -/
def Settles {β : Type} (environment : Option β) (user project : Option Value)
    (sectionName field : Text) (decode : Value → Option β) (builtIn b : β) : Prop :=
  match environment, project.bind (given? · sectionName field),
    user.bind (given? · sectionName field) with
  | some c, _, _ => b = c
  | none, some v, _ => decode v = some b
  | none, none, some v => decode v = some b
  | none, none, none => b = builtIn

theorem applyEnvironment_eq (env : Environment) (s : Settings) :
    applyEnvironment env s =
      ⟨{ s.backups with
          dirName := (env.lookup "HYDRA_COMPOSE_BACKUP_DIR".toList).getD s.backups.dirName },
        { s.merge with
          strategy := ((env.lookup "HYDRA_COMPOSE_MERGE_STRATEGY".toList).bind
            MergeStrategy.ofWord?).getD s.merge.strategy }, s.debounceMs⟩ := by
  rw [applyEnvironment]
  cases env.lookup "HYDRA_COMPOSE_BACKUP_DIR".toList <;>
    cases (env.lookup "HYDRA_COMPOSE_MERGE_STRATEGY".toList).bind MergeStrategy.ofWord? <;> rfl

theorem layer?_value (t : FileTree) (tier : SettingsTier) (file : Option Path) :
    (layer? t tier file).toList.map (·.1) = (file.bind t.document?).toList := by
  cases file with
  | none => rfl
  | some p =>
    simp only [layer?, Option.bind_eq_bind, Option.bind_some]
    cases t.document? p <;> rfl

theorem layer?_source (t : FileTree) (tier : SettingsTier) (file : Option Path) :
    (layer? t tier file).toList.map (·.2) =
      (file.filter fun p => (t.document? p).isSome).toList.map (tier, ·) := by
  cases file with
  | none => rfl
  | some p =>
    simp only [layer?, Option.bind_eq_bind, Option.bind_some, Option.filter_some]
    cases t.document? p <;> rfl

/-- What is loaded, from the files that can be read. -/
theorem load_eq (env : Environment) (t : FileTree) (paths : SettingsPaths) :
    load env t paths =
      ⟨applyEnvironment env ((ofValue? (Value.mergeAll .keepBase (standard.toValue ::
          ((paths.userFile.bind t.document?).toList ++
            (paths.projectFile.bind t.document?).toList)))).getD standard),
        (paths.userFile.filter fun p => (t.document? p).isSome).toList.map (SettingsTier.user, ·) ++
          (paths.projectFile.filter fun p => (t.document? p).isSome).toList.map
            (SettingsTier.project, ·)⟩ := by
  simp only [load, SettingsPaths.userFile, List.map_append, layer?_value, layer?_source]

/-- A field is settled by the environment or by what is read from the merged document. -/
theorem settles_of_read {β : Type} {decode : Value → Option β} {builtIn b : β}
    {sectionName field : Text}
    {v : Value} (environment : Option β) (user project : Option Value)
    (hbuiltIn : read? standard.toValue sectionName field decode = some builtIn)
    (hat : v.atKeys? [.string sectionName, .string field] =
      (user.toList ++ project.toList).foldl (fun below o => (given? o sectionName field).or below)
        (standard.toValue.atKeys? [.string sectionName, .string field]))
    (hread : read? v sectionName field decode = some b) :
    Settles environment user project sectionName field decode builtIn (environment.getD b) := by
  have hlayers : v.atKeys? [.string sectionName, .string field] =
      (project.bind (given? · sectionName field)).or ((user.bind (given? · sectionName field)).or
        (standard.toValue.atKeys? [.string sectionName, .string field])) := by
    rw [hat]
    cases user <;> cases project <;> rfl
  rw [read?, hlayers] at hread
  unfold Settles
  split
  · rfl
  · next hp =>
    rw [hp] at hread
    exact hread
  · next hp hu =>
    rw [hp, hu] at hread
    exact hread
  · next hp hu =>
    rw [hp, hu, Option.none_or, Option.none_or, ← read?, hbuiltIn] at hread
    exact (Option.some.inj hread).symm

/-- **Settings are settled field by field.** If the files that can be read hold settings, each field
has the value of the environment, of the project's file, of the user's file or the built-in one,
whichever is the first that is given. The sources are the files that could be read, the user's
first. -/
theorem load_settles (env : Environment) (t : FileTree) (paths : SettingsPaths)
    (hu : ∀ v ∈ paths.userFile.bind t.document?, IsLayer v)
    (hp : ∀ v ∈ paths.projectFile.bind t.document?, IsLayer v) :
    let user := paths.userFile.bind t.document?
    let project := paths.projectFile.bind t.document?
    let loaded := load env t paths
    Settles (env.lookup "HYDRA_COMPOSE_BACKUP_DIR".toList) user project "backups"
      "dir_name" Value.text?
      standard.backups.dirName loaded.settings.backups.dirName ∧
    Settles none user project "backups" "manifest_name" Value.text?
      standard.backups.manifestName loaded.settings.backups.manifestName ∧
    Settles none user project "backups" "pre_restore_tag" Value.text?
      standard.backups.preRestoreTag loaded.settings.backups.preRestoreTag ∧
    Settles ((env.lookup "HYDRA_COMPOSE_MERGE_STRATEGY".toList).bind MergeStrategy.ofWord?)
      user project
      "merge" "strategy" strategy? standard.merge.strategy loaded.settings.merge.strategy ∧
    Settles none user project "merge" "resolve_interpolations" bool?
      standard.merge.resolveInterpolations loaded.settings.merge.resolveInterpolations ∧
    Settles none user project "watch" "debounce_ms" natural?
      standard.debounceMs loaded.settings.debounceMs ∧
    loaded.sources =
      (paths.userFile.filter fun p => (t.document? p).isSome).toList.map (SettingsTier.user, ·) ++
        (paths.projectFile.filter fun p => (t.document? p).isSome).toList.map
          (SettingsTier.project, ·) := by
  intro user project loaded
  have hlayers : ∀ o ∈ user.toList ++ project.toList, IsLayer o ∧ o.Keyed := by
    intro o ho
    rcases List.mem_append.1 ho with h | h
    · have hmem := Option.mem_toList.1 h
      obtain ⟨p, -, hdoc⟩ := Option.bind_eq_some_iff.1 hmem
      exact ⟨hu o hmem, FileTree.document?_keyed hdoc⟩
    · have hmem := Option.mem_toList.1 h
      obtain ⟨p, -, hdoc⟩ := Option.bind_eq_some_iff.1 hmem
      exact ⟨hp o hmem, FileTree.document?_keyed hdoc⟩
  obtain ⟨hwhole, hkeyed, hfields⟩ := isWhole_standard.1.mergeAll isWhole_standard.2 hlayers
  obtain ⟨s, hs, hdir, hmanifest, htag, hstrategy, hresolve, hdebounce⟩ :=
    ofValue?_of_whole hwhole hkeyed
  have hloaded : loaded = _ := load_eq env t paths
  simp only [sections, backupFields, mergeFields, watchFields, List.forall_mem_cons] at hfields
  obtain ⟨⟨hdirAt, hmanifestAt, htagAt, -⟩, ⟨hstrategyAt, hresolveAt, -⟩, ⟨hdebounceAt, -⟩, -⟩ :=
    hfields
  rw [hloaded, hs, Option.getD_some, applyEnvironment_eq]
  exact ⟨settles_of_read _ user project rfl hdirAt hdir,
    settles_of_read none user project rfl hmanifestAt hmanifest,
    settles_of_read none user project rfl htagAt htag,
    settles_of_read _ user project rfl hstrategyAt hstrategy,
    settles_of_read none user project rfl hresolveAt hresolve,
    settles_of_read none user project rfl hdebounceAt hdebounce, rfl⟩

/-- A user's file and a project's file. -/
def twoFiles : FileTree where
  entries := [(["home".toList], .directory), (["conf".toList], .directory),
    (["home".toList, "settings.yaml".toList], .file (.text ("backups:\n  dir_name: mine\n" ++
      "  manifest_name: list.json\n  keep: [1]\nmerge:\n  strategy: native\n" ++
      "  resolve_interpolations: false\nwatch:\n  debounce_ms: 100\ntheme: dark\n").toList)),
    (["conf".toList, ".hydra-compose.yaml".toList],
      .file (.text ("backups:\n  manifest_name: null\n" ++
      "merge: null\nwatch:\n  debounce_ms: 250\ntheme:\n  dark: true\n").toList))]
  workingDirectory := []

def userSettings : Value :=
  .mapping [(.string "backups", .mapping [(.string "dir_name", .string "mine"),
      (.string "manifest_name", .string "list.json"),
      (.string "keep", .sequence [.number (.int 1)])]),
    (.string "merge", .mapping [(.string "strategy", .string "native"),
      (.string "resolve_interpolations", .bool false)]),
    (.string "watch", .mapping [(.string "debounce_ms", .number (.int 100))]),
    (.string "theme", .string "dark")]

def projectSettings : Value :=
  .mapping [(.string "backups", .mapping [(.string "manifest_name", .null)]),
    (.string "merge", .null),
    (.string "watch", .mapping [(.string "debounce_ms", .number (.int 250))]),
    (.string "theme", .mapping [(.string "dark", .bool true)])]

/-- The environment sets one field, and for another it has a word that is no strategy. -/
theorem load_settles_two_files :
    let env : Environment :=
      [("HYDRA_COMPOSE_BACKUP_DIR", "kept"), ("HYDRA_COMPOSE_MERGE_STRATEGY", "fast")]
    let paths : SettingsPaths := ⟨some "/home", some "/conf/.hydra-compose.yaml"⟩
    paths.userFile.bind twoFiles.document? = some userSettings ∧
    paths.projectFile.bind twoFiles.document? = some projectSettings ∧
    IsLayer userSettings ∧ IsLayer projectSettings ∧
    load env twoFiles paths =
      ⟨⟨⟨"kept", "list.json", "pre_restore_backup"⟩, ⟨.native, false⟩, 250⟩,
        [(.user, "/home/settings.yaml"), (.project, "/conf/.hydra-compose.yaml")]⟩ := by
  intro env paths
  have huser : paths.userFile.bind twoFiles.document? = some userSettings := by decide +kernel
  have hproject : paths.projectFile.bind twoFiles.document? = some projectSettings := by
    decide +kernel
  have hu : IsLayer userSettings := by decide +kernel
  have hp : IsLayer projectSettings := by decide +kernel
  have h := load_settles env twoFiles paths (by rw [huser]; rintro v ⟨⟩; exact hu)
    (by rw [hproject]; rintro v ⟨⟩; exact hp)
  have hsources : (paths.userFile.filter fun p => (twoFiles.document? p).isSome).toList.map
      (SettingsTier.user, ·) ++
        (paths.projectFile.filter fun p => (twoFiles.document? p).isSome).toList.map
        (SettingsTier.project, ·) =
      [(SettingsTier.user, "/home/settings.yaml".toList),
        (SettingsTier.project, "/conf/.hydra-compose.yaml".toList)] := by decide +kernel
  refine ⟨huser, hproject, hu, hp, ?_⟩
  rw [huser, hproject, hsources] at h
  revert h
  generalize load env twoFiles paths = loaded
  rintro ⟨hdir, hmanifest, htag, hstrategy, hresolve, hdebounce, hsources⟩
  obtain ⟨⟨⟨dir, manifest, tag⟩, ⟨strategy, resolve⟩, debounce⟩, sources⟩ := loaded
  cases hdir
  cases hmanifest
  cases htag
  cases hstrategy
  cases hresolve
  cases hdebounce
  cases hsources
  rfl

end Settings
end LayeredConfig
