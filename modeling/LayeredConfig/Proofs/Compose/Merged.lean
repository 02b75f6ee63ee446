import LayeredConfig.Proofs.Compose.Noting

/-!
# Modules that give way

The plan of a defaults list, seen from the list of its modules. Those that are marked `override` are
not merged in their own place: the first module of a group gives way to the last of them.
-/
namespace LayeredConfig

open Outcome

namespace ConfigModule

/-- The last module of a group that is marked `override`. -/
def lastOverride? (ms : List ConfigModule) (group : Text) : Option ConfigModule :=
  (ms.filter fun m => m.isOverride && m.group = group).getLast?

/-- Modules of which the first of each group gives way to another one, if there is one for the
group. The groups in `seen` have had their first module. -/
def giveWay (other? : Text → Option ConfigModule) :
    (seen : List Text) → List ConfigModule → List ConfigModule
  | _, [] => []
  | seen, m :: ms =>
    (if m.group ∈ seen then m else (other? m.group).getD m) ::
      giveWay other? (m.group :: seen) ms

/-- The modules that are merged strictly: those that are not marked `override`, with the last
`override` of a group in the place of the group's first module. -/
def merged (ms : List ConfigModule) : List ConfigModule :=
  giveWay (lastOverride? ms) [] (ms.filter fun m => ¬ m.isOverride)

/-- The list with `m` in the place of the first module of its group. -/
def replaceFirst (m : ConfigModule) : List ConfigModule → List ConfigModule
  | [] => []
  | n :: ns => if n.group = m.group then m :: ns else n :: replaceFirst m ns

theorem lastOverride?_eq_some {ms : List ConfigModule} {group : Text} {m : ConfigModule}
    (h : lastOverride? ms group = some m) : m ∈ ms ∧ m.isOverride = true ∧ m.group = group := by
  have hm := List.mem_filter.1 (List.mem_of_getLast? h)
  simpa using hm

theorem lastOverride?_concat_plain (ms : List ConfigModule) {m : ConfigModule}
    (hm : m.isOverride = false) : lastOverride? (ms ++ [m]) = lastOverride? ms := by
  funext group
  simp [lastOverride?, List.filter_append, hm]

theorem lastOverride?_concat_override (ms : List ConfigModule) {m : ConfigModule}
    (hm : m.isOverride = true) (group : Text) :
    lastOverride? (ms ++ [m]) group =
      if m.group = group then some m else lastOverride? ms group := by
  by_cases h : m.group = group <;> simp [lastOverride?, List.filter_append, hm, h]

variable {other? : Text → Option ConfigModule} {seen : List Text}

theorem mem_giveWay {ms : List ConfigModule} {m : ConfigModule} (h : m ∈ giveWay other? seen ms) :
    m ∈ ms ∨ ∃ group, other? group = some m := by
  induction ms generalizing seen with
  | nil => cases h
  | cons n ms ih =>
    rcases List.mem_cons.1 h with rfl | h
    · by_cases hseen : n.group ∈ seen
      · rw [if_pos hseen]
        exact Or.inl List.mem_cons_self
      · rw [if_neg hseen]
        cases ho : other? n.group with
        | none => exact Or.inl List.mem_cons_self
        | some m => exact Or.inr ⟨n.group, ho⟩
    · exact (ih h).imp_left (List.mem_cons_of_mem _)

/-- A module at the end of its group stays as it is, unless it is the first one. -/
theorem giveWay_concat (ms : List ConfigModule) (m : ConfigModule) :
    giveWay other? seen (ms ++ [m]) = giveWay other? seen ms ++
      [if m.group ∈ seen ∨ m.group ∈ ms.map group then m else (other? m.group).getD m] := by
  induction ms generalizing seen with
  | nil => simp [giveWay]
  | cons n ms ih =>
    rw [List.cons_append, giveWay, ih, giveWay, List.cons_append, List.map_cons]
    have hiff : (m.group ∈ n.group :: seen ∨ m.group ∈ ms.map group) ↔
        (m.group ∈ seen ∨ m.group ∈ n.group :: ms.map group) := by
      simp only [List.mem_cons]
      tauto
    simp only [hiff]

/-- Another module for one group takes the place of the group's first one. -/
theorem giveWay_replace {ms : List ConfigModule} {m : ConfigModule}
    (hgroup : ∀ g n, other? g = some n → n.group = g) :
    giveWay (fun g => if m.group = g then some m else other? g) seen ms =
      if m.group ∈ seen then giveWay other? seen ms
      else replaceFirst m (giveWay other? seen ms) := by
  induction ms generalizing seen with
  | nil => simp [giveWay, replaceFirst]
  | cons n ms ih =>
    have hhead : ((other? n.group).getD n).group = n.group := by
      cases ho : other? n.group with
      | none => rfl
      | some o => exact hgroup _ _ ho
    simp only [giveWay, ih, replaceFirst]
    by_cases hn : m.group = n.group
    · by_cases hseen : n.group ∈ seen
      · simp [hn, hseen]
      · simp [hn, hseen, hhead]
    · have hn' : n.group ≠ m.group := fun h => hn h.symm
      by_cases hseen : n.group ∈ seen
      · by_cases hm : m.group ∈ seen <;> simp [hn, hn', hseen, hm]
      · by_cases hm : m.group ∈ seen <;> simp [hn, hn', hseen, hm, hhead]

theorem merged_concat_plain (ms : List ConfigModule) {m : ConfigModule}
    (hm : m.isOverride = false)
    (hseen : (∃ n ∈ ms, n.isOverride = false ∧ n.group = m.group) ∨
      lastOverride? ms m.group = none) : merged (ms ++ [m]) = merged ms ++ [m] := by
  unfold merged
  rw [lastOverride?_concat_plain ms hm, List.filter_append]
  simp only [List.filter_cons, hm, Bool.false_eq_true, not_false_eq_true, decide_true, if_true,
    List.filter_nil, giveWay_concat]
  congr 2
  rcases hseen with ⟨n, hn, hplain, hgroup⟩ | hnone
  · rw [if_pos]
    exact Or.inr (List.mem_map.2 ⟨n, List.mem_filter.2 ⟨hn, by simp [hplain]⟩, hgroup⟩)
  · rw [hnone, Option.getD_none, ite_self]

theorem merged_concat_override (ms : List ConfigModule) {m : ConfigModule}
    (hm : m.isOverride = true) : merged (ms ++ [m]) = replaceFirst m (merged ms) := by
  have hother : lastOverride? (ms ++ [m]) =
      fun g => if m.group = g then some m else lastOverride? ms g :=
    funext (lastOverride?_concat_override ms hm)
  unfold merged
  rw [hother, List.filter_append, giveWay_replace fun g n h => (lastOverride?_eq_some h).2.2]
  simp [hm]

theorem mem_of_mem_merged {ms : List ConfigModule} {m : ConfigModule} (h : m ∈ merged ms) :
    m ∈ ms := by
  rcases mem_giveWay h with h | ⟨group, h⟩
  · exact (List.mem_filter.1 h).1
  · exact (lastOverride?_eq_some h).1

end ConfigModule

/-- The step that loads the file of a module. -/
def Step.IsFor (m : ConfigModule) : Step → Prop
  | .ownKeys => False
  | .rootFile name => m.group = Defaults.rootGroup ∧ m.name = name
  | .group g name => m.group = g ∧ m.name = name

namespace Plan

variable {t : FileTree} {root : Path}

/-- The steps that load files. -/
def loading (p : Plan) : Plan := p.filter (· ≠ .ownKeys)

/-- A plan of steps for modules, in order. -/
abbrev IsFor (p : Plan) (ms : List ConfigModule) : Prop :=
  List.Forall₂ (fun step m => Step.IsFor m step) p ms

theorem loading_concat (p : Plan) (step : Step) :
    loading (p ++ [step]) = loading p ++ loading [step] := List.filter_append _ _

theorem loading_switch (group name : Text) (p : Plan) :
    loading (p.switch group name) = (loading p).switch group name := by
  induction p with
  | nil => rfl
  | cons step p ih =>
    unfold loading at ih ⊢
    cases step with
    | ownKeys => simpa [switch, Step.selects] using ih
    | rootFile n => simpa [switch, Step.selects] using ih
    | group g n =>
      by_cases hg : g = group
      · simp [switch, Step.selects, hg]
      · simpa [switch, Step.selects, hg] using ih

theorem IsFor.switch {p : Plan} {ms : List ConfigModule} (h : IsFor p ms) {m : ConfigModule}
    (hroot : m.group ≠ Defaults.rootGroup) :
    IsFor (p.switch m.group m.name) (ConfigModule.replaceFirst m ms) := by
  induction h with
  | nil => exact .nil
  | @cons step n p ms hstep hrest ih =>
    cases step with
    | ownKeys => exact hstep.elim
    | rootFile name =>
      have hn : n.group ≠ m.group := fun h => hroot (h ▸ hstep.1)
      simp only [Plan.switch, Step.selects, Bool.false_eq_true, if_false,
        ConfigModule.replaceFirst, hn]
      exact .cons hstep ih
    | group g name =>
      obtain ⟨rfl, hname⟩ := hstep
      by_cases hn : n.group = m.group
      · simp only [Plan.switch, Step.selects, ConfigModule.replaceFirst, hn, decide_true, if_true]
        exact .cons ⟨rfl, rfl⟩ hrest
      · simp only [Plan.switch, Step.selects, ConfigModule.replaceFirst, hn, decide_false,
          Bool.false_eq_true, if_false]
        exact .cons ⟨rfl, hname⟩ ih

theorem selects_loading (p : Plan) (group : Text) :
    (loading p).selects group = p.selects group := by
  unfold selects loading
  rw [List.any_filter]
  congr 1
  funext step
  cases step <;> simp [Step.selects]

/-- A group that is selected has a module. -/
theorem IsFor.mem_of_selects {p : Plan} {ms : List ConfigModule} (h : IsFor p ms) {group : Text}
    (hs : p.selects group = true) : ∃ m ∈ ms, m.group = group := by
  induction h with
  | nil => cases hs
  | @cons step m p ms hstep _ ih =>
    rw [selects, List.any_cons, Bool.or_eq_true] at hs
    rcases hs with hs | hs
    · cases step with
      | group g n =>
        refine ⟨m, List.mem_cons_self, hstep.1.trans ?_⟩
        simpa [Step.selects] using hs
      | ownKeys => cases hs
      | rootFile n => cases hs
    · obtain ⟨m', hm', hg⟩ := ih hs
      exact ⟨m', List.mem_cons_of_mem _ hm', hg⟩

/-- A plan that has been made for the modules of a list: its files are those of the merged
modules, and each `override` has a module before it to take the place of. -/
structure Follows (p : Plan) (ms : List ConfigModule) : Prop where
  steps : IsFor (loading p) (ConfigModule.merged ms)
  aimed : ∀ o ∈ ms, o.isOverride = true → o.group ≠ Defaults.rootGroup ∧
    ∃ m ∈ ms, m.isOverride = false ∧ m.group = o.group

theorem follows_nil : Follows [] [] := ⟨.nil, by simp⟩

/-- One more module at the end. -/
theorem Follows.concat_plain {p : Plan} {ms : List ConfigModule} (h : Follows p ms)
    {m : ConfigModule} (hm : m.isOverride = false) {step : Step} (hstep : step.IsFor m) :
    Follows (p ++ [step]) (ms ++ [m]) := by
  have hseen : (∃ n ∈ ms, n.isOverride = false ∧ n.group = m.group) ∨
      ConfigModule.lastOverride? ms m.group = none := by
    cases ho : ConfigModule.lastOverride? ms m.group with
    | none => exact Or.inr rfl
    | some o =>
      obtain ⟨hmem, hover, hgroup⟩ := ConfigModule.lastOverride?_eq_some ho
      rw [← hgroup]
      exact Or.inl (h.aimed o hmem hover).2
  have hload : loading [step] = [step] := by
    cases step with
    | ownKeys => exact hstep.elim
    | _ => rfl
  refine ⟨?_, fun o ho hover => ?_⟩
  · rw [loading_concat, hload, ConfigModule.merged_concat_plain ms hm hseen]
    exact List.rel_append h.steps (.cons hstep .nil)
  · rcases List.mem_append.1 ho with ho | ho
    · obtain ⟨hroot, n, hn, hplain⟩ := h.aimed o ho hover
      exact ⟨hroot, n, List.mem_append_left _ hn, hplain⟩
    · rw [List.mem_singleton.1 ho, hm] at hover
      cases hover

/-- A module that is marked `override` takes the place of the first one of its group. -/
theorem Follows.concat_override {p : Plan} {ms : List ConfigModule} (h : Follows p ms)
    {m : ConfigModule} (hm : m.isOverride = true) (hroot : m.group ≠ Defaults.rootGroup)
    (hs : p.selects m.group = true) : Follows (p.switch m.group m.name) (ms ++ [m]) := by
  refine ⟨?_, fun o ho hover => ?_⟩
  · rw [loading_switch, ConfigModule.merged_concat_override ms hm]
    exact h.steps.switch hroot
  · have haimed : ∃ n ∈ ms, n.isOverride = false ∧ n.group = m.group := by
      rw [← selects_loading] at hs
      obtain ⟨n, hn, hgroup⟩ := h.steps.mem_of_selects hs
      have hmem := ConfigModule.mem_of_mem_merged hn
      cases hplain : n.isOverride with
      | false => exact ⟨n, hmem, hplain, hgroup⟩
      | true =>
        rw [← hgroup]
        exact (h.aimed n hmem hplain).2
    rcases List.mem_append.1 ho with ho | ho
    · obtain ⟨hr, n, hn, hplain⟩ := h.aimed o ho hover
      exact ⟨hr, n, List.mem_append_left _ hn, hplain⟩
    · obtain rfl := List.mem_singleton.1 ho
      obtain ⟨n, hn, hplain⟩ := haimed
      exact ⟨hroot, n, List.mem_append_left _ hn, hplain⟩

/-- One entry of a defaults list. -/
theorem Follows.takesUp {p q : Plan} {ms : List ConfigModule} (h : Follows p ms) {e : DefaultsEntry}
    (hroot : ∀ s, e = .group s → s.isOverride = true → s.group ≠ Defaults.rootGroup)
    (hq : Plan.TakesUp t root p e q) :
    Follows q (ms ++ (ConfigModule.select? t root e).toList) := by
  cases hq with
  | selfMarker =>
    rw [ConfigModule.select?, Option.toList_none, List.append_nil]
    exact ⟨by rw [loading_concat]; simpa [loading] using h.steps, h.aimed⟩
  | @bare name hfile =>
    have hresolved :
        (ConfigModule.locate t root Defaults.rootGroup name false).resolved = true := by
      simp [ConfigModule.resolved, ConfigModule.locate_path, hfile]
    simp only [ConfigModule.select?, hresolved, if_true, Option.toList_some]
    exact h.concat_plain rfl ⟨rfl, rfl⟩
  | group hplain =>
    simp only [ConfigModule.select?, Option.toList_some, hplain]
    exact h.concat_plain rfl ⟨rfl, rfl⟩
  | @override s hmark hs =>
    simp only [ConfigModule.select?, Option.toList_some, hmark]
    exact h.concat_override (m := ConfigModule.locate t root s.group s.name true) rfl
      (hroot s rfl hmark) hs

theorem Follows.takesUpAll {p q : Plan} {es : List DefaultsEntry} {ms : List ConfigModule}
    (hq : Plan.TakesUpAll t root p es q) (h : Follows p ms)
    (hroot : ∀ s, .group s ∈ es → s.isOverride = true → s.group ≠ Defaults.rootGroup) :
    Follows q (ms ++ es.filterMap (ConfigModule.select? t root)) := by
  induction hq generalizing ms with
  | nil => rwa [List.filterMap_nil, List.append_nil]
  | @cons _ _ _ e es he _ ih =>
    have hnext := h.takesUp (fun s hs => hroot s (hs ▸ List.mem_cons_self)) he
    have hrest := ih hnext fun s hs => hroot s (List.mem_cons_of_mem _ hs)
    rw [List.append_assoc] at hrest
    cases hsel : ConfigModule.select? t root e with
    | none => simpa [List.filterMap_cons, hsel] using hrest
    | some m => simpa [List.filterMap_cons, hsel] using hrest

/-- **The plan of a defaults list loads the files of its merged modules.** -/
theorem follows_ofEntries {entries : List DefaultsEntry} {plan : Plan}
    (hroot : ∀ s, .group s ∈ entries → s.isOverride = true → s.group ≠ Defaults.rootGroup)
    (h : Plan.ofEntries t root entries = .ok plan) :
    Follows plan (entries.filterMap (ConfigModule.select? t root)) := by
  obtain ⟨q, hq, rfl⟩ := Plan.ofEntries_eq_ok.1 h
  have hq' := Follows.takesUpAll hq follows_nil hroot
  refine ⟨?_, hq'.aimed⟩
  unfold close
  split
  · exact hq'.steps
  · rw [loading_concat]
    simpa [loading] using hq'.steps

/-- The files of a plan for modules are those of the modules, as long as they are there. -/
theorem IsFor.map_path {plan : Plan} {ms : List ConfigModule} (h : IsFor (loading plan) ms)
    (hms : ∀ m ∈ ms, m = ConfigModule.locate t root m.group m.name m.isOverride)
    (hfiles : ∀ f ∈ plan.filterMap (Step.file? root), t.isFile f = true) :
    ms.map ConfigModule.path = (plan.filterMap (Step.file? root)).map some := by
  have hloading : plan.filterMap (Step.file? root) =
      (loading plan).filterMap (Step.file? root) := by
    rw [loading, List.filterMap_filter]
    refine List.filterMap_congr fun step _ => ?_
    cases step <;> simp [Step.file?]
  rw [hloading] at hfiles ⊢
  generalize loading plan = steps at h hfiles
  induction h with
  | nil => rfl
  | @cons step m steps ms hstep _ ih =>
    obtain ⟨hm, hms⟩ := List.forall_mem_cons.1 hms
    have hfile : step.file? root = some (modulePath root m.group m.name) := by
      cases step with
      | ownKeys => exact hstep.elim
      | rootFile name => rw [hstep.1, hstep.2]; rfl
      | group g name => rw [hstep.1, hstep.2]; rfl
    rw [List.filterMap_cons, hfile] at hfiles ⊢
    obtain ⟨hthere, hfiles⟩ := List.forall_mem_cons.1 hfiles
    rw [List.map_cons, List.map_cons, ih hms hfiles, hm, ConfigModule.locate_path]
    exact congrArg (· :: _) (if_pos hthere)

end Plan

end LayeredConfig
