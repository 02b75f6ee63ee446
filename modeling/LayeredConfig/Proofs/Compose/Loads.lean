import LayeredConfig.Proofs.Compose.Merged

/-!
# The files that are merged

What the two compositions note is the list of resolved modules: all that are not marked `override`
for the lenient composition, and for the strict one the same list with the last `override` of a
group in the place of the group's first module.
-/
namespace LayeredConfig

namespace ConfigModule

variable {t : FileTree} {root p : Path}

/-- **The list of modules is what is merged.** Besides the root document, lenient composition reads
the files of the resolved modules that are not marked `override`, in order. Strict composition
reads those of the modules of which the first in each group has given way to the group's last
`override`, as long as none of these is one of the root group, and all of them are resolved. -/
theorem resolve_eq_loads {es : Entries} (hd : t.document? p = some (.mapping es)) :
    (∀ v, Lenient.compose t root p [] = .ok v →
      Lenient.composeNoting t root p [] [] = .ok (v,
        p :: ((resolve t root p).filter fun m => m.resolved && !m.isOverride).filterMap path)) ∧
    ((∀ s, .group s ∈ Defaults.entriesOf (.mapping es) → s.isOverride = true →
        s.group ≠ Defaults.rootGroup) →
      ∀ v, Strict.compose t root p [] = .ok v → ∃ files,
        Strict.composeNoting t root p [] [] = .ok (v, p :: files) ∧
        (merged (resolve t root p)).map path = files.map some ∧
        ∀ f ∈ files, ∃ m ∈ resolve t root p, m.path = some f) := by
  constructor
  · intro v hv
    have hplain : (resolve t root p).filterMap plainFile? =
        ((resolve t root p).filter fun m => m.resolved && !m.isOverride).filterMap path := by
      rw [List.filterMap_filter]
      refine List.filterMap_congr fun m _ => ?_
      cases ho : m.isOverride <;> cases hp : m.path <;> simp [plainFile?, resolved, ho, hp]
    rw [Lenient.composeNoting_of [] hd, hv, hplain]
    rfl
  · intro hroot v hv
    obtain ⟨document, own, plan, hd', -, hplan, hlayer⟩ := Strict.compose_nil_eq_ok.1 hv
    obtain rfl : .mapping es = document := Option.some.inj (hd.symm.trans hd')
    obtain ⟨layers, hl, -⟩ := Strict.layer_eq_ok.1 hlayer
    have hfollows := Plan.follows_ofEntries hroot hplan
    rw [← resolve_of_document? hd] at hfollows
    have hthere : ∀ f ∈ plan.filterMap (Step.file? root), t.isFile f = true := by
      have hsteps : ∀ step ∈ plan, ∀ f, step.file? root = some f → t.isFile f = true :=
        ((List.forall₂_and_left plan layers).1 (hl.imp fun step c hc =>
          ⟨fun f hf => Strict.isFile_of_contribution hf hc, hc⟩)).1
      intro f hf
      obtain ⟨step, hstep, hfile⟩ := List.mem_filterMap.1 hf
      exact hsteps step hstep f hfile
    have hmerged : ∀ m ∈ merged (resolve t root p), m ∈ resolve t root p :=
      fun m => mem_of_mem_merged
    have hpaths := hfollows.steps.map_path (fun m hm => ?_) hthere
    · refine ⟨_, ?_, hpaths, fun f hf => ?_⟩
      · rw [Strict.composeNoting_of hd hplan, hv]
        rfl
      · have hmem : some f ∈ (merged (resolve t root p)).map path := by
          rw [hpaths]
          exact List.mem_map_of_mem hf
        obtain ⟨m, hm, hpath⟩ := List.mem_map.1 hmem
        exact ⟨m, hmerged m hm, hpath⟩
    · have hm := hmerged m hm
      rw [resolve_of_document? hd] at hm
      obtain ⟨e, -, he⟩ := List.mem_filterMap.1 hm
      exact eq_locate_of_select? he

/-- A defaults list that selects a missing module and gives its place to another one. -/
def missingReplaced : FileTree where
  entries := [
    (["conf".toList], .directory),
    (["conf".toList, "config.yaml".toList],
      .file (.text "defaults:\n- base\n- model: wide\n- db: main\n- override model: narrow\n")),
    (["conf".toList, "base.yaml".toList], .file (.text "rate: 2\n")),
    (["conf".toList, "model".toList], .directory),
    (["conf".toList, "model".toList, "narrow.yaml".toList], .file (.text "width: 1\n")),
    (["conf".toList, "db".toList], .directory),
    (["conf".toList, "db".toList, "main.yaml".toList], .file (.text "port: 1\n"))]
  workingDirectory := []

def missingReplacedRoot : Entries := [
  (.string "defaults", .sequence [.string "base", .mapping [(.string "model", .string "wide")],
    .mapping [(.string "db", .string "main")],
    .mapping [(.string "override model", .string "narrow")]])]

theorem resolve_eq_loads_missingReplaced :
    let rate : Value × Value := (.string "rate", .number (.int 2))
    let model : Value × Value := (.string "model", .mapping [(.string "width", .number (.int 1))])
    let db : Value × Value := (.string "db", .mapping [(.string "port", .number (.int 1))])
    missingReplaced.document? "/conf/config.yaml" = some (.mapping missingReplacedRoot) ∧
    Lenient.composeNoting missingReplaced "/conf" "/conf/config.yaml" [] [] =
      .ok (.mapping [rate, db],
        ["/conf/config.yaml".toList, "/conf/base.yaml".toList, "/conf/db/main.yaml".toList]) ∧
    ∃ files, Strict.composeNoting missingReplaced "/conf" "/conf/config.yaml" [] [] =
        .ok (.mapping [rate, model, db], "/conf/config.yaml".toList :: files) ∧
      [some "/conf/base.yaml".toList, some "/conf/model/narrow.yaml".toList,
        some "/conf/db/main.yaml".toList] = files.map some := by
  intro rate model db
  have hd : missingReplaced.document? "/conf/config.yaml" =
      some (.mapping missingReplacedRoot) := by decide +kernel
  have hroot : ∀ s, .group s ∈ Defaults.entriesOf (.mapping missingReplacedRoot) →
      s.isOverride = true → s.group ≠ Defaults.rootGroup := by
    have hlist : Defaults.entriesOf (.mapping missingReplacedRoot) = [.bare "base",
        .group ⟨"model", "wide", false, .mapping⟩, .group ⟨"db", "main", false, .mapping⟩,
        .group ⟨"model", "narrow", true, .mapping⟩] := by decide +kernel
    intro s hs _
    simp only [hlist, List.mem_cons, reduceCtorEq, DefaultsEntry.group.injEq, false_or,
      List.not_mem_nil, or_false] at hs
    rcases hs with rfl | rfl | rfl <;> decide
  have hplain : ((resolve missingReplaced "/conf" "/conf/config.yaml").filter fun m =>
      m.resolved && !m.isOverride).filterMap path =
        ["/conf/base.yaml".toList, "/conf/db/main.yaml".toList] := by decide +kernel
  have hmerged : (merged (resolve missingReplaced "/conf" "/conf/config.yaml")).map path =
      [some "/conf/base.yaml".toList, some "/conf/model/narrow.yaml".toList,
        some "/conf/db/main.yaml".toList] := by decide +kernel
  obtain ⟨hlenient, hstrict⟩ := @resolve_eq_loads missingReplaced "/conf" _ _ hd
  rw [hplain] at hlenient
  obtain ⟨files, hfiles, hpaths, -⟩ :=
    hstrict hroot (.mapping [rate, model, db]) (by decide +kernel)
  exact ⟨hd, hlenient (.mapping [rate, db]) (by decide +kernel), files, hfiles,
    hmerged.symm.trans hpaths⟩

end ConfigModule
end LayeredConfig
