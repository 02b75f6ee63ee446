import LayeredConfig.Workspace.Basic

/-!
# What a workspace keeps track of

The root document and the files of its modules are files of the tree that is asked.
-/
namespace LayeredConfig.Workspace

theorem isFile_of_mem_topDocuments {t : FileTree} {root p : Path}
    (h : p ∈ t.topDocuments root) : t.isFile p = true := by
  unfold FileTree.topDocuments at h
  cases hlist : t.list root with
  | error f =>
    rw [hlist] at h
    cases h
  | ok names =>
    rw [hlist] at h
    obtain ⟨n, hn, rfl⟩ := List.mem_map.1 h
    have hn := (List.mem_filter.1 hn).2
    simp only [Bool.and_eq_true] at hn
    exact hn.2

theorem isFile_of_rootDocument? {t : FileTree} {root p : Path}
    (h : t.rootDocument? root = some p) : t.isFile p = true := by
  unfold FileTree.rootDocument? at h
  simp only at h
  suffices hmem : p ∈ t.topDocuments root from isFile_of_mem_topDocuments hmem
  cases hfind : (t.topDocuments root).find? (t.hasDefaults false) with
  | some q =>
    rw [hfind] at h
    cases h
    exact List.mem_of_find?_eq_some hfind
  | none =>
    rw [hfind] at h
    exact List.mem_of_mem_head? h

theorem isFile_of_document? {w : Workspace} {t : FileTree} {p : Path}
    (h : w.document? t = some p) : t.isFile p = true := by
  unfold document? at h
  cases hsel : w.selected with
  | none =>
    rw [hsel] at h
    exact isFile_of_rootDocument? h
  | some q =>
    rw [hsel] at h
    simp only at h
    split at h
    · next hq =>
      cases h
      exact hq
    · exact isFile_of_rootDocument? h

theorem isFile_of_locate {t : FileTree} {root p : Path} {group name : Text} {isOverride : Bool}
    (h : (ConfigModule.locate t root group name isOverride).path = some p) :
    t.isFile p = true := by
  unfold ConfigModule.locate at h
  simp only at h
  split at h
  · next hfile =>
    cases h
    exact hfile
  · cases h

theorem isFile_of_mem_modules {w : Workspace} {t : FileTree} {m : ConfigModule} {p : Path}
    (hm : m ∈ w.modules t) (hp : m.path = some p) : t.isFile p = true := by
  unfold modules ConfigModule.resolve at hm
  cases hdoc : w.document? t with
  | none =>
    rw [hdoc] at hm
    cases hm
  | some document =>
    rw [hdoc] at hm
    simp only at hm
    split at hm
    · obtain ⟨entry, -, hentry⟩ := List.mem_filterMap.1 hm
      cases entry with
      | group sel =>
        cases hentry
        exact isFile_of_locate hp
      | bare name =>
        simp only [ConfigModule.select?] at hentry
        split at hentry
        · cases hentry
          exact isFile_of_locate hp
        · cases hentry
      | selfMarker => cases hentry
      | unrecognized raw => cases hentry
    · cases hm

/-- What a snapshot is asked to copy are files. -/
theorem isFile_of_tracked (w : Workspace) (t : FileTree) :
    ∀ p ∈ w.tracked t, t.isFile p = true := by
  intro p hp
  rcases List.mem_append.1 hp with hp | hp
  · exact isFile_of_document? (Option.mem_toList.1 hp)
  · obtain ⟨m, hm, hpath⟩ := List.mem_filterMap.1 hp
    exact isFile_of_mem_modules hm hpath

end LayeredConfig.Workspace
