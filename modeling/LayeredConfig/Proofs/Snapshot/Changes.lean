import LayeredConfig.Proofs.Files.Paving
import LayeredConfig.Proofs.Snapshot.Revival

/-!
# What a store changes

Taking a snapshot only adds to a tree, whatever comes of it: directories on the way to the backup
directory, and what lies below one name in it that was free. Bringing files back makes directories
on the way to live files and writes live files of the manifest, and nothing else.
-/
namespace LayeredConfig.SnapshotStore

open LayeredConfig.Path (join below confine? names? IsName)

variable {s : SnapshotStore} {now : Int} {tag : Text} {sources : FileTree → List Path}
  {dir : Path} {t t₀ t₁ : FileTree}

theorem directory_ne_nil (hdir : IsName s.settings.dirName) : s.directory ≠ [] :=
  Path.join_ne_nil s.root hdir

theorem spelled_directory (hdir : IsName s.settings.dirName) (t : FileTree) :
    t.spelled s.directory = t.spelled s.root ++ [s.settings.dirName] :=
  FileTree.spelled_join t s.root hdir

/-- What becomes of a snapshot: there is no directory for it, or files are collected in a new one
and the manifest is written or not. -/
theorem create_cases {outcome : Except SnapshotError Path}
    (h : s.create now sources tag t = (outcome, t₁)) :
    (∃ e, outcome = .error e ∧ t₁ = (t.ensureDirectory s.directory).2) ∨
      ∃ dir t₀ t' copied, s.opened now tag t = .ok (dir, t₀) ∧
        (sources t₀).foldl (s.collect dir) (t₀, []) = (t', copied) ∧
        (outcome = .ok dir ∧
            t'.write (s.manifestPath dir) (.text (manifestOf now tag copied).text) = .ok t₁ ∨
          ∃ e, outcome = .error e ∧ t₁ = t') := by
  unfold create at h
  unfold opened
  rcases hu : t.ensureDirectory s.directory with ⟨fault | _, u⟩
  · rw [hu] at h
    cases h
    exact Or.inl ⟨_, rfl, rfl⟩
  rw [hu] at h
  simp only at h ⊢
  rw [← baseName] at h
  cases hreserve : s.reserve (baseName now tag) u (u.entries.length + 1) 0 with
  | error e =>
    rw [hreserve] at h
    cases h
    exact Or.inl ⟨e, rfl, rfl⟩
  | ok r =>
    obtain ⟨dir, t₀⟩ := r
    rw [hreserve] at h
    simp only at h
    rcases hloop : (sources t₀).foldl (s.collect dir) (t₀, []) with ⟨t', copied⟩
    rw [hloop] at h
    simp only at h
    rw [← manifestOf] at h
    refine Or.inr ⟨dir, t₀, t', copied, rfl, hloop, ?_⟩
    cases hwrite : t'.write (s.manifestPath dir) (.text (manifestOf now tag copied).text) with
    | error fault =>
      rw [hwrite] at h
      cases h
      exact Or.inr ⟨_, rfl, rfl⟩
    | ok t'' =>
      rw [hwrite] at h
      cases h
      exact Or.inl ⟨rfl, rfl⟩

/-- The directory of a snapshot is made when the way to the backup directory is there. -/
theorem opened_way (hdir : IsName s.settings.dirName) (h : s.opened now tag t = .ok (dir, t₀)) :
    ∃ u, t.ensureDirectory s.directory = (.ok (), u) ∧ u.isDirectory s.directory = true ∧
      u.createDirectory dir = .ok t₀ := by
  unfold opened at h
  rcases hu : t.ensureDirectory s.directory with ⟨fault | _, u⟩
  · rw [hu] at h
    cases h
  rw [hu] at h
  obtain ⟨-, -, hmade⟩ := reserve_eq_ok h
  exact ⟨u, rfl,
    (FileTree.isDirectory_of_ensureDirectory hu).resolve_left (directory_ne_nil hdir), hmade⟩

/-- The way to the backup directory does not lead through a snapshot that is new. -/
theorem not_passes_opened (hdir : IsName s.settings.dirName) (ht : t.IsTree)
    (h : s.opened now tag t = .ok (dir, t₀)) {n : Names} (hn : t.Passes s.directory n) :
    ¬ t.spelled dir <+: n := by
  rintro ⟨rest, rfl⟩
  obtain ⟨u, hu, hthere, hmade⟩ := opened_way hdir h
  have hgrows : t.Grows u := by
    have hgrows := FileTree.grows_ensureDirectory t s.directory
    rwa [hu] at hgrows
  obtain ⟨hreach, hat⟩ := FileTree.reaches_of_isDirectory hthere
  obtain ⟨-, hnone, -, -⟩ := FileTree.createDirectory_eq_ok hmade
  have hbelow := (hgrows.isTree ht).nothing_below hnone rest
  rw [hgrows.spelled, hreach.passes hat ((FileTree.passes_eq hgrows.workingDirectory).2 hn)]
    at hbelow
  cases hbelow

/-- What taking a snapshot changes: where there was nothing, there may be a directory on the way to
the backup directory, or something at or below one name in it that was free. -/
structure Added (s : SnapshotStore) (t t₁ : FileTree) : Prop where
  workingDirectory : t₁.workingDirectory = t.workingDirectory
  isTree : t₁.IsTree
  entry : ∀ n, t₁.at? n = t.at? n ∨ t.at? n = none ∧
    (t₁.at? n = some .directory ∧ t.Passes s.directory n ∨
      ∃ name, IsName name ∧ t.at? (t.spelled s.directory ++ [name]) = none ∧
        t.spelled s.directory ++ [name] <+: n)

theorem added_ensureDirectory (ht : t.IsTree) : s.Added t (t.ensureDirectory s.directory).2 := by
  have hgrows := FileTree.grows_ensureDirectory t s.directory
  refine ⟨hgrows.workingDirectory, hgrows.isTree ht, fun n => ?_⟩
  rcases FileTree.pavedTo_ensureDirectory t s.directory n with hsame | ⟨hnone, hmade, hpass⟩
  · exact Or.inl hsame
  · exact Or.inr ⟨hnone, Or.inl ⟨hmade, hpass⟩⟩

/-- What has changed outside of a snapshot that is new has changed on the way to it. -/
theorem Added.of_opened (hdir : IsName s.settings.dirName) (ht : t.IsTree)
    (hopened : s.opened now tag t = .ok (dir, t₀)) (hwd : t₁.workingDirectory = t₀.workingDirectory)
    (htree : t₁.IsTree) (hout : ∀ n, ¬ t.spelled dir <+: n → t₁.at? n = t₀.at? n) :
    s.Added t t₁ := by
  have hop := opened_spec hopened
  obtain ⟨u, hu, -, hmade⟩ := opened_way hdir hopened
  refine ⟨hwd.trans hop.grows.workingDirectory, htree, fun n => ?_⟩
  by_cases hin : t.spelled dir <+: n
  · obtain ⟨name, hname, hplace⟩ := hop.place
    have hspelled : t.spelled dir = t.spelled s.directory ++ [name] := by
      rw [hplace, FileTree.spelled_join t s.directory hname]
    have hunused := hop.unused
    obtain ⟨rest, rfl⟩ := hin
    refine Or.inr ⟨ht.nothing_below hunused rest, Or.inr ⟨name, hname, ?_, ?_⟩⟩
    · rwa [hspelled] at hunused
    · rw [hspelled]
      exact List.prefix_append _ _
  · obtain ⟨-, hnone, -, rfl⟩ := FileTree.createDirectory_eq_ok hmade
    have hway := FileTree.pavedTo_ensureDirectory t s.directory n
    have hgrows := FileTree.grows_ensureDirectory t s.directory
    rw [hu] at hway hgrows
    have hne : u.spelled dir ≠ [] := by
      intro hnil
      rw [hnil, FileTree.at?_nil] at hnone
      cases hnone
    rw [hout n hin, FileTree.at?_put u hne, if_neg]
    · exact hway.imp_right fun ⟨hnone, hdir, hpass⟩ => ⟨hnone, Or.inl ⟨hdir, hpass⟩⟩
    · rintro rfl
      rw [hgrows.spelled] at hin
      exact hin (List.prefix_refl _)

/-- **Taking a snapshot only adds to a tree**, whether it succeeds or not. -/
theorem added_create {outcome : Except SnapshotError Path} (hdir : IsName s.settings.dirName)
    (hname : IsName s.settings.manifestName) (ht : t.IsTree)
    (h : s.create now sources tag t = (outcome, t₁)) : s.Added t t₁ := by
  rcases create_cases h with ⟨e, -, rfl⟩ | ⟨dir, t₀, t', copied, hopened, hloop, hend⟩
  · exact added_ensureDirectory ht
  have hop := opened_spec hopened
  have hspelled := hop.grows.spelled dir
  have hcollected := writes_foldl_collect s dir (sources t₀) t₀ []
  have hkept : ∀ n, ¬ t.spelled dir <+: n → t'.at? n = t₀.at? n := by
    intro n hn
    have hsame := at?_foldl_collect (hop.ready ht) (sources t₀) (hspelled.symm ▸ hn)
    rwa [hloop] at hsame
  rw [hloop] at hcollected
  have htree : t'.IsTree := hcollected.isTree (hop.grows.isTree ht)
  rcases hend with ⟨-, hwrite⟩ | ⟨e, -, rfl⟩
  · obtain ⟨names, htarget, rfl⟩ := FileTree.write_eq_ok.1 hwrite
    have hmanifest := (FileTree.writes_target htarget
      (.text (manifestOf now tag copied).text)).1
    refine Added.of_opened hdir ht hopened
      (hmanifest.workingDirectory.trans hcollected.workingDirectory) (hmanifest.isTree htree)
      fun n hn => ?_
    obtain ⟨-, rfl, hold, -⟩ := FileTree.target_eq_ok htarget
    rw [FileTree.at?_put t' fun hnil => hold (by rw [hnil, FileTree.at?_nil]), if_neg, hkept n hn]
    rintro rfl
    refine hn ?_
    rw [spelled_manifestPath hname, hcollected.spelled, hspelled]
    exact List.prefix_append _ _
  · exact Added.of_opened hdir ht hopened hcollected.workingDirectory htree hkept

/-- What was there is still there, and nothing else has become of it. -/
theorem Added.kept (h : s.Added t t₁) {n : Names} {e : FileEntry} (he : t.at? n = some e) :
    t₁.at? n = some e := by
  rcases h.entry n with hsame | ⟨hnone, -⟩
  · rw [hsame, he]
  · rw [hnone] at he
    cases he

/-- What bringing files back changes: where there was nothing, there may be a directory on the way
to a live file, and a live file of an entry may be written. -/
structure Returned (s : SnapshotStore) (files : List Text) (t t₁ : FileTree) : Prop where
  workingDirectory : t₁.workingDirectory = t.workingDirectory
  entry : ∀ n, t₁.at? n = t.at? n ∨ ∃ rel ∈ files, ∃ ns, names? rel = some ns ∧
    (t.at? n = none ∧ t₁.at? n = some .directory ∧ t.Passes (below s.root ns) n ∨
      n = t.spelled s.root ++ ns ∧ t.at? n ≠ some .directory ∧ ∃ c, t₁.at? n = some (.file c))

theorem Returned.refl (s : SnapshotStore) (files : List Text) (t : FileTree) :
    s.Returned files t t := ⟨rfl, fun _ => Or.inl rfl⟩

theorem Returned.trans {files : List Text} {t₂ : FileTree} (h : s.Returned files t t₁)
    (h' : s.Returned files t₁ t₂) : s.Returned files t t₂ := by
  refine ⟨h'.workingDirectory.trans h.workingDirectory, fun n => ?_⟩
  rcases h'.entry n with hsame | ⟨rel, hrel, ns, hns, hchange⟩
  · rw [hsame]
    exact h.entry n
  refine Or.inr ?_
  -- What has changed twice was a directory or a file in between, and so only a file can follow.
  rcases hchange with ⟨hnone, hmade, hpass⟩ | ⟨rfl, hold, hfile⟩
  · refine ⟨rel, hrel, ns, hns, Or.inl ⟨?_, hmade, (FileTree.passes_eq h.workingDirectory).1 hpass⟩⟩
    rcases h.entry n with hsame | ⟨_, _, _, _, ⟨-, hdir, -⟩ | ⟨-, -, _, hfile⟩⟩
    · rw [← hsame, hnone]
    · rw [hnone] at hdir
      cases hdir
    · rw [hnone] at hfile
      cases hfile
  · refine ⟨rel, hrel, ns, hns, Or.inr ⟨?_, fun hdir => hold ?_, hfile⟩⟩
    · rw [FileTree.spelled_eq h.workingDirectory]
    · rcases h.entry (t₁.spelled s.root ++ ns) with hsame | ⟨_, _, _, _, ⟨hnone, -⟩ | ⟨-, hnot, -⟩⟩
      · rw [hsame, hdir]
      · rw [hnone] at hdir
        cases hdir
      · exact absurd hdir hnot

/-- The tree after a file has been brought back, or not. -/
theorem bringBack_tree (s : SnapshotStore) (dir : Path) (rel : Text)
    (state : FileTree × List Text × List Text) :
    (s.bringBack dir state rel).1 = state.1 ∨ ∃ ns, names? rel = some ns ∧
      (s.bringBack dir state rel).1 = (state.1.copyInto (below dir ns) (below s.root ns)).2 := by
  obtain ⟨t, restored, skipped⟩ := state
  rcases bringBack_cases (rfl : s.bringBack dir (t, restored, skipped) rel = _)
    with ⟨-, heq⟩ | ⟨ns, t', hns, -, ⟨hcopy, heq⟩ | ⟨fault, hcopy, heq⟩⟩
  · exact Or.inl (by rw [heq])
  · exact Or.inr ⟨ns, hns, by rw [heq, hcopy]⟩
  · exact Or.inr ⟨ns, hns, by rw [heq, hcopy]⟩

theorem returned_bringBack {files : List Text} (dir : Path) {rel : Text} (hrel : rel ∈ files)
    (state : FileTree × List Text × List Text) :
    s.Returned files state.1 (s.bringBack dir state rel).1 := by
  refine ⟨(writes_bringBack s dir state rel).1.workingDirectory, fun n => ?_⟩
  rcases bringBack_tree s dir rel state with heq | ⟨ns, hns, heq⟩
  · exact Or.inl (by rw [heq])
  rw [heq]
  refine (FileTree.copyInto_changes state.1 (below dir ns) (below s.root ns) n).imp_right ?_
  intro hchange
  refine ⟨rel, hrel, ns, hns, hchange.imp_right ?_⟩
  rintro ⟨rfl, hold, c, -, hfile⟩
  exact ⟨FileTree.spelled_below _ _ (Path.isName_of_names? hns), hold, _, hfile⟩

/-- **Bringing files back changes nothing but live files of the manifest** and the ways to them. -/
theorem returned_foldl_bringBack (s : SnapshotStore) (dir : Path) (files : List Text)
    (state : FileTree × List Text × List Text) :
    s.Returned files state.1 (files.foldl (s.bringBack dir) state).1 :=
  List.foldlRecOn (motive := fun state' => s.Returned files state.1 state'.1) files _
    (Returned.refl s files state.1) fun state' h _ hrel =>
      h.trans (returned_bringBack dir hrel state')

end LayeredConfig.SnapshotStore
