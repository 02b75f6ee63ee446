import LayeredConfig.Proofs.Snapshot.Confined

/-!
# Snapshots that stay as they are

A manifest may list files that lie below the backup directory, also in other snapshots, and then a
restore writes there. It writes what is there already: when such a file was copied to the snapshot
it held what the copy holds, and neither of them has changed since. So what is there below the
backup directory stays as it is, and nothing is added to a snapshot.
-/
namespace LayeredConfig.SnapshotStore

open LayeredConfig.Path (join below names? IsName)

variable {s : SnapshotStore} {now : Int} {tag : Text} {sources : FileTree → List Path}
  {dir : Path} {t t' t'' : FileTree}

/-- What a snapshot's directory says of files below the backup directory: of those that its manifest
lists there is a copy, and the live file holds the same. -/
structure Listing (s : SnapshotStore) (t : FileTree) (dir : Path) (m : Manifest) : Prop where
  manifest : t.at? (t.spelled dir ++ [s.settings.manifestName]) = some (.file (.text m.text))
  agree : ∀ rel ∈ m.files, ∀ rest, names? rel = some (s.settings.dirName :: rest) →
    ∃ c, t.at? (t.spelled dir ++ s.settings.dirName :: rest) = some (.file c) ∧
      t.at? (t.spelled s.directory ++ rest) = some (.file c)

/-- A snapshot that has been taken, and that the store does not change any more. -/
structure Sealed (s : SnapshotStore) (t : FileTree) (dir : Path) : Prop where
  place : ∃ name, IsName name ∧ dir = join s.directory name
  directory : t.at? (t.spelled dir) = some .directory
  apart : ∀ n, t.Passes s.directory n → ¬ t.spelled dir <+: n
  listing : ∃ m, s.Listing t dir m

theorem Sealed.below (h : s.Sealed t dir) : t.spelled s.directory <+: t.spelled dir := by
  obtain ⟨name, hname, rfl⟩ := h.place
  rw [FileTree.spelled_join t s.directory hname]
  exact List.prefix_append _ _

/-- A change that keeps what is there at or below the backup directory, and adds nothing to a
snapshot. -/
structure Keeps (s : SnapshotStore) (t t' : FileTree) : Prop where
  workingDirectory : t'.workingDirectory = t.workingDirectory
  isTree : t'.IsTree
  entry : ∀ n, t.spelled s.directory <+: n → t'.at? n = t.at? n ∨
    t.at? n = none ∧ ∀ dir, s.Sealed t dir → ¬ t.spelled dir <+: n

theorem Keeps.refl (s : SnapshotStore) (ht : t.IsTree) : s.Keeps t t :=
  ⟨rfl, ht, fun _ _ => Or.inl rfl⟩

theorem Keeps.kept (h : s.Keeps t t') {n : Names} {e : FileEntry} (hn : t.spelled s.directory <+: n)
    (he : t.at? n = some e) : t'.at? n = some e := by
  rcases h.entry n hn with hsame | ⟨hnone, -⟩
  · rw [hsame, he]
  · rw [hnone] at he
    cases he

/-- **Nothing in a snapshot changes**, and nothing is added or removed. -/
theorem Keeps.same (h : s.Keeps t t') (hdir : s.Sealed t dir) {n : Names}
    (hn : t.spelled dir <+: n) : t'.at? n = t.at? n := by
  rcases h.entry n (hdir.below.trans hn) with hsame | ⟨-, hout⟩
  · exact hsame
  · exact absurd hn (hout dir hdir)

theorem Listing.mono {m : Manifest} (h : s.Listing t dir m) (hdir : s.Sealed t dir)
    (hkeeps : s.Keeps t t') : s.Listing t' dir m := by
  have hspelled : ∀ p, t'.spelled p = t.spelled p := FileTree.spelled_eq hkeeps.workingDirectory
  refine ⟨?_, fun rel hrel rest hns => ?_⟩
  · rw [hspelled, hkeeps.same hdir (List.prefix_append _ _), h.manifest]
  · obtain ⟨c, hcopy, hlive⟩ := h.agree rel hrel rest hns
    refine ⟨c, ?_, ?_⟩
    · rw [hspelled, hkeeps.same hdir (List.prefix_append _ _), hcopy]
    · rw [hspelled]
      exact hkeeps.kept (List.prefix_append _ _) hlive

theorem Sealed.mono (h : s.Sealed t dir) (hkeeps : s.Keeps t t') : s.Sealed t' dir := by
  have hspelled := FileTree.spelled_eq hkeeps.workingDirectory dir
  refine ⟨h.place, ?_, fun n hn => ?_, h.listing.imp fun m hm => hm.mono h hkeeps⟩
  · rw [hspelled, hkeeps.same h (List.prefix_refl _), h.directory]
  · rw [hspelled]
    exact h.apart n ((FileTree.passes_eq hkeeps.workingDirectory).1 hn)

theorem Keeps.trans (h : s.Keeps t t') (h' : s.Keeps t' t'') : s.Keeps t t'' := by
  refine ⟨h'.workingDirectory.trans h.workingDirectory, h'.isTree, fun n hn => ?_⟩
  have hspelled : ∀ p, t'.spelled p = t.spelled p := FileTree.spelled_eq h.workingDirectory
  rcases h'.entry n (by rwa [hspelled]) with hsame | ⟨hnone, hout⟩
  · rw [hsame]
    exact h.entry n hn
  refine Or.inr ⟨?_, fun dir hdir => ?_⟩
  · rcases h.entry n hn with hsame | ⟨hnone', -⟩
    · rw [← hsame, hnone]
    · exact hnone'
  · rw [← hspelled]
    exact hout dir (hdir.mono h)

/-- What other programs do outside the backup directory. -/
theorem keeps_of_editedOutside (ht : t'.IsTree)
    (h : FileTree.EditedOutside (t.spelled s.directory) t t') : s.Keeps t t' := by
  refine ⟨h.workingDirectory, ht, ?_⟩
  rintro n ⟨rest, rfl⟩
  exact Or.inl (h.kept rest)

/-- A snapshot that is added has a name of its own. -/
theorem Added.keeps (h : s.Added t t') : s.Keeps t t' := by
  refine ⟨h.workingDirectory, h.isTree, fun n _ => (h.entry n).imp_right ?_⟩
  rintro ⟨hnone, hadded⟩
  refine ⟨hnone, fun dir hdir hin => ?_⟩
  rcases hadded with ⟨-, hpass⟩ | ⟨name, hname, hfree, hbelow⟩
  · exact hdir.apart n hpass hin
  · obtain ⟨name', hname', hplace⟩ := hdir.place
    have hthere := hdir.directory
    rw [hplace, FileTree.spelled_join t s.directory hname'] at hthere hin
    rcases List.prefix_or_prefix_of_prefix hin hbelow with hpre | hpre
    · rw [hpre.eq_of_length (by simp), hfree] at hthere
      cases hthere
    · rw [← hpre.eq_of_length (by simp), hfree] at hthere
      cases hthere

/-- What the root passes, the backup directory passes. -/
theorem passes_directory (hdir : IsName s.settings.dirName) {n : Names} (h : t.Passes s.root n) :
    t.Passes s.directory n := by
  refine FileTree.passes_of_steps ?_ (Path.isAbsolute_join s.root hdir).symm h
  rw [directory, Path.steps_join s.root hdir]
  exact List.prefix_append _ _

/-- Names below the root that begin with those of the backup directory. -/
theorem exists_rest_of_below (hdir : IsName s.settings.dirName) {ns : List Text}
    (h : t.spelled s.directory <+: t.spelled s.root ++ ns) :
    ∃ rest, ns = s.settings.dirName :: rest ∧
      t.spelled s.root ++ ns = t.spelled s.directory ++ rest := by
  obtain ⟨rest, heq⟩ := h
  rw [spelled_directory hdir, List.append_assoc] at heq
  refine ⟨rest, (List.append_cancel_left heq).symm, ?_⟩
  rw [spelled_directory hdir, List.append_assoc, heq]

/-- **A file that is brought back from a snapshot changes nothing below the backup directory** that
was there, and adds nothing to a snapshot. -/
theorem keeps_bringBack (hdirName : IsName s.settings.dirName) (hdir : s.Sealed t dir)
    (ht : t.IsTree)
    {m : Manifest} (hlisting : s.Listing t dir m) {rel : Text} (hrel : rel ∈ m.files)
    (restored skipped : List Text) :
    s.Keeps t (s.bringBack dir (t, restored, skipped) rel).1 := by
  have hwrites := (writes_bringBack s dir (t, restored, skipped) rel).1
  refine ⟨hwrites.workingDirectory, hwrites.isTree ht, fun n hn => ?_⟩
  rcases bringBack_tree s dir rel (t, restored, skipped) with heq | ⟨ns, hns, heq⟩
  · exact Or.inl (by rw [heq])
  have hnames := Path.isName_of_names? hns
  rw [heq]
  rcases FileTree.copyInto_changes t (below dir ns) (below s.root ns) n with
    hsame | ⟨hnone, -, hpass⟩ | ⟨rfl, -, c, hsource, hfile⟩
  · exact Or.inl hsame
  · refine Or.inr ⟨hnone, fun dir' hdir' hin => ?_⟩
    rcases FileTree.passes_below hnames hpass with hpass | ⟨front, ⟨rest, rfl⟩, rfl⟩
    · exact hdir'.apart n (passes_directory hdirName hpass) hin
    · -- A live file in a snapshot is there, and with it all that is above it.
      obtain ⟨more, rfl, hplace⟩ := exists_rest_of_below hdirName hn
      obtain ⟨c, -, hlive⟩ := hlisting.agree rel hrel (more ++ rest) hns
      have hbelow := ht.nothing_below hnone rest
      rw [hplace, List.append_assoc, hlive] at hbelow
      cases hbelow
  · rw [FileTree.spelled_below _ _ hnames] at hn hsource hfile ⊢
    obtain ⟨rest, rfl, hplace⟩ := exists_rest_of_below hdirName hn
    obtain ⟨c', hcopy, hlive⟩ := hlisting.agree rel hrel rest hns
    rw [hcopy] at hsource
    cases hsource
    have hne : t.spelled (below dir (s.settings.dirName :: rest)) ≠
        t.spelled s.root ++ s.settings.dirName :: rest := by
      obtain ⟨name, hname, hdirPlace⟩ := hdir.place
      rw [FileTree.spelled_below _ _ hnames, hdirPlace, FileTree.spelled_join _ _ hname,
        spelled_directory hdirName]
      intro heq
      have hlength := congrArg List.length heq
      simp only [List.length_append, List.length_cons, List.length_nil] at hlength
      omega
    rw [hfile, if_neg hne, hplace, hlive]
    exact Or.inl rfl

/-- Bringing back what a manifest lists keeps all snapshots, by induction on the list: the snapshot
that is restored is one of those that are kept. -/
theorem keeps_foldl_bringBack (hdirName : IsName s.settings.dirName) (hdir : s.Sealed t dir)
    (ht : t.IsTree) {m : Manifest} (hlisting : s.Listing t dir m) :
    s.Keeps t (m.files.foldl (s.bringBack dir) (t, [], [])).1 := by
  refine List.foldlRecOn (motive := fun state : FileTree × List Text × List Text =>
    s.Keeps t state.1) m.files _ (Keeps.refl s ht) ?_
  rintro ⟨u, restored, skipped⟩ hkeeps rel hrel
  exact hkeeps.trans (keeps_bringBack hdirName (hdir.mono hkeeps) hkeeps.isTree
    (hlisting.mono hdir hkeeps) hrel restored skipped)

/-- The manifest that is read from a snapshot lists what it was written with. -/
theorem Listing.files {m m' : Manifest} (hname : IsName s.settings.manifestName)
    (h : s.Listing t dir m) (hm' : s.readManifest t dir = .ok m') : m'.files = m.files := by
  obtain ⟨text, htext, hread⟩ := readManifest_eq_ok.1 hm'
  have hat := (FileTree.read_eq_ok (FileTree.readText_eq_ok.1 htext)).2
  rw [spelled_manifestPath hname, h.manifest] at hat
  cases hat
  exact (Manifest.read?_text hread).2

/-- **Restoring a snapshot keeps all snapshots**, the safety snapshot from when it has been
taken. -/
theorem keeps_restore {outcome : Except SnapshotError RestoreReport}
    (hdirName : IsName s.settings.dirName) (hname : IsName s.settings.manifestName)
    (hdir : s.Sealed t dir) (ht : t.IsTree)
    (h : s.restore now sources dir t = (outcome, t'')) :
    ∃ taken t', s.create now sources s.settings.preRestoreTag t = (taken, t') ∧
      s.Keeps t t' ∧ s.Keeps t' t'' := by
  rcases restore_cases h with ⟨e, taken, -, hcreate⟩ | ⟨report, t', m, -, hcreate, hm, hloop⟩
  · have hkeeps := (added_create hdirName hname ht hcreate).keeps
    exact ⟨taken, t'', hcreate, hkeeps, Keeps.refl s hkeeps.isTree⟩
  · have hkeeps := (added_create hdirName hname ht hcreate).keeps
    have hdir' := hdir.mono hkeeps
    obtain ⟨m', hlisting⟩ := hdir'.listing
    have hback := keeps_foldl_bringBack hdirName hdir' hkeeps.isTree hlisting
    rw [← hlisting.files hname hm, hloop] at hback
    exact ⟨_, t', hcreate, hkeeps, hback⟩

/-- **A snapshot that has just been taken is sealed.** -/
theorem sealed_of_create (hdirName : IsName s.settings.dirName)
    (hname : IsName s.settings.manifestName) (ht : t.IsTree)
    (hsources : ∀ t, ∀ p ∈ sources t, t.isFile p = true)
    (h : s.create now sources tag t = (.ok dir, t')) : s.Sealed t' dir := by
  obtain ⟨t₀, u, copied, hopened, -, hcollected, hwrite⟩ := create_collected ht hsources h
  have hop := opened_spec hopened
  have hready := hop.ready ht
  obtain ⟨names, htarget, rfl⟩ := FileTree.write_eq_ok.1 hwrite
  obtain ⟨hmanifest, hat⟩ := FileTree.writes_target htarget
    (.text (manifestOf now tag copied).text)
  rw [spelled_manifestPath hname, hcollected.writes.spelled] at hmanifest hat
  generalize u.put names (.file (.text (manifestOf now tag copied).text)) = t' at hmanifest hat
  have hwrites : FileTree.Writes (Inside (t₀.spelled dir)) t₀ t' :=
    hcollected.writes.trans (hmanifest.mono fun n hn => ⟨_, by simp, hn⟩)
  have hspelled : ∀ p, t'.spelled p = t₀.spelled p := hwrites.spelled
  refine ⟨hop.place, ?_, fun n hn => ?_, manifestOf now tag copied, ?_, fun rel hrel rest hns => ?_⟩
  · rw [hspelled]
    exact hwrites.directory _ hready.directory
  · rw [hspelled, hop.grows.spelled]
    exact not_passes_opened hdirName ht hopened ((FileTree.passes_eq
      (hwrites.workingDirectory.trans hop.grows.workingDirectory)).1 hn)
  · rw [hspelled, hat]
  · obtain ⟨ns, c, hold⟩ := hcollected.holds rel hrel
    have hsame := hold.names
    rw [hns] at hsame
    cases hsame
    have hlive : t₀.at? (t₀.spelled s.directory ++ rest) = some (.file c) := by
      have hfile := hold.file
      rwa [spelled_directory hdirName, List.append_assoc]
    -- The backup directory itself is no file, and so the manifest is not at the place of the copy.
    have hrest : rest ≠ [] := by
      rintro rfl
      obtain ⟨v, -, hthere, hmade⟩ := opened_way hdirName hopened
      have hgrows := FileTree.grows_createDirectory hmade
      rw [List.append_nil, hgrows.spelled,
        hgrows.directory _ (FileTree.reaches_of_isDirectory hthere).2] at hlive
      cases hlive
    refine ⟨c, ?_, ?_⟩
    · rw [hspelled]
      refine hmanifest.file _ c (fun heq => hrest ?_) hold.copy
      exact (List.cons.inj (List.append_cancel_left heq)).2
    · rw [hspelled]
      refine hwrites.file _ c (fun hin => ?_) hlive
      obtain ⟨more, -, heq⟩ := hin
      exact not_inside_of_file hready.directory hready.nothing hlive ⟨more, heq.symm⟩

end LayeredConfig.SnapshotStore
