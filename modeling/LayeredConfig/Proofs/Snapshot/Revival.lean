import Mathlib.Data.List.Infix
import LayeredConfig.Proofs.Compose.Reads
import LayeredConfig.Proofs.Files.Way
import LayeredConfig.Proofs.Snapshot.Safety

/-!
# A restore brings the composition back

A snapshot with the root document and all resolved modules holds everything that a preview reads.
After files have been modified and deleted, restoring it whole gives the preview that there was:
the files that the entries of the defaults list name are back, and where there was none, there is
none now, as nothing is made outside the backup directory but the files that the manifest lists.
-/
namespace LayeredConfig

open LayeredConfig.Path (join below confine? names? relative? IsName Named)

namespace SnapshotStore

variable {s : SnapshotStore} {now : Int} {tag : Text} {sources : FileTree → List Path}
  {dir : Path} {t t₀ t₁ t₂ t₃ : FileTree}

/-- Nothing has changed but what lies strictly below names. -/
def ChangedInside (names : Names) (t t' : FileTree) : Prop :=
  ∀ n, ¬ Inside names n → t'.at? n = t.at? n

theorem ChangedInside.trans {names : Names} {t' t'' : FileTree} (h : ChangedInside names t t')
    (h' : ChangedInside names t' t'') : ChangedInside names t t'' :=
  fun n hn => (h' n hn).trans (h n hn)

/-- What begins with the names of a snapshot lies in the backup directory. -/
theorem inside_backups (hdir : ∃ name, IsName name ∧ dir = join s.directory name) {n : Names}
    (h : t.spelled dir <+: n) : Inside (t.spelled s.directory) n := by
  obtain ⟨name, hname, rfl⟩ := hdir
  obtain ⟨rest, rfl⟩ := h
  rw [FileTree.spelled_join _ _ hname, List.append_assoc]
  exact ⟨[name] ++ rest, by simp, rfl⟩

theorem changedInside_opened (hbackups : t.ensureDirectory s.directory = (.ok (), t))
    (h : s.opened now tag t = .ok (dir, t₀)) :
    ChangedInside (t.spelled s.directory) t t₀ := by
  have hplace := (opened_spec h).place
  unfold opened at h
  rw [hbackups] at h
  obtain ⟨n, -, hmade⟩ := reserve_eq_ok h
  obtain ⟨-, hnone, -, rfl⟩ := FileTree.createDirectory_eq_ok hmade
  intro n hn
  have hne : t.spelled dir ≠ [] := by
    intro hnil
    rw [hnil, FileTree.at?_nil] at hnone
    cases hnone
  rw [FileTree.at?_put t hne, if_neg]
  rintro rfl
  exact hn (inside_backups hplace (List.prefix_refl _))

/-- A copy that is collected goes to the directory of the snapshot, with all that is made for it. -/
theorem at?_collect (hnamed : Named dir) (hreach : t.Reaches dir)
    (hdir : t.at? (t.spelled dir) = some .directory) (copied : List Text) (source : Path)
    {n : Names} (hn : ¬ t.spelled dir <+: n) :
    (s.collect dir (t, copied) source).1.at? n = t.at? n := by
  rcases hstate : s.collect dir (t, copied) source with ⟨t', copied'⟩
  rcases collect_cases hstate with ⟨rfl, -, -⟩ | ⟨rel, ns, -, hns, -, hcopy⟩
  · rfl
  have ht' : t' = (t.copyInto source (below dir ns)).2 := by
    rcases hcopy with ⟨hcopy, -⟩ | ⟨fault, hcopy, -⟩ <;> rw [hcopy]
  obtain ⟨front, last, rfl⟩ := exists_last hns
  have hmade := FileTree.copyInto_below_made hnamed hreach hdir (Path.isName_of_names? hns) source n
  rw [ht']
  rcases hmade with hsame | ⟨-, way, -, rfl⟩ | ⟨rfl, -⟩
  · exact hsame
  · exact absurd (List.prefix_append _ _) hn
  · exact absurd (List.prefix_append _ _) hn

theorem at?_foldl_collect (hready : Ready s dir t₀) (ps : List Path) {n : Names}
    (hn : ¬ t₀.spelled dir <+: n) :
    (ps.foldl (s.collect dir) (t₀, [])).1.at? n = t₀.at? n := by
  suffices h : FileTree.Writes (Inside (t₀.spelled dir)) t₀
        (ps.foldl (s.collect dir) (t₀, [])).1 ∧
      (ps.foldl (s.collect dir) (t₀, [])).1.at? n = t₀.at? n from h.2
  refine List.foldlRecOn (motive := fun state : FileTree × List Text =>
    FileTree.Writes (Inside (t₀.spelled dir)) t₀ state.1 ∧ state.1.at? n = t₀.at? n)
    ps _ ⟨FileTree.Writes.refl _ _, rfl⟩ ?_
  rintro ⟨u, copied⟩ ⟨hwrites, hsame⟩ p -
  have hstep := writes_collect s dir (u, copied) p
  have hspelled : u.spelled dir = t₀.spelled dir := hwrites.spelled dir
  rw [hspelled] at hstep
  refine ⟨hwrites.trans hstep, ?_⟩
  rw [at?_collect hready.named (hwrites.reaches hready.reaches)
    (by rw [hspelled]; exact hwrites.directory _ hready.directory) copied p (by rwa [hspelled])]
  exact hsame

/-- **Where there is a backup directory, a snapshot changes nothing outside it.** -/
theorem changedInside_create (ht : t.IsTree) (hname : IsName s.settings.manifestName)
    (hbackups : t.ensureDirectory s.directory = (.ok (), t))
    (h : s.create now sources tag t = (.ok dir, t₁)) :
    ChangedInside (t.spelled s.directory) t t₁ := by
  obtain ⟨t₀, t', copied, hopened, hloop, hwrite⟩ := create_eq_ok h
  have hop := opened_spec hopened
  refine (changedInside_opened hbackups hopened).trans fun n hn => ?_
  have hout : ¬ t₀.spelled dir <+: n := by
    rw [hop.grows.spelled]
    exact fun hpre => hn (inside_backups hop.place hpre)
  have hcollected := at?_foldl_collect (hop.ready ht) (sources t₀) hout
  have hwrites := writes_foldl_collect s dir (sources t₀) t₀ []
  rw [hloop] at hcollected hwrites
  obtain ⟨names, htarget, rfl⟩ := FileTree.write_eq_ok.1 hwrite
  obtain ⟨-, rfl, hold, -⟩ := FileTree.target_eq_ok htarget
  have hne : t'.spelled (s.manifestPath dir) ≠ [] := fun hnil => hold (by
    rw [hnil, FileTree.at?_nil])
  rw [FileTree.at?_put t' hne, if_neg, hcollected]
  rintro rfl
  refine hout ?_
  rw [spelled_manifestPath hname, hwrites.spelled]
  exact List.prefix_append _ _

/-- Once a snapshot has been taken there is a backup directory, as long as directories stay. -/
theorem ensureDirectory_of_opened {t' : FileTree} (h : s.opened now tag t = .ok (dir, t₀))
    (hwd : t'.workingDirectory = t₀.workingDirectory)
    (hdirs : ∀ n, t₀.at? n = some .directory → t'.at? n = some .directory) :
    t'.ensureDirectory s.directory = (.ok (), t') := by
  unfold opened at h
  rcases hu : t.ensureDirectory s.directory with ⟨fault | _, u⟩
  · rw [hu] at h
    cases h
  rw [hu] at h
  obtain ⟨n, -, hmade⟩ := reserve_eq_ok h
  have hgrows := FileTree.grows_createDirectory hmade
  rcases FileTree.isDirectory_of_ensureDirectory hu with hnil | hdir
  · rw [hnil]
    exact FileTree.ensureDirectory_nil t'
  · exact FileTree.ensureDirectory_of_isDirectory
      (FileTree.isDirectory_along (hwd.trans hgrows.workingDirectory)
        (fun n _ hn => hdirs n (hgrows.directory n hn)) hdir)

/-- A file is brought back to the place where it was, and no directory is made for it. -/
theorem rewrites_bringBack (dir : Path) {rel : Text} (restored skipped : List Text)
    (h : ∀ ns, names? rel = some ns → t.Reaches (below s.root ns)) :
    FileTree.Rewrites (LiveOf (t.spelled s.root) [rel]) t
      (s.bringBack dir (t, restored, skipped) rel).1 := by
  rcases bringBack_cases (rfl : s.bringBack dir (t, restored, skipped) rel = _)
    with ⟨-, heq⟩ | ⟨ns, t', hns, -, hcopy⟩
  · rw [heq]
    exact FileTree.Rewrites.refl _ _
  have ht' : (s.bringBack dir (t, restored, skipped) rel).1 =
      (t.copyInto (below dir ns) (below s.root ns)).2 := by
    rcases hcopy with ⟨hcopy, heq⟩ | ⟨fault, hcopy, heq⟩ <;> rw [hcopy, heq]
  have hnames := Path.isName_of_names? hns
  have hnamed := Path.named_below s.root hnames (Path.names?_eq_some hns).2
  rw [ht']
  refine (FileTree.rewrites_copyInto hnamed (h ns hns) _).mono fun n hn => ?_
  exact ⟨rel, List.mem_singleton_self rel, ns, hns, by
    rw [hn, FileTree.spelled_below _ _ hnames]⟩

/-- **No directory is made for files that are brought back to where they were.** -/
theorem rewrites_foldl_bringBack (s : SnapshotStore) (dir : Path) (rels : List Text)
    (state : FileTree × List Text × List Text)
    (h : ∀ rel ∈ rels, ∀ ns, names? rel = some ns → state.1.Reaches (below s.root ns)) :
    FileTree.Rewrites (LiveOf (state.1.spelled s.root) rels) state.1
      (rels.foldl (s.bringBack dir) state).1 := by
  induction rels generalizing state with
  | nil => exact FileTree.Rewrites.refl _ _
  | cons rel rels ih =>
    obtain ⟨hrel, hrels⟩ := List.forall_mem_cons.1 h
    obtain ⟨t, restored, skipped⟩ := state
    have hfirst := rewrites_bringBack dir restored skipped hrel
    have hrest := ih (s.bringBack dir (t, restored, skipped) rel) fun r hr ns hns =>
      hfirst.reaches (hrels r hr ns hns)
    rw [FileTree.spelled_eq hfirst.workingDirectory] at hrest
    refine (hfirst.mono fun n => LiveOf.mono fun r hr => ?_).trans
      (hrest.mono fun n => LiveOf.mono fun r hr => List.mem_cons_of_mem _ hr)
    rw [List.mem_singleton.1 hr]
    exact List.mem_cons_self

theorem Taken.isTree {copied : List Text} (ht : t.IsTree)
    (h : Taken s now tag t t₀ t₁ dir copied) : t₁.IsTree :=
  h.writes.isTree (h.opened.grows.isTree ht)

/-- A snapshot takes the place of no file. -/
theorem Taken.isFile {copied : List Text} (ht : t.IsTree) (hname : IsName s.settings.manifestName)
    (h : Taken s now tag t t₀ t₁ dir copied) {p : Path} (hp : t.isFile p = true) :
    t₁.isFile p = true := by
  have hp₀ := h.opened.grows.isFile (fun hin => hin) hp
  obtain ⟨c, hc⟩ := FileTree.isFile_iff.1 hp₀
  have hready := h.opened.ready ht
  have hout := not_inside_of_file hready.directory hready.nothing (FileTree.read_eq_ok hc).2
  rw [h.opened.grows.spelled dir] at hout
  exact (h.writes_inside hname).isFile (fun ⟨rest, _, heq⟩ => hout ⟨rest, heq.symm⟩) hp₀

/-- What has come back of a tree: files are what they were, directories are still there, and outside
the backup directory there are no others. -/
structure Revived (s : SnapshotStore) (t₁ t₃ : FileTree) (files : List Text) : Prop where
  workingDirectory : t₃.workingDirectory = t₁.workingDirectory
  directory : ∀ n, t₁.at? n = some .directory → t₃.at? n = some .directory
  noDirectory : ∀ n, ¬ Inside (t₁.spelled s.directory) n →
    t₃.at? n = some .directory → t₁.at? n = some .directory
  noFile : ∀ n c, ¬ Inside (t₁.spelled s.directory) n → t₃.at? n = some (.file c) →
    ∃ c', t₁.at? n = some (.file c')
  back : ∀ rel ∈ files, ∃ ns c, names? rel = some ns ∧
    t₁.at? (t₁.spelled s.root ++ ns) = some (.file c) ∧
    t₃.at? (t₁.spelled s.root ++ ns) = some (.file c)

/-- A file that is listed reads as it did. -/
theorem Revived.read {files : List Text} (h : Revived s t₁ t₃ files) {p : Path} {c : Content}
    (hc : t₁.read p = .ok c) {rel : Text} (hrel : rel ∈ files)
    (hp : relative? s.root p = some rel) : t₃.read p = .ok c := by
  obtain ⟨ns, c', hns, hbefore, hafter⟩ := h.back rel hrel
  have hspelled := (FileTree.spelled_of_relative? t₁ hp hns).1
  have hat := (FileTree.read_eq_ok hc).2
  rw [hspelled, hbefore] at hat
  cases hat
  refine FileTree.read_along h.workingDirectory (fun n _ => h.directory n) hc ?_
  rwa [hspelled]

/-- **The trees agree on a file** that is listed if it was there, and whose path does not come into
the backup directory. -/
theorem Revived.sameAt {files : List Text} (h : Revived s t₁ t₃ files) {p : Path}
    (hlisted : t₁.isFile p = true → ∃ rel ∈ files, relative? s.root p = some rel)
    (hout : ∀ n, t₁.Passes p n → ¬ Inside (t₁.spelled s.directory) n) : t₁.SameAt t₃ p := by
  have hforward : ∀ c, t₁.read p = .ok c → t₃.read p = .ok c := by
    intro c hc
    obtain ⟨rel, hrel, hp⟩ := hlisted (FileTree.isFile_iff.2 ⟨c, hc⟩)
    exact h.read hc hrel hp
  refine fun c => ⟨fun hc => ?_, hforward c⟩
  -- What is found now was found before, and so it has come back as it was.
  have hpasses : ∀ n, t₃.Passes p n → t₁.Passes p n := by
    rintro n ⟨front, hfront, rfl⟩
    exact ⟨front, hfront, by rw [FileTree.start_eq h.workingDirectory]⟩
  have hspelled := FileTree.spelled_eq h.workingDirectory p
  have hat := (FileTree.read_eq_ok hc).2
  obtain ⟨c', hc'⟩ := h.noFile _ c (hout _ (hpasses _ (FileTree.passes_spelled t₃ p))) hat
  have hthere := FileTree.read_along h.workingDirectory.symm
    (fun n hn => h.noDirectory n (hout n (hpasses n hn))) hc hc'
  have hsame := hforward c' hthere
  rw [hc] at hsame
  cases hsame
  exact hthere

/-- What has been edited, written for a safety snapshot and brought back has come back. -/
theorem revived_of_changes {N : Names → Prop} {t' : FileTree} {files : List Text}
    (hedits : FileTree.FilesEdited (t₁.spelled s.directory) t₁ t₂)
    (hwrites : FileTree.Writes N t₂ t') (hinside : ChangedInside (t₂.spelled s.directory) t₂ t')
    (hrewrites : FileTree.Rewrites (LiveOf (t'.spelled s.root) files) t' t₃)
    (hback : ∀ rel ∈ files, ∃ ns c, names? rel = some ns ∧
      t₁.at? (t₁.spelled s.root ++ ns) = some (.file c) ∧
      t₃.at? (t₁.spelled s.root ++ ns) = some (.file c)) : Revived s t₁ t₃ files := by
  have hwd : t'.workingDirectory = t₁.workingDirectory :=
    hwrites.workingDirectory.trans hedits.workingDirectory
  rw [ChangedInside, FileTree.spelled_eq hedits.workingDirectory] at hinside
  refine ⟨hrewrites.workingDirectory.trans hwd, ?directory, ?noDirectory, ?noFile, hback⟩
  case directory =>
    exact fun n hn => hrewrites.directory.2 (hwrites.directory n ((hedits.directory n).2 hn))
  case noDirectory =>
    intro n hn hdir
    rw [hrewrites.directory, hinside n hn] at hdir
    exact (hedits.directory n).1 hdir
  case noFile =>
    intro n c hn hc
    rcases hrewrites.entry n with hsame | ⟨⟨rel, hrel, ns, hns, rfl⟩, -⟩
    · rw [hsame, hinside n hn] at hc
      exact hedits.file n c hc
    · obtain ⟨ns', c', hns', hbefore, -⟩ := hback rel hrel
      rw [hns] at hns'
      cases hns'
      rw [FileTree.spelled_eq hwd]
      exact ⟨c', hbefore⟩

/-- A restore that skips nothing restores all files of the manifest. -/
theorem Brought.mem_restored {files : List Text} {state : FileTree × List Text × List Text}
    (h : Brought s dir t₂ files state) (hskipped : state.2.2 = []) {rel : Text}
    (hrel : rel ∈ files) : rel ∈ state.2.1 := by
  have hnone := h.skipped
  rw [hskipped, eq_comm, List.filter_eq_nil_iff] at hnone
  simpa using hnone rel hrel

/-- **A restore that skips nothing revives the tree** in which the snapshot was taken, after files
have been modified and deleted outside the backup directory. -/
theorem revived_of_restore {now' : Int} {sources' : FileTree → List Path} {m : Manifest}
    {report : RestoreReport} (ht : t.IsTree) (hname : IsName s.settings.manifestName)
    (hsources : ∀ t, ∀ p ∈ sources t, t.isFile p = true)
    (hcreate : s.create now sources tag t = (.ok dir, t₁))
    (hm : s.readManifest t₁ dir = .ok m)
    (hfree : ∀ rel ∈ m.files, names? rel ≠ some [s.settings.manifestName])
    (hedits : FileTree.FilesEdited (t₁.spelled s.directory) t₁ t₂)
    (hrestore : s.restore now' sources' dir t₂ = (.ok report, t₃))
    (hskipped : report.skipped = []) :
    Revived s t₁ t₃ m.files := by
  obtain ⟨t₀, hopened, htaken⟩ := create_taken ht hsources hcreate
  generalize ((sources t₀).foldl (s.collect dir) (t₀, [])).2 = copied at htaken
  have hfree' : ∀ m', s.readManifest t₁ dir = .ok m' →
      ∀ rel ∈ m'.files, names? rel ≠ some [s.settings.manifestName] := by
    intro m' hm'
    rw [hm] at hm'
    cases hm'
    exact hfree
  have houtside : FileTree.EditedOutside (t₁.spelled dir) t₁ t₂ := by
    obtain ⟨name, hname, rfl⟩ := htaken.opened.place
    refine ⟨hedits.workingDirectory, fun ns => ?_⟩
    rw [FileTree.spelled_join _ _ hname, List.append_assoc]
    exact hedits.kept _
  obtain ⟨t', m', hsafety, hm', -, rfl, hwd, hkept, hloop, hbrought⟩ :=
    htaken.restored ht hname hfree' houtside hrestore
  rw [hm] at hm'
  cases hm'
  obtain ⟨-, -, hwrites⟩ := create_writes hsafety
  have hwd₂ : t₂.workingDirectory = t₀.workingDirectory :=
    hedits.workingDirectory.trans htaken.writes.workingDirectory
  have hdirs₂ : ∀ n, t₀.at? n = some .directory → t₂.at? n = some .directory := fun n hn =>
    (hedits.directory n).2 (htaken.writes.directory n hn)
  have hback : ∀ rel ∈ m.files, ∃ ns c, names? rel = some ns ∧ t₀.Reaches (below s.root ns) ∧
      t₁.at? (t₁.spelled s.root ++ ns) = some (.file c) ∧
      t₃.at? (t₁.spelled s.root ++ ns) = some (.file c) := by
    intro rel hrel
    obtain ⟨ns, c, hold, hout, hreach, hat⟩ := htaken.brought_holds ht hname hfree hwd hkept
      hbrought (hbrought.mem_restored hskipped hrel)
    rw [htaken.writes.spelled]
    exact ⟨ns, c, hold.names, hold.live hreach.fits, (htaken.writes_inside hname).file _ c
      (fun ⟨rest, _, heq⟩ => hout ⟨rest, heq.symm⟩) hold.file, hat⟩
  -- The way to each file is still there when the file is brought back.
  have hready : ∀ rel ∈ m.files, ∀ ns, names? rel = some ns → t'.Reaches (below s.root ns) := by
    intro rel hrel ns hns
    obtain ⟨ns', -, hns', hreach, -⟩ := hback rel hrel
    rw [hns] at hns'
    cases hns'
    exact hwrites.reaches (hreach.mono hwd₂ hdirs₂)
  have hrewrites := rewrites_foldl_bringBack s dir m.files (t', [], []) hready
  rw [hloop] at hrewrites
  refine revived_of_changes hedits hwrites (changedInside_create hedits.isTree hname
    (ensureDirectory_of_opened hopened hwd₂ hdirs₂) hsafety) hrewrites fun rel hrel => ?_
  obtain ⟨ns, c, hns, -, hbefore, hafter⟩ := hback rel hrel
  exact ⟨ns, c, hns, hbefore, hafter⟩

end SnapshotStore

open SnapshotStore (Inside)

namespace Workspace

variable {w : Workspace} {t : FileTree} {p : Path}

/-- No entry of a root document has a path that comes into the backup directory. -/
def KeepsOut (w : Workspace) (t : FileTree) (p : Path) : Prop :=
  ∀ document, t.document? p = some document → ∀ e ∈ Defaults.entriesOf document,
    ∀ f, e.file? w.root = some f → ∀ n, t.Passes f n → ¬ Inside (t.spelled w.snapshots.directory) n

theorem document?_of_selected (hselected : w.selected = some p) (hfile : t.isFile p = true) :
    w.document? t = some p := by
  unfold document?
  rw [hselected]
  exact if_pos hfile

/-- A workspace keeps track of every file that an entry of its root document has. -/
theorem mem_tracked_of_entry {document : Value} {e : DefaultsEntry} {f : Path}
    (hp : w.document? t = some p) (hd : t.document? p = some document)
    (he : e ∈ Defaults.entriesOf document) (hf : e.file? w.root = some f)
    (hfile : t.isFile f = true) : f ∈ w.tracked t := by
  obtain ⟨m, hm, hpath⟩ := ConfigModule.exists_select? hf hfile
  have hmodules : w.modules t =
      (Defaults.entriesOf document).filterMap (ConfigModule.select? t w.root) := by
    rw [modules, hp]
    exact ConfigModule.resolve_of_document? hd
  rw [tracked, hmodules]
  exact List.mem_append_right _ (List.mem_filterMap.2 ⟨m, List.mem_filterMap.2 ⟨e, he, hm⟩, hpath⟩)

/-- **A restore brings the composition back.** If the snapshot lists the root document and all
resolved modules, and a restore after edits of files skips nothing, then the merge without overrides
is what it was before the edits, with every strategy, with or without interpolation and in every
wording. -/
theorem merge_restoreSnapshot {now now' : Int} {tag : Text} {snapshot : Path} {m : Manifest}
    {edits : List FileTree.Edit} {report : RestoreReport} {t₁ t₃ : FileTree} (ht : t.IsTree)
    (hselected : w.selected = some p) (hfile : t.isFile p = true)
    (hname : IsName w.settings.backups.manifestName)
    (hcreate : w.createSnapshot now tag t = (.ok snapshot, t₁))
    (hentries : w.KeepsOut t₁ p) (hm : w.snapshots.readManifest t₁ snapshot = .ok m)
    (hlisted : ∀ f ∈ w.tracked t₁, ∃ rel ∈ m.files, relative? w.root f = some rel)
    (hfree : ∀ rel ∈ m.files, names? rel ≠ some [w.settings.backups.manifestName])
    (hedits : FileTree.Edit.AllOfFiles (t₁.spelled w.snapshots.directory) t₁ edits)
    (hrestore : w.restoreSnapshot now' snapshot (FileTree.Edit.run t₁ edits) = (.ok report, t₃))
    (hskipped : report.skipped = []) (env : Environment) (merge : MergeSettings)
    (wording : Wording) :
    let merging : Workspace := { w with settings := { w.settings with merge := merge } }
    merging.merge env t₃ [] wording = merging.merge env t₁ [] wording := by
  obtain ⟨t₀, -, htaken⟩ := SnapshotStore.create_taken ht w.isFile_of_tracked hcreate
  have hfile₁ : t₁.isFile p = true := htaken.isFile ht hname hfile
  have hrevived := SnapshotStore.revived_of_restore ht hname w.isFile_of_tracked hcreate hm hfree
    (FileTree.filesEdited_run (htaken.isTree ht) hedits) hrestore hskipped
  have hdoc : w.document? t₁ = some p := document?_of_selected hselected hfile₁
  have htracked : p ∈ w.tracked t₁ := by
    rw [tracked, hdoc]
    exact List.mem_append_left _ (List.mem_singleton_self p)
  obtain ⟨rel, hrel, hp⟩ := hlisted p htracked
  obtain ⟨c, hc⟩ := FileTree.isFile_iff.1 hfile₁
  have hc₃ := hrevived.read hc hrel hp
  have hfile₃ : t₃.isFile p = true := FileTree.isFile_iff.2 ⟨c, hc₃⟩
  have htext : t₃.readText p = t₁.readText p := by
    rw [FileTree.readText, FileTree.readText, hc₃, hc]
  have hsame : ∀ document, t₁.document? p = some document →
      Defaults.SameFiles t₁ t₃ w.root (Defaults.entriesOf document) := by
    intro document hd e he f hf
    exact hrevived.sameAt (fun hthere => hlisted f (mem_tracked_of_entry hdoc hd he hf hthere))
      (hentries document hd e he f hf)
  intro merging
  have hselected' : merging.selected = some p := hselected
  rw [Workspace.merge, Workspace.merge, document?_of_selected hselected' hfile₃,
    document?_of_selected hselected' hfile₁]
  exact Preview.merge_congr env merge wording htext hsame

end Workspace

namespace Workspace.HalfResolved

/-- A root document with a module that is there and one that is missing. -/
def tree : FileTree where
  entries := [(["r"].map String.toList, .directory),
    (["r", "c.yaml"].map String.toList, .file (.text "defaults:\n  - g: m\n  - h: n\n")),
    (["r", "g"].map String.toList, .directory),
    (["r", "g", "m.yaml"].map String.toList, .file (.text "x: 1\n"))]
  workingDirectory := []

def workspace : Workspace := ⟨"/r", some "/r/c.yaml", Settings.standard⟩

def snapshot : Path := "/r/.hydra_backups/19700101_000000_t"

def taken : FileTree := (workspace.createSnapshot 0 "t" tree).2

/-- The root document is rewritten and the module is deleted. -/
def edits : List FileTree.Edit := [.write "/r/c.yaml" (.text "y: 2\n"), .remove "/r/g/m.yaml"]

def report : RestoreReport where
  safety := "/r/.hydra_backups/19700101_000001_pre_restore_backup"
  restored := ["c.yaml", "g/m.yaml"].map String.toList
  skipped := []

def restored : FileTree :=
  (workspace.restoreSnapshot 1000000 snapshot (FileTree.Edit.run taken edits)).2

def document : Value := .mapping [(.string "defaults", .sequence [
  .mapping [(.string "g", .string "m")], .mapping [(.string "h", .string "n")]])]

theorem keepsOut : workspace.KeepsOut taken "/r/c.yaml" := by
  have hd : taken.document? "/r/c.yaml" = some document := by decide +kernel
  have hfiles : (Defaults.entriesOf document).filterMap (DefaultsEntry.file? "/r") =
      ["/r/g/m.yaml", "/r/h/n.yaml"].map String.toList := by decide +kernel
  have hways : ∀ f ∈ ["/r/g/m.yaml", "/r/h/n.yaml"].map String.toList,
      ∀ front ∈ (Path.steps f).inits, ¬ taken.spelled workspace.snapshots.directory <+:
        front.foldl FileTree.stepInto (taken.start f) := by decide +kernel
  intro document' hd' e he f hf n hn hin
  rw [hd] at hd'
  cases hd'
  have hmem : f ∈ (Defaults.entriesOf document).filterMap (DefaultsEntry.file? "/r") :=
    List.mem_filterMap.2 ⟨e, he, hf⟩
  rw [hfiles] at hmem
  obtain ⟨front, hfront, rfl⟩ := hn
  obtain ⟨ns, -, heq⟩ := hin
  exact hways f hmem front ((List.mem_inits _ _).2 hfront) ⟨ns, heq.symm⟩

end Workspace.HalfResolved

open Workspace.HalfResolved in
theorem Workspace.merge_restoreSnapshot_halfResolved :
    workspace.restoreSnapshot 1000000 snapshot (FileTree.Edit.run taken edits) =
        (.ok report, restored) ∧
      workspace.merge [] (FileTree.Edit.run taken edits) [] .marked ≠
        workspace.merge [] taken [] .marked ∧
      workspace.merge [] restored [] .marked = workspace.merge [] taken [] .marked := by
  have hcreate : workspace.createSnapshot 0 "t" tree = (.ok snapshot, taken) :=
    Outcome.pair_of_fst (by decide +kernel)
  have hm : workspace.snapshots.readManifest taken snapshot =
      .ok ⟨"t", Manifest.timestampOf 0, ["c.yaml", "g/m.yaml"].map String.toList⟩ := by
    decide +kernel
  have hlisted : ∀ f ∈ workspace.tracked taken,
      ∃ rel ∈ ["c.yaml", "g/m.yaml"].map String.toList, relative? workspace.root f = some rel := by
    decide +kernel
  have hrestore : workspace.restoreSnapshot 1000000 snapshot (FileTree.Edit.run taken edits) =
      (.ok report, restored) := Outcome.pair_of_fst (by decide +kernel)
  refine ⟨hrestore, by decide +kernel, ?_⟩
  exact Workspace.merge_restoreSnapshot (FileTree.isTree_of_entries (by decide +kernel)) rfl
    (by decide +kernel) (by decide +kernel) hcreate keepsOut hm hlisted (by decide +kernel)
    (by decide +kernel) hrestore rfl [] workspace.settings.merge .marked

end LayeredConfig
