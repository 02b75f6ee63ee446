import LayeredConfig.Proofs.Files.Edit
import LayeredConfig.Proofs.Snapshot.Create
import LayeredConfig.Proofs.Snapshot.Manifest
import LayeredConfig.Proofs.Snapshot.Restore
import LayeredConfig.Proofs.Workspace.Tracked

/-!
# A restore undoes edits

Whatever happens to the tree outside a snapshot, restoring it brings back the files that its
manifest lists as they were when it was taken. The safety snapshot in between goes to another
directory, and so it does not touch the copies.
-/
namespace LayeredConfig

open LayeredConfig.Path (join below confine? names? IsName)

namespace SnapshotStore

variable {s : SnapshotStore} {now : Int} {sources : FileTree → List Path} {dir : Path}
  {t t₁ t₂ t₃ : FileTree}

theorem readManifest_eq_ok {m : Manifest} :
    s.readManifest t dir = .ok m ↔ ∃ text, t.readText (s.manifestPath dir) = .ok text ∧
      Manifest.read? text = some m := by
  unfold readManifest
  cases t.readText (s.manifestPath dir) with
  | error fault => cases fault <;> simp
  | ok text => cases hread : Manifest.read? text <;> simp [hread]

theorem restore_eq_ok {report : RestoreReport}
    (h : s.restore now sources dir t = (.ok report, t₃)) :
    ∃ t₂ m, s.create now sources s.settings.preRestoreTag t = (.ok report.safety, t₂) ∧
      s.readManifest t₂ dir = .ok m ∧
      m.files.foldl (s.bringBack dir) (t₂, [], []) = (t₃, report.restored, report.skipped) := by
  unfold restore at h
  rcases hcreate : s.create now sources s.settings.preRestoreTag t with ⟨e | safety, t₂⟩
  · rw [hcreate] at h
    cases h
  rw [hcreate] at h
  simp only at h
  cases hm : s.readManifest t₂ dir with
  | error e =>
    rw [hm] at h
    cases h
  | ok m =>
    rw [hm] at h
    simp only at h
    rcases hloop : m.files.foldl (s.bringBack dir) (t₂, [], []) with ⟨t', restored, skipped⟩
    rw [hloop] at h
    cases h
    exact ⟨t₂, m, rfl, hm, hloop⟩

/-- Two snapshots of one store do not lie in each other. -/
theorem not_inside_other {t₀ t₀' : FileTree} {dir' : Path} (hop : Opened s t t₀ dir)
    (hop' : Opened s t₁ t₀' dir') (hwd : t₁.workingDirectory = t.workingDirectory)
    (hdir : t₁.at? (t.spelled dir) = some .directory) (ns : Names) :
    ¬ Inside (t₁.spelled dir') (t.spelled dir ++ ns) := by
  rintro ⟨ns', -, heq⟩
  obtain ⟨name, hname, rfl⟩ := hop.place
  obtain ⟨name', hname', rfl⟩ := hop'.place
  have hunused := hop'.unused
  rw [FileTree.spelled_join _ _ hname', FileTree.spelled_eq hwd] at heq hunused
  rw [FileTree.spelled_join _ _ hname] at heq hdir
  have hsame := (List.append_inj heq (by simp)).1
  rw [← hsame, hdir] at hunused
  cases hunused

/-- **What lies in a snapshot survives** edits elsewhere and a second snapshot. -/
theorem Taken.survives {now' : Int} {tag tag' : Text} {t₀ t' : FileTree} {copied : List Text}
    {safety : Path} (hname : IsName s.settings.manifestName)
    (h : Taken s now tag t t₀ t₁ dir copied)
    (hedits : FileTree.EditedOutside (t₁.spelled dir) t₁ t₂)
    (hcreate : s.create now' sources tag' t₂ = (.ok safety, t')) :
    t'.workingDirectory = t.workingDirectory ∧ ∀ ns e,
      t₁.at? (t.spelled dir ++ ns) = some e → t'.at? (t.spelled dir ++ ns) = some e := by
  obtain ⟨t₀', hop', hsafety⟩ := create_writes hcreate
  have hsafety := hsafety.mono fun _ => Touched.inside hname
  have hspelled : t₁.spelled dir = t.spelled dir :=
    (h.writes.spelled dir).trans (h.opened.grows.spelled dir)
  have hwd : t₂.workingDirectory = t.workingDirectory := hedits.workingDirectory.trans
    (h.writes.workingDirectory.trans h.opened.grows.workingDirectory)
  have hkept := hedits.kept
  rw [hspelled] at hkept
  have hdir : t₂.at? (t.spelled dir) = some .directory := by
    have hhere := hkept []
    rwa [List.append_nil, h.writes.directory _ h.opened.directory] at hhere
  refine ⟨hsafety.workingDirectory.trans hwd, fun ns e he => ?_⟩
  rw [← hkept ns] at he
  cases e with
  | directory => exact hsafety.directory _ he
  | file c => exact hsafety.file _ c (not_inside_other h.opened hop' hwd hdir ns) he

/-- The manifest that is read after a while is the one that was written. -/
theorem Taken.manifest_kept {tag text : Text} {t₀ t' : FileTree} {copied : List Text}
    (hname : IsName s.settings.manifestName) (h : Taken s now tag t t₀ t₁ dir copied)
    (hwd : t'.workingDirectory = t.workingDirectory)
    (hkept : ∀ ns e, t₁.at? (t.spelled dir ++ ns) = some e →
      t'.at? (t.spelled dir ++ ns) = some e)
    (hread : t'.readText (s.manifestPath dir) = .ok text) :
    text = (manifestOf now tag copied).text := by
  have hspelled : t₁.spelled dir = t.spelled dir :=
    (h.writes.spelled dir).trans (h.opened.grows.spelled dir)
  have hwritten := (FileTree.read_eq_ok (FileTree.readText_eq_ok.1 h.manifest)).2
  have hat := (FileTree.read_eq_ok (FileTree.readText_eq_ok.1 hread)).2
  rw [spelled_manifestPath hname, hspelled] at hwritten
  rw [spelled_manifestPath hname, FileTree.spelled_eq hwd, hkept _ _ hwritten] at hat
  cases hat
  rfl

/-- While what lies in a snapshot stays and its manifest can be read, its copies are whole. -/
theorem Taken.whole {tag text : Text} {t₀ t' : FileTree} {copied : List Text} (ht : t.IsTree)
    (hname : IsName s.settings.manifestName) (h : Taken s now tag t t₀ t₁ dir copied)
    (hwd : t'.workingDirectory = t.workingDirectory)
    (hkept : ∀ ns e, t₁.at? (t.spelled dir ++ ns) = some e →
      t'.at? (t.spelled dir ++ ns) = some e)
    (hread : t'.readText (s.manifestPath dir) = .ok text)
    (hfree : ∀ rel ∈ copied, names? rel ≠ some [s.settings.manifestName]) :
    Whole s dir t' copied := by
  have hspelled₀ : t₀.spelled dir = t.spelled dir := h.opened.grows.spelled dir
  have hspelled₁ : t₁.spelled dir = t.spelled dir := (h.writes.spelled dir).trans hspelled₀
  have hspelled' : t'.spelled dir = t.spelled dir := FileTree.spelled_eq hwd dir
  -- The directory itself can be reached, as its manifest has been.
  have hreach := (FileTree.read_eq_ok (FileTree.readText_eq_ok.1 hread)).1
  have hsteps := FileTree.followed_of_reaches_join hname hreach
  refine ⟨fun rel hrel => ?_, fun rel hrel ns hns => ?_⟩
  · obtain ⟨ns, c, hold⟩ := h.holds_of_names hname hrel (hfree rel hrel)
    have hnames := Path.isName_of_names? hold.names
    have hbelow := ((FileTree.followed_below hnames).1 hold.reaches.followed).2
    have hcopy := hold.copy
    rw [hspelled₁] at hbelow
    rw [hspelled₀] at hcopy
    refine ⟨ns, c, hold.names, ⟨hold.reaches.fits, ?_⟩, ?_⟩
    · rw [FileTree.followed_below hnames, hspelled']
      exact ⟨hsteps, FileTree.followed_names_mono (fun ns => hkept ns .directory) hbelow⟩
    · rw [hspelled']
      exact hkept _ _ hcopy
  · obtain ⟨ns', c, hold⟩ := h.holds_of_names hname hrel (hfree rel hrel)
    have hsame := hold.names
    rw [hns] at hsame
    cases hsame
    have hout := not_inside_of_file (hspelled₀.symm ▸ h.opened.directory)
      (hspelled₀.symm ▸ h.opened.nothing ht) hold.file
    rw [hspelled', FileTree.spelled_eq hwd, ← hspelled₀, ← h.opened.grows.spelled s.root]
    exact hout

/-- A file that has been brought back to where it was, holds what it held. -/
theorem Holds.brought {t₀ : FileTree} {rel : Text} {ns : List Text} {c : Content}
    (h : Holds s dir t₀ t₁ rel ns c) (hgrows : t.Grows t₀)
    (hwrites : FileTree.Writes (Inside (t.spelled dir)) t₀ t₁)
    (hout : ¬ Inside (t.spelled dir) (t₀.spelled s.root ++ ns))
    (hwd : t₃.workingDirectory = t₀.workingDirectory) (hreach : t₃.Reaches (below s.root ns))
    (hat : t₃.at? (t₀.spelled s.root ++ ns) = some (.file c)) :
    ∃ p c, confine? s.root rel = some p ∧ t₁.read p = .ok c ∧ t₃.read p = .ok c ∧
      ∀ c', t.read p = .ok c' → c' = c := by
  have hnames := Path.isName_of_names? h.names
  have hnamed := Path.named_below s.root hnames (Path.names?_eq_some h.names).2
  have hlive := h.live hreach.fits
  refine ⟨below s.root ns, c, Path.confine?_eq_some.2 ⟨ns, h.names, rfl⟩, ?_, ?_, ?_⟩
  · refine FileTree.read_of_reaches hnamed (hwrites.reaches hlive) ?_
    rw [FileTree.spelled_below _ _ hnames, hwrites.spelled]
    exact hwrites.file _ c hout h.file
  · refine FileTree.read_of_reaches hnamed hreach ?_
    rw [FileTree.spelled_below _ _ hnames, FileTree.spelled_eq hwd]
    exact hat
  · intro c' hc'
    have hbefore := (FileTree.read_eq_ok hc').2
    have hsame := hgrows.file _ c' (fun h => h) hbefore
    rw [FileTree.spelled_below _ _ hnames, ← hgrows.spelled, h.file] at hsame
    cases hsame
    rfl

/-- **A restore after edits elsewhere**: what lies in the snapshot is still there when its files are
brought back, and the manifest lists what was copied. -/
theorem Taken.restored {now' : Int} {tag : Text} {t₀ : FileTree} {copied : List Text}
    {report : RestoreReport} (ht : t.IsTree) (hname : IsName s.settings.manifestName)
    (h : Taken s now tag t t₀ t₁ dir copied)
    (hfree : ∀ m, s.readManifest t₁ dir = .ok m →
      ∀ rel ∈ m.files, names? rel ≠ some [s.settings.manifestName])
    (hedits : FileTree.EditedOutside (t₁.spelled dir) t₁ t₂)
    (hrestore : s.restore now' sources dir t₂ = (.ok report, t₃)) :
    ∃ t' m, s.create now' sources s.settings.preRestoreTag t₂ = (.ok report.safety, t') ∧
      s.readManifest t₁ dir = .ok m ∧ m.tag = tag ∧ m.files = copied ∧
      t'.workingDirectory = t.workingDirectory ∧
      (∀ ns e, t₁.at? (t.spelled dir ++ ns) = some e → t'.at? (t.spelled dir ++ ns) = some e) ∧
      copied.foldl (s.bringBack dir) (t', [], []) = (t₃, report.restored, report.skipped) ∧
      Brought s dir t' copied (t₃, report.restored, report.skipped) := by
  obtain ⟨t', m, hsafety, hm, hloop⟩ := restore_eq_ok hrestore
  obtain ⟨hwd, hkept⟩ := h.survives hname hedits hsafety
  obtain ⟨text, hread, hparse⟩ := readManifest_eq_ok.1 hm
  obtain rfl := h.manifest_kept hname hwd hkept hread
  obtain ⟨htag, hfiles⟩ := Manifest.read?_text hparse
  have hm₁ := readManifest_eq_ok.2 ⟨_, h.manifest, hparse⟩
  have hcopies := hfree m hm₁
  change m.files = copied at hfiles
  subst hfiles
  have hbrought := brought_all (h.whole ht hname hwd hkept hread hcopies) h.nodup
  rw [hloop] at hbrought
  exact ⟨t', m, hsafety, hm₁, htag, rfl, hwd, hkept, hloop, hbrought⟩

/-- What is brought back is what the snapshot holds, and where it was. -/
theorem Taken.brought_holds {tag : Text} {t₀ t' : FileTree} {copied : List Text}
    {state : FileTree × List Text × List Text} (ht : t.IsTree)
    (hname : IsName s.settings.manifestName) (h : Taken s now tag t t₀ t₁ dir copied)
    (hfree : ∀ rel ∈ copied, names? rel ≠ some [s.settings.manifestName])
    (hwd : t'.workingDirectory = t.workingDirectory)
    (hkept : ∀ ns e, t₁.at? (t.spelled dir ++ ns) = some e →
      t'.at? (t.spelled dir ++ ns) = some e)
    (hbrought : Brought s dir t' copied state) {rel : Text} (hrel : rel ∈ state.2.1) :
    ∃ ns c, Holds s dir t₀ t₁ rel ns c ∧
      ¬ t.spelled dir <+: t₀.spelled s.root ++ ns ∧
      state.1.Reaches (below s.root ns) ∧
      state.1.at? (t₀.spelled s.root ++ ns) = some (.file c) := by
  obtain ⟨ns, c, hns, hcopied, hreach, hat⟩ := hbrought.holds rel hrel
  have hmem : rel ∈ copied := by
    rw [hbrought.restored] at hrel
    exact (List.mem_filter.1 hrel).1
  obtain ⟨ns', c', hold⟩ := h.holds_of_names hname hmem (hfree rel hmem)
  have hsame := hold.names
  rw [hns] at hsame
  cases hsame
  have hspelled := h.opened.grows.spelled dir
  have hcopy := hkept _ _ (hspelled ▸ hold.copy)
  rw [← FileTree.spelled_eq hwd, hcopied.copy] at hcopy
  cases hcopy
  have hout := not_inside_of_file (hspelled.symm ▸ h.opened.directory)
    (hspelled.symm ▸ h.opened.nothing ht) hold.file
  rw [hspelled] at hout
  rw [FileTree.spelled_eq (hwd.trans h.opened.grows.workingDirectory.symm)] at hat
  exact ⟨ns, c, hold, hout, hreach, hat⟩

end SnapshotStore

/-- **A restore brings back what a snapshot holds.** Between the two, anything may be edited or
deleted outside the snapshot, and another root document may be selected. Each file that the
manifest lists is either restored, with the bytes it had when the snapshot was taken, or it is
skipped, because it could not be written when its turn came. -/
theorem Workspace.restoreSnapshot_createSnapshot {w : Workspace} {selected : Option Path}
    {now now' : Int} {tag : Text} {snapshot : Path} {report : RestoreReport}
    {t t₁ t₂ t₃ : FileTree} (ht : t.IsTree) (hname : IsName w.settings.backups.manifestName)
    (hcreate : w.createSnapshot now tag t = (.ok snapshot, t₁))
    (hfree : ∀ m, w.snapshots.readManifest t₁ snapshot = .ok m →
      ∀ rel ∈ m.files, names? rel ≠ some [w.settings.backups.manifestName])
    (hedits : FileTree.EditedOutside (t₁.spelled snapshot) t₁ t₂)
    (hrestore : ({ w with selected := selected } : Workspace).restoreSnapshot now' snapshot t₂ =
      (.ok report, t₃)) :
    ∃ m t', w.snapshots.readManifest t₁ snapshot = .ok m ∧ m.tag = tag ∧ m.files.Nodup ∧
      report.restored = m.files.filter (· ∈ report.restored) ∧
      report.skipped = m.files.filter (· ∉ report.restored) ∧
      (∀ rel ∈ report.restored, ∃ p c, confine? w.root rel = some p ∧
        t₁.read p = .ok c ∧ t₃.read p = .ok c ∧ ∀ c', t.read p = .ok c' → c' = c) ∧
      ({ w with selected := selected } : Workspace).createSnapshot now'
        w.settings.backups.preRestoreTag t₂ = (.ok report.safety, t') ∧
      ∀ rel ∈ report.skipped, ∃ before after p, m.files = before ++ rel :: after ∧
        confine? w.root rel = some p ∧
        (before.foldl (w.snapshots.bringBack snapshot) (t', [], [])).1.writable p = false := by
  obtain ⟨t₀, -, htaken⟩ := SnapshotStore.create_taken ht w.isFile_of_tracked hcreate
  generalize ((w.tracked t₀).foldl (w.snapshots.collect snapshot) (t₀, [])).2 = copied at htaken
  obtain ⟨t', m, hsafety, hm, htag, rfl, hwd, hkept, -, hbrought⟩ :=
    htaken.restored ht hname hfree hedits hrestore
  refine ⟨m, t', hm, htag, htaken.nodup, hbrought.restored, hbrought.skipped, ?_, hsafety,
    hbrought.refused⟩
  intro rel hrel
  obtain ⟨ns, c, hold, hout, hreach, hat⟩ :=
    htaken.brought_holds ht hname (hfree m hm) hwd hkept hbrought hrel
  exact hold.brought htaken.opened.grows (htaken.writes_inside hname)
    (fun ⟨rest, _, heq⟩ => hout ⟨rest, heq.symm⟩)
    (hbrought.writes.workingDirectory.trans
      (hwd.trans htaken.opened.grows.workingDirectory.symm)) hreach hat

namespace Workspace.Sample

/-- A root document and one module. -/
def tree : FileTree where
  entries := [(["r"].map String.toList, .directory),
    (["r", "c.yaml"].map String.toList, .file (.text "defaults:\n  - g: m\n")),
    (["r", "g"].map String.toList, .directory),
    (["r", "g", "m.yaml"].map String.toList, .file (.text "x: 1\n"))]
  workingDirectory := []

def workspace : Workspace := ⟨"/r", some "/r/c.yaml", Settings.standard⟩

def snapshot : Path := "/r/.hydra_backups/19700101_000000_t"

def taken : FileTree := (workspace.createSnapshot 0 "t" tree).2

/-- The root document is rewritten, and a file takes the place of the module's directory. -/
def edited : FileTree :=
  FileTree.Edit.run taken
    [.write "/r/c.yaml" (.text "y: 2\n"), .remove "/r/g", .write "/r/g" (.text "")]

def report : RestoreReport where
  safety := "/r/.hydra_backups/19700101_000001_pre_restore_backup"
  restored := ["c.yaml"].map String.toList
  skipped := ["g/m.yaml"].map String.toList

def restored : FileTree := (workspace.restoreSnapshot 1000000 snapshot edited).2

end Workspace.Sample

open Workspace.Sample in
theorem Workspace.restoreSnapshot_createSnapshot_edited :
    workspace.restoreSnapshot 1000000 snapshot edited = (.ok report, restored) ∧
      ∃ p c, confine? workspace.root "c.yaml" = some p ∧ taken.read p = .ok c ∧
        restored.read p = .ok c := by
  have hcreate : workspace.createSnapshot 0 "t" tree = (.ok snapshot, taken) :=
    Outcome.pair_of_fst (by decide +kernel)
  have hrestore : workspace.restoreSnapshot 1000000 snapshot edited = (.ok report, restored) :=
    Outcome.pair_of_fst (by decide +kernel)
  have hm : workspace.snapshots.readManifest taken snapshot =
      .ok ⟨"t", Manifest.timestampOf 0, ["c.yaml", "g/m.yaml"].map String.toList⟩ := by
    decide +kernel
  have hfree : ∀ m, workspace.snapshots.readManifest taken snapshot = .ok m →
      ∀ rel ∈ m.files, names? rel ≠ some [workspace.settings.backups.manifestName] := by
    intro m h
    rw [hm] at h
    cases h
    decide +kernel
  have hedits : FileTree.EditedOutside (taken.spelled snapshot) taken edited :=
    FileTree.editedOutside_run (by decide +kernel)
  obtain ⟨m, t', -, -, -, -, -, hrestored, -⟩ :=
    Workspace.restoreSnapshot_createSnapshot
      (FileTree.isTree_of_entries (by decide +kernel)) (by decide +kernel) hcreate hfree hedits
      hrestore
  obtain ⟨p, c, hp, htaken, hnow, -⟩ := hrestored "c.yaml".toList (by decide +kernel)
  exact ⟨hrestore, p, c, hp, htaken, hnow⟩

end LayeredConfig
