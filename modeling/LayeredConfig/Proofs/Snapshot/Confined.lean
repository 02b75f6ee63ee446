import LayeredConfig.Proofs.Snapshot.Changes

/-!
# A restore stays below the root

Whatever the manifest of a snapshot lists, restoring it changes nothing outside the configuration
root. Outside the backup directory it writes only what the root joined with an entry means, for
entries that are relative and have no `..`, and makes directories on the way there. A restore that
fails has changed nothing there.
-/
namespace LayeredConfig

open LayeredConfig.Path (join below components confine? isAbsolute names? steps IsName)

namespace Path

theorem steps_join_of_relative (p : Path) {q : Path} (h : isAbsolute q = false) :
    steps (join p q) = steps p ++ steps q ∧ isAbsolute (join p q) = isAbsolute p := by
  unfold join
  rw [if_neg (by simp [h])]
  split
  · next hend =>
    rcases List.eq_nil_or_concat p with rfl | ⟨front, c, rfl⟩
    · exact ⟨rfl, h⟩
    · obtain rfl : c = '/' := by simpa using hend
      have hwhole : steps (front.concat '/' ++ q) = steps front ++ steps q := by
        rw [List.concat_eq_append, List.append_assoc, List.singleton_append, steps,
          Text.splitAll_append, List.filterMap_append]
        rfl
      have hfront : steps (front.concat '/') = steps front := by
        rw [List.concat_eq_append, steps, Text.splitAll_append, List.filterMap_append]
        exact List.append_nil _
      refine ⟨by rw [hwhole, hfront], ?_⟩
      cases front <;> rfl
  · next hend =>
    refine ⟨by rw [steps, Text.splitAll_append, List.filterMap_append]; rfl, ?_⟩
    cases p with
    | nil => exact absurd (Or.inl rfl) hend
    | cons c p => rfl

/-- A path that stays below its base is relative and has no `..`. -/
theorem relative_of_names? {rel : Text} {ns : List Text} (h : names? rel = some ns) :
    isAbsolute rel = false ∧ .parent ∉ components rel ∧ steps rel = ns.map .name := by
  obtain ⟨hfilter, hroot⟩ := plainNames?_eq_some (names?_eq_some h).1
  refine ⟨?_, fun hmem => ?_, by rw [steps_eq_filter, hfilter]⟩
  · rw [Bool.eq_false_iff]
    exact fun habs => hroot ((isAbsolute_iff_root_mem rel).1 habs)
  · have hkept : Component.parent ∈ (components rel).filter takesStep :=
      List.mem_filter.2 ⟨hmem, rfl⟩
    rw [hfilter] at hkept
    obtain ⟨name, -, hname⟩ := List.mem_map.1 hkept
    cases hname

end Path

/-- A base joined with a path that stays below it leads to the names of the path. -/
theorem FileTree.spelled_join_of_names? (t : FileTree) (base : Path) {rel : Text} {ns : List Text}
    (h : names? rel = some ns) : t.spelled (join base rel) = t.spelled base ++ ns := by
  obtain ⟨hrelative, -, hsteps⟩ := Path.relative_of_names? h
  obtain ⟨hjoin, habs⟩ := Path.steps_join_of_relative base hrelative
  rw [spelled, hjoin, hsteps, List.foldl_append, foldl_stepInto_names, start, habs]
  rfl

namespace SnapshotStore

variable {s : SnapshotStore} {now : Int} {sources : FileTree → List Path} {dir : Path}
  {t t₁ t₃ : FileTree}

/-- What becomes of a restore: there is no more than its safety snapshot, or files have been brought
back after it. -/
theorem restore_cases {outcome : Except SnapshotError RestoreReport}
    (h : s.restore now sources dir t = (outcome, t₃)) :
    (∃ e taken, outcome = .error e ∧
        s.create now sources s.settings.preRestoreTag t = (taken, t₃)) ∨
      ∃ report t₁ m, outcome = .ok report ∧
        s.create now sources s.settings.preRestoreTag t = (.ok report.safety, t₁) ∧
        s.readManifest t₁ dir = .ok m ∧ m.files.foldl (s.bringBack dir) (t₁, [], []) =
          (t₃, report.restored, report.skipped) := by
  cases outcome with
  | ok report =>
    obtain ⟨t₁, m, hrest⟩ := restore_eq_ok h
    exact Or.inr ⟨report, t₁, m, rfl, hrest⟩
  | error e =>
    refine Or.inl ⟨e, ?_⟩
    unfold restore at h
    rcases hcreate : s.create now sources s.settings.preRestoreTag t with ⟨fault | safety, t₁⟩
    · rw [hcreate] at h
      cases h
      exact ⟨_, rfl, rfl⟩
    rw [hcreate] at h
    simp only at h
    cases hm : s.readManifest t₁ dir with
    | error fault =>
      rw [hm] at h
      cases h
      exact ⟨_, rfl, rfl⟩
    | ok m =>
      rw [hm] at h
      cases h

/-- Below a root that is there, a snapshot adds nothing outside the backup directory. -/
theorem Added.outside (hdir : IsName s.settings.dirName) (hroot : t.isDirectory s.root = true)
    (h : s.Added t t₁) {n : Names} (hn : ¬ t.spelled s.directory <+: n) : t₁.at? n = t.at? n := by
  rcases h.entry n with hsame | ⟨hnone, ⟨-, hpass⟩ | ⟨name, -, -, hbelow⟩⟩
  · exact hsame
  · exfalso
    obtain ⟨hreach, hat⟩ := FileTree.reaches_of_isDirectory hroot
    -- What the root passes is there, and after it there is only the backup directory itself.
    rcases FileTree.passes_below (List.forall_mem_singleton.2 hdir) hpass with
      hpass | ⟨front, hfront, rfl⟩
    · rw [hreach.passes hat hpass] at hnone
      cases hnone
    · cases front with
      | nil =>
        rw [List.append_nil, hat] at hnone
        cases hnone
      | cons name front =>
        obtain ⟨rfl, hrest⟩ := List.cons_prefix_cons.1 hfront
        rw [List.prefix_nil.1 hrest, ← spelled_directory hdir] at hn
        exact hn (List.prefix_refl _)
  · exact absurd ((List.prefix_append _ _).trans hbelow) hn

theorem Added.isDirectory (h : s.Added t t₁) {p : Path} (hp : t.isDirectory p = true) :
    t₁.isDirectory p = true :=
  FileTree.isDirectory_along h.workingDirectory (fun _ _ hd => h.kept hd) hp

theorem Added.readManifest (h : s.Added t t₁) {m : Manifest} (hm : s.readManifest t dir = .ok m) :
    s.readManifest t₁ dir = .ok m := by
  obtain ⟨text, htext, hread⟩ := readManifest_eq_ok.1 hm
  have hfile := FileTree.readText_eq_ok.1 htext
  have hkept := FileTree.read_along h.workingDirectory (fun _ _ hd => h.kept hd) hfile
    (h.kept (FileTree.read_eq_ok hfile).2)
  exact readManifest_eq_ok.2 ⟨text, FileTree.readText_eq_ok.2 hkept, hread⟩

/-- A change that an entry of a manifest explains: the entry is relative and has no `..`, and the
change is at what the root joined with it means, which is a file now, or it is a directory that has
been made on the way there. -/
structure Explains (s : SnapshotStore) (t t₃ : FileTree) (rel : Text) (n : Names) : Prop where
  relative : isAbsolute rel = false
  noParent : .parent ∉ components rel
  change : n = t.spelled (join s.root rel) ∧ (∃ c, t₃.at? n = some (.file c)) ∨
    t.at? n = none ∧ t₃.at? n = some .directory ∧ n <+: t.spelled (join s.root rel)

/-- What bringing files back changes lies below the root, and an entry explains it. -/
theorem Returned.explained {files : List Text} (hroot : t.isDirectory s.root = true)
    (h : s.Returned files t t₃) {n : Names} (hn : t₃.at? n ≠ t.at? n) :
    Inside (t.spelled s.root) n ∧ ∃ rel ∈ files, s.Explains t t₃ rel n := by
  obtain ⟨hreach, hat⟩ := FileTree.reaches_of_isDirectory hroot
  obtain ⟨rel, hrel, ns, hns, hchange⟩ := (h.entry n).resolve_left hn
  obtain ⟨hrelative, hparent, -⟩ := Path.relative_of_names? hns
  have hplace := t.spelled_join_of_names? s.root hns
  rcases hchange with ⟨hnone, hmade, hpass⟩ | ⟨rfl, -, hfile⟩
  · rcases FileTree.passes_below (Path.isName_of_names? hns) hpass with hpass | ⟨front, hfront, rfl⟩
    · rw [hreach.passes hat hpass] at hnone
      cases hnone
    · refine ⟨⟨front, ?_, rfl⟩, rel, hrel, hrelative, hparent, Or.inr ⟨hnone, hmade, ?_⟩⟩
      · rintro rfl
        rw [List.append_nil, hat] at hnone
        cases hnone
      · rw [hplace]
        exact (List.prefix_append_right_inj _).2 hfront
  · exact ⟨⟨ns, (Path.names?_eq_some hns).2, rfl⟩, rel, hrel, hrelative, hparent,
      Or.inl ⟨hplace.symm, hfile⟩⟩

/-- The manifest that a restore goes by: the one that is read when the safety snapshot has been
taken. -/
def GoesBy (s : SnapshotStore) (now : Int) (sources : FileTree → List Path) (dir : Path)
    (t : FileTree) (m : Manifest) : Prop :=
  ∃ safety t₁, s.create now sources s.settings.preRestoreTag t = (.ok safety, t₁) ∧
    s.readManifest t₁ dir = .ok m

/-- A manifest that was there before is the one that a restore goes by. -/
theorem GoesBy.eq (hdir : IsName s.settings.dirName) (hname : IsName s.settings.manifestName)
    (ht : t.IsTree) {m m₀ : Manifest} (h : s.GoesBy now sources dir t m)
    (hm₀ : s.readManifest t dir = .ok m₀) : m = m₀ := by
  obtain ⟨safety, t₁, hcreate, hm⟩ := h
  rw [(added_create hdir hname ht hcreate).readManifest hm₀] at hm
  cases hm
  rfl

end SnapshotStore

open SnapshotStore (Inside)

/-- **A restore stays below the root and fails cleanly.** Take any directory, with any manifest in
it, and a root that is there. Restoring it changes nothing that does not lie below the root, whether
it succeeds or not. What it changes outside the backup directory is explained by an entry of the
manifest that it goes by: the entry is relative and has no `..`, and the change is at the root
joined with the entry, or a new directory on the way there. If the restore fails, nothing has
changed outside the backup directory. -/
theorem Workspace.restoreSnapshot_confined {w : Workspace} {now : Int} {dir : Path}
    {outcome : Except SnapshotError RestoreReport} {t t₃ : FileTree} (ht : t.IsTree)
    (hroot : t.isDirectory w.root = true) (hdir : IsName w.settings.backups.dirName)
    (hname : IsName w.settings.backups.manifestName)
    (hrestore : w.restoreSnapshot now dir t = (outcome, t₃)) :
    (∀ n, ¬ Inside (t.spelled w.root) n → t₃.at? n = t.at? n) ∧
      (∀ n, ¬ t.spelled w.snapshots.directory <+: n → t₃.at? n ≠ t.at? n →
        ∃ m, w.snapshots.GoesBy now w.tracked dir t m ∧
          (∀ m₀, w.snapshots.readManifest t dir = .ok m₀ → m = m₀) ∧
          ∃ rel ∈ m.files, w.snapshots.Explains t t₃ rel n) ∧
      (∀ e, outcome = .error e →
        ∀ n, ¬ t.spelled w.snapshots.directory <+: n → t₃.at? n = t.at? n) := by
  have hbackups : ∀ n, ¬ Inside (t.spelled w.root) n → ¬ t.spelled w.snapshots.directory <+: n := by
    rintro n hn ⟨rest, rfl⟩
    rw [SnapshotStore.spelled_directory hdir, List.append_assoc] at hn
    exact hn ⟨_, by simp, rfl⟩
  rcases SnapshotStore.restore_cases hrestore with
    ⟨e, taken, rfl, hcreate⟩ | ⟨report, t₁, m, rfl, hcreate, hm, hloop⟩
  · have hadded := SnapshotStore.added_create hdir hname ht hcreate
    have hsame : ∀ n, ¬ t.spelled w.snapshots.directory <+: n → t₃.at? n = t.at? n :=
      fun n hn => hadded.outside hdir hroot hn
    exact ⟨fun n hn => hsame n (hbackups n hn), fun n hn hne => absurd (hsame n hn) hne,
      fun _ _ => hsame⟩
  · have hadded := SnapshotStore.added_create hdir hname ht hcreate
    have hback := SnapshotStore.returned_foldl_bringBack w.snapshots dir m.files (t₁, [], [])
    rw [hloop] at hback
    have hspelled : ∀ p, t₁.spelled p = t.spelled p := FileTree.spelled_eq hadded.workingDirectory
    have hchange : ∀ n, ¬ t.spelled w.snapshots.directory <+: n → t₃.at? n ≠ t.at? n →
        Inside (t.spelled w.root) n ∧ ∃ rel ∈ m.files, w.snapshots.Explains t t₃ rel n := by
      intro n hn hne
      have hsame : t₁.at? n = t.at? n := hadded.outside hdir hroot hn
      obtain ⟨hin, rel, hrel, hrelative, hparent, hchange⟩ :=
        hback.explained (hadded.isDirectory hroot) (hsame.symm ▸ hne)
      rw [hspelled] at hin
      rw [hspelled, hsame] at hchange
      exact ⟨hin, rel, hrel, hrelative, hparent, hchange⟩
    have hgoes : w.snapshots.GoesBy now w.tracked dir t m := ⟨report.safety, t₁, hcreate, hm⟩
    refine ⟨fun n hn => ?_, fun n hn hne => ⟨m, hgoes, fun m₀ hm₀ => hgoes.eq hdir hname ht hm₀,
      (hchange n hn hne).2⟩, fun e he => ?_⟩
    · by_contra hne
      exact hn (hchange n (hbackups n hn) hne).1
    · cases he

namespace Workspace.Escaping

/-- Entries that would lead out of the root, and others that do not. -/
def listed : List Text :=
  ["../p.yaml", "/p.yaml", "d/../a.yaml", "", ".", "d//./b.yaml", "a.yaml"].map String.toList

def tree : FileTree where
  entries := [(["p.yaml"].map String.toList, .file (.text "z: 1\n")),
    (["r"].map String.toList, .directory),
    (["r", "a.yaml"].map String.toList, .file (.text "x: 2\n")),
    (["s"].map String.toList, .directory),
    (["s", "meta.json"].map String.toList,
      .file (.text (SnapshotStore.manifestOf 0 "t" listed).text)),
    (["s", "a.yaml"].map String.toList, .file (.text "x: 1\n")),
    (["s", "p.yaml"].map String.toList, .file (.text "z: 2\n")),
    (["s", "d"].map String.toList, .directory),
    (["s", "d", "b.yaml"].map String.toList, .file (.text "y: 1\n"))]
  workingDirectory := []

def workspace : Workspace := ⟨"/r", some "/r/a.yaml", Settings.standard⟩

def report : RestoreReport where
  safety := "/r/.hydra_backups/19700101_000000_pre_restore_backup"
  restored := ["d//./b.yaml", "a.yaml"].map String.toList
  skipped := ["../p.yaml", "/p.yaml", "d/../a.yaml", "", "."].map String.toList

def restored : FileTree := (workspace.restoreSnapshot 0 "/s" tree).2

end Workspace.Escaping

open Workspace.Escaping in
theorem Workspace.restoreSnapshot_confined_escaping :
    workspace.restoreSnapshot 0 "/s" tree = (.ok report, restored) ∧
      restored.read "/r/d/b.yaml" = .ok (.text "y: 1\n") ∧
      (∀ n, ¬ Inside (tree.spelled "/r") n → restored.at? n = tree.at? n) ∧
      ∀ n, ¬ tree.spelled workspace.snapshots.directory <+: n → restored.at? n ≠ tree.at? n →
        ∃ rel ∈ listed, workspace.snapshots.Explains tree restored rel n := by
  have hrestore : workspace.restoreSnapshot 0 "/s" tree = (.ok report, restored) :=
    Outcome.pair_of_fst (by decide +kernel)
  have hm : workspace.snapshots.readManifest tree "/s" =
      .ok (SnapshotStore.manifestOf 0 "t" listed) := by
    decide +kernel
  obtain ⟨hroot, hexplained, -⟩ := Workspace.restoreSnapshot_confined
    (FileTree.isTree_of_entries (by decide +kernel)) (by decide +kernel) (by decide +kernel)
    (by decide +kernel) hrestore
  refine ⟨hrestore, by decide +kernel, hroot, fun n hn hne => ?_⟩
  obtain ⟨m, -, hsame, rel, hrel, hexplains⟩ := hexplained n hn hne
  rw [hsame _ hm] at hrel
  exact ⟨rel, hrel, hexplains⟩

end LayeredConfig
