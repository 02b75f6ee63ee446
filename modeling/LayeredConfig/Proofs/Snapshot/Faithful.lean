import LayeredConfig.Proofs.Snapshot.RoundTrip

/-!
# Which copies are faithful

The copies of a snapshot and its manifest share one directory, and the manifest is written last. A
copy holds what its live file held, unless it has the place of the manifest: then it is the
manifest, which lists it all the same.
-/
namespace LayeredConfig

open LayeredConfig.Path (below confine? names? IsName)

namespace SnapshotStore

variable {s : SnapshotStore} {now : Int} {tag : Text} {sources : FileTree → List Path}
  {dir : Path} {t t₁ : FileTree}

/-- A listed path whose copy holds what the live file held. -/
def HoldsLive (s : SnapshotStore) (t t₁ : FileTree) (dir : Path) (rel : Text) : Prop :=
  ∃ p q c, confine? s.root rel = some p ∧ confine? dir rel = some q ∧
    t.at? (t.spelled p) = some (.file c) ∧ t₁.read q = .ok c

theorem holdsLive_of_names {rel : Text} {ns : List Text} {c c' : Content}
    (hns : names? rel = some ns) (hlive : t.at? (t.spelled s.root ++ ns) = some (.file c))
    (hcopy : t₁.read (below dir ns) = .ok c') : s.HoldsLive t t₁ dir rel ↔ c = c' := by
  have hspelled := FileTree.spelled_below t s.root (Path.isName_of_names? hns)
  constructor
  · rintro ⟨p, q, c'', hp, hq, hat, hread⟩
    obtain ⟨ns', hns', rfl⟩ := Path.confine?_eq_some.1 hp
    rw [hns] at hns'
    cases hns'
    obtain ⟨ns', hns', rfl⟩ := Path.confine?_eq_some.1 hq
    rw [hns] at hns'
    cases hns'
    rw [hspelled, hlive] at hat
    rw [hcopy] at hread
    cases hat
    cases hread
    rfl
  · rintro rfl
    exact ⟨_, _, c, Path.confine?_eq_some.2 ⟨ns, hns, rfl⟩, Path.confine?_eq_some.2 ⟨ns, hns, rfl⟩,
      by rw [hspelled, hlive], hcopy⟩

/-- A copy that is not at the place of the manifest holds what the live file held; the one that is
there holds the manifest. -/
theorem create_faithful (hname : IsName s.settings.manifestName) (ht : t.IsTree)
    (hsources : ∀ t, ∀ p ∈ sources t, t.isFile p = true)
    (h : s.create now sources tag t = (.ok dir, t₁)) :
    ∃ m : Manifest, t₁.readText (s.manifestPath dir) = .ok m.text ∧
      ∀ rel ∈ m.files, ∃ ns c, names? rel = some ns ∧
        t.at? (t.spelled s.root ++ ns) = some (.file c) ∧
        t₁.read (below dir ns) =
          .ok (if ns = [s.settings.manifestName] then .text m.text else c) := by
  obtain ⟨t₀, u, copied, hopened, -, hcollected, hwrite⟩ := create_collected ht hsources h
  have hop := opened_spec hopened
  have hread := FileTree.read_of_write hwrite
  refine ⟨manifestOf now tag copied, FileTree.readText_eq_ok.2 hread, fun rel hrel => ?_⟩
  obtain ⟨ns, c, hold⟩ := hcollected.holds rel hrel
  have hnames := Path.isName_of_names? hold.names
  refine ⟨ns, c, hold.names, ?_, ?_⟩
  · have hlive := hop.grows.file_before (fun h => h) hold.file
    rwa [hop.grows.spelled] at hlive
  · split
    · next heq =>
      rw [heq]
      exact hread
    · next hne =>
      obtain ⟨names, htarget, rfl⟩ := FileTree.write_eq_ok.1 hwrite
      have hwrites := (FileTree.writes_target htarget
        (.text (manifestOf now tag copied).text)).1
      have hplace : u.spelled (below dir ns) = u.spelled dir ++ ns :=
        FileTree.spelled_below u dir hnames
      have hcopy := FileTree.read_of_reaches
        (Path.named_below dir hnames (Path.names?_eq_some hold.names).2) hold.reaches (c := c) (by
          rw [hplace, hcollected.writes.spelled, hold.copy])
      refine hwrites.read (fun heq => hne ?_) hcopy
      rw [hplace, spelled_manifestPath hname] at heq
      exact List.append_cancel_left heq

end SnapshotStore

/-- **Which copies of a snapshot are faithful.** The manifest of a snapshot that has been taken
lists files that were there, and each copy holds what its live file held when the snapshot was
taken, except at the place of the manifest. A file that has its copy there is listed too, and its
copy is the manifest. -/
theorem Workspace.createSnapshot_faithful_iff {w : Workspace} {now : Int} {tag : Text} {dir : Path}
    {t t₁ : FileTree} (ht : t.IsTree) (hname : IsName w.settings.backups.manifestName)
    (hcreate : w.createSnapshot now tag t = (.ok dir, t₁)) :
    ∃ m : Manifest, t₁.readText (w.snapshots.manifestPath dir) = .ok m.text ∧
      (∀ m', w.snapshots.readManifest t₁ dir = .ok m' → m'.files = m.files) ∧
      ∀ rel ∈ m.files, (w.snapshots.HoldsLive t t₁ dir rel ↔
        (names? rel = some [w.settings.backups.manifestName] →
          t.at? (t.spelled w.root ++ [w.settings.backups.manifestName]) =
            some (.file (.text m.text)))) := by
  obtain ⟨m, hmanifest, hfiles⟩ :=
    SnapshotStore.create_faithful hname ht w.isFile_of_tracked hcreate
  refine ⟨m, hmanifest, fun m' hm' => ?_, fun rel hrel => ?_⟩
  · obtain ⟨text, htext, hread⟩ := SnapshotStore.readManifest_eq_ok.1 hm'
    rw [hmanifest] at htext
    cases htext
    exact (Manifest.read?_text hread).2
  · obtain ⟨ns, c, hns, hlive, hcopy⟩ := hfiles rel hrel
    rw [SnapshotStore.holdsLive_of_names hns hlive hcopy, hns]
    by_cases hplace : ns = [w.snapshots.settings.manifestName]
    · rw [if_pos hplace]
      subst hplace
      constructor
      · rintro rfl
        exact fun _ => hlive
      · intro h
        have hsame := hlive.symm.trans (h rfl)
        cases hsame
        rfl
    · rw [if_neg hplace]
      exact ⟨fun _ h => absurd (Option.some.inj h) hplace, fun _ => rfl⟩

namespace Workspace.Shadowed

/-- A root document, which can have the name of the manifest, and its module. -/
def tree (document : String) : FileTree where
  entries := [(["r"].map String.toList, .directory),
    (["r", document].map String.toList, .file (.text "defaults:\n  - db: mysql\n")),
    (["r", "db"].map String.toList, .directory),
    (["r", "db", "mysql.yaml"].map String.toList, .file (.text "host: a\n"))]
  workingDirectory := []

def workspace (document : Path) : Workspace := ⟨"/r", some document, Settings.standard⟩

def snapshot : Path := "/r/.hydra_backups/19700101_000000_t"

end Workspace.Shadowed

open Workspace.Shadowed in
theorem Workspace.createSnapshot_faithful_plain :
    ∃ t₁ m, (workspace "/r/c.yaml").createSnapshot 0 "t" (tree "c.yaml") = (.ok snapshot, t₁) ∧
      (workspace "/r/c.yaml").snapshots.readManifest t₁ snapshot = .ok m ∧
      m.files = ["c.yaml", "db/mysql.yaml"].map String.toList ∧
      ∀ rel ∈ m.files,
        (workspace "/r/c.yaml").snapshots.HoldsLive (tree "c.yaml") t₁ snapshot rel := by
  have hcreate := Outcome.pair_of_fst (show ((workspace "/r/c.yaml").createSnapshot 0 "t"
    (tree "c.yaml")).1 = .ok snapshot by decide +kernel)
  have hread : (workspace "/r/c.yaml").snapshots.readManifest
      ((workspace "/r/c.yaml").createSnapshot 0 "t" (tree "c.yaml")).2 snapshot =
      .ok ⟨"t", Manifest.timestampOf 0, ["c.yaml", "db/mysql.yaml"].map String.toList⟩ := by
    decide +kernel
  refine ⟨_, _, hcreate, hread, rfl, fun rel hrel => ?_⟩
  obtain ⟨m, -, hfiles, hfaithful⟩ := Workspace.createSnapshot_faithful_iff
    (FileTree.isTree_of_entries (by decide +kernel)) (by decide +kernel) hcreate
  have hplain : ∀ rel ∈ ["c.yaml", "db/mysql.yaml"].map String.toList,
      names? rel ≠ some ["meta.json".toList] := by
    decide +kernel
  refine (hfaithful rel ?_).2 fun heq => absurd heq (hplain rel hrel)
  rw [← hfiles _ hread]
  exact hrel

open Workspace.Shadowed in
/-- **A copy at the place of the manifest is lost.** The root document is listed with the manifest
in its place, and restoring the snapshot puts the manifest in place of the root document. -/
theorem Workspace.createSnapshot_not_faithful :
    ∃ t₁ m, (workspace "/r/meta.json").createSnapshot 0 "t" (tree "meta.json") =
        (.ok snapshot, t₁) ∧
      (workspace "/r/meta.json").snapshots.readManifest t₁ snapshot = .ok m ∧
      "meta.json".toList ∈ m.files ∧
      ¬ (workspace "/r/meta.json").snapshots.HoldsLive (tree "meta.json") t₁ snapshot "meta.json" ∧
      ((workspace "/r/meta.json").restoreSnapshot 1000000 snapshot t₁).2.read "/r/meta.json" =
        .ok (.text m.text) := by
  have hcreate := Outcome.pair_of_fst (show ((workspace "/r/meta.json").createSnapshot 0 "t"
    (tree "meta.json")).1 = .ok snapshot by decide +kernel)
  refine ⟨_, ⟨"t", Manifest.timestampOf 0, ["meta.json", "db/mysql.yaml"].map String.toList⟩,
    hcreate, by decide +kernel, by decide +kernel, ?_, by decide +kernel⟩
  have hlive : (tree "meta.json").at? ((tree "meta.json").spelled "/r" ++ ["meta.json".toList]) =
      some (.file (.text "defaults:\n  - db: mysql\n")) := by
    decide +kernel
  have hcopy : ((workspace "/r/meta.json").createSnapshot 0 "t" (tree "meta.json")).2.read
      (below snapshot ["meta.json".toList]) = .ok (.text (SnapshotStore.manifestOf 0 "t"
        (["meta.json", "db/mysql.yaml"].map String.toList)).text) := by
    decide +kernel
  rw [SnapshotStore.holdsLive_of_names (by decide +kernel) hlive hcopy]
  decide +kernel

end LayeredConfig
