import LayeredConfig.Proofs.Files.Directory
import LayeredConfig.Proofs.Snapshot.Confined

/-!
# Snapshots are found again

A new snapshot gets a name that no other one has, whatever its tag. It is listed once, beside all
snapshots that were listed before. That its timestamp can be read again is left to the reader of
JSON numbers.
-/
namespace LayeredConfig

open LayeredConfig.Path (join below names? relative? IsName)

/-- Entries with different names lie at different paths. -/
theorem Path.join_inj {p : Path} {a b : Text} (ha : IsName a) (hb : IsName b)
    (h : join p a = join p b) : a = b := by
  simp only [join, isAbsolute_of_isName ha, isAbsolute_of_isName hb, Bool.false_eq_true,
    if_false] at h
  split at h
  · exact List.append_cancel_left h
  · exact (List.cons.inj (List.append_cancel_left h)).2

namespace FileTree

/-- A tree whose names can all stand in a path. -/
structure IsNamed (t : FileTree) : Prop where
  entry : ∀ n, t.at? n ≠ none → ∀ s ∈ n, IsName s
  workingDirectory : ∀ s ∈ t.workingDirectory, IsName s

/-- It is enough to look at the entries. -/
theorem isNamed_of_entries {t : FileTree} (h : ∀ x ∈ t.entries, ∀ s ∈ x.1, IsName s)
    (hwd : ∀ s ∈ t.workingDirectory, IsName s) : t.IsNamed := by
  refine ⟨fun n hn => ?_, hwd⟩
  by_cases hnil : n = []
  · rw [hnil]
    exact fun _ hs => nomatch hs
  · obtain ⟨x, hx, rfl⟩ := List.mem_map.1 ((mem_keys_iff hnil).2 hn)
    exact h x hx

theorem isName_of_mem_stepInto {n : Names} {c : Component} (hn : ∀ s ∈ n, IsName s)
    (hc : Path.IsStep c) :
    ∀ s ∈ stepInto n c, IsName s := by
  cases c with
  | root => exact hn
  | current => exact hn
  | parent => exact fun s hs => hn s (List.mem_of_mem_dropLast hs)
  | name s => exact List.forall_mem_append.2 ⟨hn, List.forall_mem_singleton.2 hc⟩

/-- A path passes names. -/
theorem IsNamed.passes {t : FileTree} (h : t.IsNamed) {p : Path} {n : Names} (hn : t.Passes p n) :
    ∀ s ∈ n, IsName s := by
  obtain ⟨front, hfront, rfl⟩ := hn
  refine List.foldlRecOn (motive := fun n : Names => ∀ s ∈ n, IsName s) front stepInto ?_ ?_
  · unfold start
    split
    · exact fun _ hs => nomatch hs
    · exact h.workingDirectory
  · exact fun n hn c hc => isName_of_mem_stepInto hn
      (Path.isStep_of_mem_steps (hfront.subset hc))

theorem Writes.isDirectory {N : Names → Prop} {t t' : FileTree} (h : Writes N t t') {p : Path}
    (hp : t.isDirectory p = true) : t'.isDirectory p = true :=
  isDirectory_along h.workingDirectory (fun n _ => h.directory n) hp

end FileTree

namespace SnapshotStore

variable {s : SnapshotStore} {now : Int} {tag : Text} {sources : FileTree → List Path}
  {dir : Path} {t t₀ t₁ : FileTree}

theorem listed?_eq_some {e : SnapshotEntry} : s.listed? t dir = some e ↔
    t.isDirectory dir = true ∧ s.readManifest t dir = .ok e.manifest ∧ e.path = dir := by
  unfold listed?
  cases hdir : t.isDirectory dir with
  | false => simp
  | true =>
    cases hm : s.readManifest t dir with
    | error fault => simp [Except.toOption]
    | ok m =>
      obtain ⟨manifest, path⟩ := e
      simp [Except.toOption, eq_comm]

theorem list_of_isDirectory (h : t.isDirectory s.directory = true) :
    s.list t = ((t.children (t.spelled s.directory)).filterMap fun name =>
      s.listed? t (join s.directory name)).mergeSort isNewer := by
  rw [list, FileTree.list_eq_ok.2 ⟨h, rfl⟩]

/-- What is listed: the directories right in the backup directory that have a valid manifest. -/
theorem mem_list_iff {e : SnapshotEntry} : e ∈ s.list t ↔
    t.isDirectory s.directory = true ∧ ∃ name, t.at? (t.spelled s.directory ++ [name]) ≠ none ∧
      s.listed? t (join s.directory name) = some e := by
  by_cases hdir : t.isDirectory s.directory = true
  · simp only [list_of_isDirectory hdir, List.mem_mergeSort, List.mem_filterMap,
      FileTree.mem_children_iff, hdir, true_and]
  · unfold list
    cases hlist : t.list s.directory with
    | error fault => simp [hdir]
    | ok names => exact absurd (FileTree.list_eq_ok.1 hlist).1 hdir

theorem pairwise_list (s : SnapshotStore) (t : FileTree) :
    (s.list t).Pairwise fun a b => b.manifest.timestamp.rank ≤ a.manifest.timestamp.rank := by
  unfold list
  split
  · exact .nil
  · refine (List.pairwise_mergeSort ?_ ?_ _).imp fun h => of_decide_eq_true h
    · intro a b c hab hbc
      simp only [decide_eq_true_eq] at hab hbc ⊢
      omega
    · intro a b
      simp only [Bool.or_eq_true, decide_eq_true_eq]
      omega

/-- An entry that is there once is listed once. -/
theorem filter_list {name : Text} {e : SnapshotEntry} (hdir : t.isDirectory s.directory = true)
    (hname : IsName name) (hnames : ∀ other ∈ t.children (t.spelled s.directory), IsName other)
    (honce : (t.children (t.spelled s.directory)).count name = 1)
    (he : s.listed? t (join s.directory name) = some e) :
    (s.list t).filter (·.path = join s.directory name) = [e] := by
  have hone : (t.children (t.spelled s.directory)).filter (· == name) = [name] := by
    rw [List.filter_beq, honce]
    rfl
  refine List.perm_singleton.1 ?_
  rw [list_of_isDirectory hdir]
  refine ((List.mergeSort_perm _ _).filter _).trans (.of_eq ?_)
  calc
    _ = ((t.children (t.spelled s.directory)).filter (· == name)).filterMap fun name =>
          s.listed? t (join s.directory name) := by
      rw [List.filter_filterMap, List.filterMap_filter]
      refine List.filterMap_congr fun other hother => ?_
      cases hlisted : s.listed? t (join s.directory other) with
      | none => simp
      | some e' =>
        obtain ⟨-, -, hpath⟩ := listed?_eq_some.1 hlisted
        by_cases hsame : other = name
        · subst hsame
          simp [Option.filter, hpath]
        · have hne : join s.directory other ≠ join s.directory name := fun h =>
            hsame (Path.join_inj (hnames other hother) hname h)
          simp [Option.filter, hpath, hne, hsame]
    _ = [e] := by
      rw [hone]
      exact List.filterMap_cons_some he

theorem addsOnce_collect (s : SnapshotStore) (dir : Path) (state : FileTree × List Text)
    (source : Path) :
    FileTree.AddsOnce state.1 (s.collect dir state source).1 := by
  rcases hstate : s.collect dir state source with ⟨t', copied'⟩
  rcases collect_cases hstate with ⟨rfl, -, -⟩ | ⟨rel, ns, -, -, -, hcopy⟩
  · exact .refl _
  have hadds := FileTree.addsOnce_copyInto state.1 source (below dir ns)
  rcases hcopy with ⟨hcopy, -⟩ | ⟨fault, hcopy, -⟩
  · rwa [hcopy] at hadds
  · rwa [hcopy] at hadds

theorem addsOnce_foldl_collect (s : SnapshotStore) (dir : Path) (ps : List Path)
    (state : FileTree × List Text) :
    FileTree.AddsOnce state.1 (ps.foldl (s.collect dir) state).1 := by
  induction ps generalizing state with
  | nil => exact .refl _
  | cons p ps ih => exact (addsOnce_collect s dir state p).trans (ih _)

/-- Taking a snapshot adds nothing twice. -/
theorem addsOnce_create (hdir : IsName s.settings.dirName)
    (h : s.create now sources tag t = (.ok dir, t₁)) : FileTree.AddsOnce t t₁ := by
  obtain ⟨t₀, t', copied, hopened, hloop, hwrite⟩ := create_eq_ok h
  obtain ⟨u, hu, -, hmade⟩ := opened_way hdir hopened
  obtain ⟨-, -, -, rfl⟩ := FileTree.createDirectory_eq_ok hmade
  obtain ⟨names, -, rfl⟩ := FileTree.write_eq_ok.1 hwrite
  have hway := FileTree.addsOnce_ensureDirectory t s.directory
  have hcollect := addsOnce_foldl_collect s dir (sources (u.put (u.spelled dir) .directory))
    (u.put (u.spelled dir) .directory, [])
  rw [hu] at hway
  rw [hloop] at hcollect
  exact ((hway.trans (FileTree.addsOnce_put _ _ _)).trans hcollect).trans
    (FileTree.addsOnce_put _ _ _)

/-- A file that has a place in a snapshot, at a path below the root. -/
def HasPlace (s : SnapshotStore) (dir source : Path) (rel : Text) : Prop :=
  ∃ ns, relative? s.root source = some rel ∧ names? rel = some ns ∧ FileTree.Fits (below dir ns)

theorem hasPlace_of_mem_copied {ps : List Path} {rel : Text}
    (h : rel ∈ (ps.foldl (s.collect dir) (t, [])).2) :
    ∃ source ∈ ps, s.HasPlace dir source rel := by
  refine List.foldlRecOn (motive := fun state : FileTree × List Text =>
    ∀ rel ∈ state.2, ∃ source ∈ ps, s.HasPlace dir source rel) ps (s.collect dir) ?_ ?_ rel h
  · exact fun _ h => nomatch h
  intro state ih source hsource
  rcases hstate : s.collect dir state source with ⟨t', copied'⟩
  rcases collect_cases hstate with
    ⟨-, rfl, -⟩ | ⟨rel, ns, hrel, hns, -, ⟨hcopy, rfl⟩ | ⟨fault, -, rfl⟩⟩
  · exact ih
  · obtain ⟨-, -, hreach, -⟩ := FileTree.copyInto_eq_ok hcopy
    refine List.forall_mem_append.2 ⟨ih, List.forall_mem_singleton.2 ?_⟩
    exact ⟨source, hsource, ns, hrel, hns, hreach.fits⟩
  · exact ih

/-- The files that are copied are those that have a place in the snapshot. -/
theorem mem_copied_iff (hready : Ready s dir t₀) {ps : List Path}
    (hfiles : ∀ p ∈ ps, t₀.isFile p = true) {rel : Text} :
    rel ∈ (ps.foldl (s.collect dir) (t₀, [])).2 ↔ ∃ source ∈ ps, s.HasPlace dir source rel :=
  ⟨hasPlace_of_mem_copied, fun ⟨_, hsource, _, hrel, hns, hfits⟩ =>
    mem_copied hready hfiles hsource hrel hns hfits⟩

/-- Whatever is right in the backup directory when a snapshot has been taken has a name. -/
theorem Added.isName (hnamed : t.IsNamed) (h : s.Added t t₁) {name : Text}
    (hname : t₁.at? (t.spelled s.directory ++ [name]) ≠ none) : IsName name := by
  rcases h.entry (t.spelled s.directory ++ [name])
    with hsame | ⟨-, ⟨-, hpass⟩ | ⟨new, hnew, -, hbelow⟩⟩
  · rw [hsame] at hname
    exact hnamed.entry _ hname name (by simp)
  · exact hnamed.passes hpass name (by simp)
  · obtain ⟨rest, hrest⟩ := hbelow
    rw [List.append_assoc, List.append_right_inj, List.singleton_append] at hrest
    rwa [← (List.cons.inj hrest).1]

/-- A snapshot that has been listed is listed after another one has been taken. -/
theorem Added.mem_list (h : s.Added t t₁) {e : SnapshotEntry} (he : e ∈ s.list t) :
    e ∈ s.list t₁ := by
  obtain ⟨hdir, name, hname, hlisted⟩ := mem_list_iff.1 he
  obtain ⟨hsub, hm, hpath⟩ := listed?_eq_some.1 hlisted
  refine mem_list_iff.2 ⟨h.isDirectory hdir, name, ?_,
    listed?_eq_some.2 ⟨h.isDirectory hsub, h.readManifest hm, hpath⟩⟩
  rw [FileTree.spelled_eq h.workingDirectory]
  cases hat : t.at? (t.spelled s.directory ++ [name]) with
  | none => exact absurd hat hname
  | some entry =>
    rw [h.kept hat]
    exact Option.some_ne_none _

/-- The directory of a new snapshot is there, and so is the one that holds it. -/
theorem isDirectory_of_opened (hdir : IsName s.settings.dirName)
    (h : s.opened now tag t = .ok (dir, t₀)) :
    t₀.isDirectory s.directory = true ∧ t₀.isDirectory dir = true := by
  obtain ⟨u, -, hthere, hmade⟩ := opened_way hdir h
  exact ⟨(FileTree.grows_createDirectory hmade).isDirectory hthere,
    FileTree.isDirectory_of_createDirectory hmade⟩

/-- A new snapshot is listed with what has been written for it. -/
theorem Taken.listed? (hdir : IsName s.settings.dirName) {timestamp : Double} {copied : List Text}
    (hopened : s.opened now tag t = .ok (dir, t₀)) (h : Taken s now tag t t₀ t₁ dir copied)
    (hreread : Manifest.reread? (Manifest.timestampOf now) = some timestamp) :
    s.listed? t₁ dir = some ⟨⟨tag, timestamp, copied⟩, dir⟩ := by
  refine listed?_eq_some.2 ⟨h.writes.isDirectory (isDirectory_of_opened hdir hopened).2, ?_, rfl⟩
  exact readManifest_eq_ok.2 ⟨_, h.manifest, Manifest.read?_of_reread? hreread⟩

/-- A new snapshot is listed once. -/
theorem Taken.filter_list (hdir : IsName s.settings.dirName) (hnamed : t.IsNamed)
    (hadded : s.Added t t₁) (honce : FileTree.AddsOnce t t₁)
    {timestamp : Double} {copied : List Text}
    (hopened : s.opened now tag t = .ok (dir, t₀)) (h : Taken s now tag t t₀ t₁ dir copied)
    (hreread : Manifest.reread? (Manifest.timestampOf now) = some timestamp) :
    (s.list t₁).filter (·.path = dir) = [⟨⟨tag, timestamp, copied⟩, dir⟩] := by
  have hlisted := h.listed? hdir hopened hreread
  have hthere := h.writes.isDirectory (isDirectory_of_opened hdir hopened).1
  have hspelled := FileTree.spelled_eq hadded.workingDirectory s.directory
  have hnew := h.writes.directory _ ((h.opened.grows.spelled dir).symm ▸ h.opened.directory)
  have hunused := h.opened.unused
  rw [h.opened.grows.spelled] at hnew
  obtain ⟨name, hname, rfl⟩ := h.opened.place
  rw [FileTree.spelled_join t s.directory hname] at hnew hunused
  refine SnapshotStore.filter_list hthere hname (fun other hother => ?_) ?_ hlisted
  · rw [hspelled, FileTree.mem_children_iff] at hother
    exact hadded.isName hnamed hother
  · rw [hspelled]
    exact honce.count_children hunused (by simp [hnew])

end SnapshotStore

/-- **A snapshot that has been taken is found again**, whatever its tag. It lies right in the backup
directory, where nothing was before. It is listed once, with its tag and the files that were copied,
each of them once; what was listed before is still listed, and the newest comes first. The timestamp
in the listing is what the reader of JSON numbers takes the written one for. -/
theorem Workspace.createSnapshot_listed {w : Workspace} {now : Int} {tag : Text} {snapshot : Path}
    {t t₁ : FileTree} {timestamp : Double} (ht : t.IsTree) (hnamed : t.IsNamed)
    (hdir : IsName w.settings.backups.dirName) (hname : IsName w.settings.backups.manifestName)
    (hreread : Manifest.reread? (Manifest.timestampOf now) = some timestamp)
    (hcreate : w.createSnapshot now tag t = (.ok snapshot, t₁)) :
    (∃ name, IsName name ∧ snapshot = join w.snapshots.directory name) ∧
      t.at? (t.spelled snapshot) = none ∧
      (∃ t₀ copied, w.snapshots.opened now tag t = .ok (snapshot, t₀) ∧ copied.Nodup ∧
        (∀ rel, rel ∈ copied ↔ ∃ source ∈ w.tracked t₀, w.snapshots.HasPlace snapshot source rel) ∧
        (w.snapshots.list t₁).filter (·.path = snapshot) = [⟨⟨tag, timestamp, copied⟩, snapshot⟩]) ∧
      (∀ e ∈ w.snapshots.list t, e ∈ w.snapshots.list t₁) ∧
      (w.snapshots.list t₁).Pairwise fun a b =>
        b.manifest.timestamp.rank ≤ a.manifest.timestamp.rank := by
  obtain ⟨t₀, hopened, htaken⟩ := SnapshotStore.create_taken ht w.isFile_of_tracked hcreate
  have hadded := SnapshotStore.added_create hdir hname ht hcreate
  have honce := SnapshotStore.addsOnce_create hdir hcreate
  exact ⟨htaken.opened.place, htaken.opened.unused,
    ⟨t₀, _, hopened, htaken.nodup, fun rel => SnapshotStore.mem_copied_iff (htaken.opened.ready ht)
      (w.isFile_of_tracked t₀), htaken.filter_list hdir hnamed hadded honce hopened hreread⟩,
    fun e he => hadded.mem_list he, w.snapshots.pairwise_list t₁⟩

namespace Workspace.Colliding

def now : Int := 1234567890123456

/-- The manifest of a snapshot of the same second whose tag gives the same name. -/
def older : Manifest := SnapshotStore.manifestOf now "?a?" []

def tree : FileTree where
  entries := [(["r"].map String.toList, .directory),
    (["r", "c.yaml"].map String.toList, .file (.text "defaults:\n  - g: m\n")),
    (["r", "g"].map String.toList, .directory),
    (["r", "g", "m.yaml"].map String.toList, .file (.text "x: 1\n")),
    (["r", ".hydra_backups"].map String.toList, .directory),
    (["r", ".hydra_backups", "other"].map String.toList, .directory),
    (["r", ".hydra_backups", "20090213_233130__a_"].map String.toList, .directory),
    (["r", ".hydra_backups", "20090213_233130__a_", "meta.json"].map String.toList,
      .file (.text older.text))]
  workingDirectory := []

def workspace : Workspace := ⟨"/r", some "/r/c.yaml", Settings.standard⟩

def tag : Text := "../a\n."

def snapshot : Path := "/r/.hydra_backups/20090213_233130__a__1"

def taken : FileTree := (workspace.createSnapshot now tag tree).2

end Workspace.Colliding

open Workspace.Colliding in
theorem Workspace.createSnapshot_listed_colliding :
    workspace.createSnapshot now tag tree = (.ok snapshot, taken) ∧
      tree.at? (tree.spelled snapshot) = none ∧
      (∃ copied, copied.Nodup ∧ (workspace.snapshots.list taken).filter (·.path = snapshot) =
        [⟨⟨tag, Manifest.timestampOf now, copied⟩, snapshot⟩]) ∧
      ⟨older, "/r/.hydra_backups/20090213_233130__a_"⟩ ∈ workspace.snapshots.list taken := by
  have hcreate : workspace.createSnapshot now tag tree = (.ok snapshot, taken) :=
    Outcome.pair_of_fst (by decide +kernel)
  have hlisted : ⟨older, "/r/.hydra_backups/20090213_233130__a_"⟩ ∈ workspace.snapshots.list tree :=
    SnapshotStore.mem_list_iff.2
      ⟨by decide +kernel, "20090213_233130__a_", by decide +kernel, by decide +kernel⟩
  have hreread : Manifest.reread? (Manifest.timestampOf now) = some (Manifest.timestampOf now) := by
    decide +kernel
  obtain ⟨-, hunused, ⟨t₀, copied, -, hnodup, -, hnew⟩, hkept, -⟩ :=
    Workspace.createSnapshot_listed (FileTree.isTree_of_entries (by decide +kernel))
      (FileTree.isNamed_of_entries (by decide +kernel) (by decide +kernel)) (by decide +kernel)
      (by decide +kernel) hreread hcreate
  exact ⟨hcreate, hunused, ⟨copied, hnodup, hnew⟩, hkept _ hlisted⟩

end LayeredConfig
