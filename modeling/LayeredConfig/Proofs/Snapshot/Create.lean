import LayeredConfig.Proofs.Files.Copy
import LayeredConfig.Proofs.Snapshot.Name

/-!
# Taking snapshots

A snapshot goes to a directory that was not there before, and nothing outside it is written. What
its manifest lists has a copy in it, each holding what the file held at that time.
-/
namespace LayeredConfig

open LayeredConfig.Path (join below confine? names? relative? IsName Named)

namespace SnapshotStore

variable {s : SnapshotStore} {now : Int} {tag : Text} {sources : FileTree → List Path}
  {dir : Path} {t t₀ t₁ : FileTree}

/-- The directory of a new snapshot, and the tree in which it is asked what to copy. -/
def opened (s : SnapshotStore) (now : Int) (tag : Text) (t : FileTree) :
    Except SnapshotError (Path × FileTree) :=
  match t.ensureDirectory s.directory with
  | (.error fault, _) => .error (.io s.directory fault)
  | (.ok (), t) => s.reserve (baseName now tag) t (t.entries.length + 1) 0

/-- The manifest of files that have been copied. -/
def manifestOf (now : Int) (tag : Text) (copied : List Text) : Manifest :=
  ⟨tag, Manifest.timestampOf now, copied⟩

theorem create_eq_ok (h : s.create now sources tag t = (.ok dir, t₁)) :
    ∃ t₀ t' copied, s.opened now tag t = .ok (dir, t₀) ∧
      (sources t₀).foldl (s.collect dir) (t₀, []) = (t', copied) ∧
      t'.write (s.manifestPath dir) (.text (manifestOf now tag copied).text) = .ok t₁ := by
  unfold create at h
  unfold opened
  rcases hu : t.ensureDirectory s.directory with ⟨fault | _, u⟩
  · rw [hu] at h
    cases h
  rw [hu] at h
  simp only at h ⊢
  rw [← baseName] at h
  cases hreserve : s.reserve (baseName now tag) u (u.entries.length + 1) 0 with
  | error e =>
    rw [hreserve] at h
    cases h
  | ok r =>
    obtain ⟨dir', t₀⟩ := r
    rw [hreserve] at h
    simp only at h
    rcases hloop : (sources t₀).foldl (s.collect dir') (t₀, []) with ⟨t', copied⟩
    rw [hloop] at h
    simp only at h
    rw [← manifestOf] at h
    cases hwrite : t'.write (s.manifestPath dir') (.text (manifestOf now tag copied).text) with
    | error fault =>
      rw [hwrite] at h
      cases h
    | ok t'' =>
      rw [hwrite] at h
      cases h
      exact ⟨t₀, t', copied, rfl, hloop, hwrite⟩

theorem reserve_eq_ok {base : Text} {fuel attempt : Nat}
    (h : s.reserve base t fuel attempt = .ok (dir, t₀)) :
    ∃ n, dir = join s.directory (attemptName base n) ∧ t.createDirectory dir = .ok t₀ := by
  induction fuel generalizing attempt with
  | zero => cases h
  | succ fuel ih =>
    rw [reserve] at h
    cases hmade : t.createDirectory (join s.directory (attemptName base attempt)) with
    | ok u =>
      simp only [hmade] at h
      cases h
      exact ⟨attempt, rfl, hmade⟩
    | error fault =>
      cases fault with
      | «exists» =>
        simp only [hmade] at h
        exact ih h
      | _ =>
        simp only [hmade] at h
        cases h

/-- What lies strictly below names. -/
def Inside (names : Names) (n : Names) : Prop := ∃ ns, ns ≠ [] ∧ n = names ++ ns

/-- A directory that has just been made for a snapshot. -/
structure Opened (s : SnapshotStore) (t t₀ : FileTree) (dir : Path) : Prop where
  place : ∃ name, IsName name ∧ dir = join s.directory name
  grows : t.Grows t₀
  unused : t.at? (t.spelled dir) = none
  reaches : t₀.Reaches dir
  directory : t₀.at? (t.spelled dir) = some .directory
  nothing : t.IsTree → ∀ n, Inside (t.spelled dir) n → t₀.at? n = none

theorem opened_spec (h : s.opened now tag t = .ok (dir, t₀)) : Opened s t t₀ dir := by
  unfold opened at h
  have hgrows := FileTree.grows_ensureDirectory t s.directory
  rcases hu : t.ensureDirectory s.directory with ⟨fault | _, u⟩
  · rw [hu] at h
    cases h
  rw [hu] at h hgrows
  obtain ⟨n, hdir, hmade⟩ := reserve_eq_ok h
  obtain ⟨hreach, hnone, -, rfl⟩ := FileTree.createDirectory_eq_ok hmade
  have hgrows' := FileTree.grows_createDirectory hmade
  rw [hgrows.spelled dir] at hnone
  have hne : t.spelled dir ≠ [] := by
    intro h
    rw [h, FileTree.at?_nil] at hnone
    cases hnone
  refine ⟨⟨_, isName_attemptName now tag n, hdir⟩, hgrows.trans hgrows', ?_,
    hgrows'.reaches hreach, ?_, ?_⟩
  · cases he : t.at? (t.spelled dir) with
    | none => rfl
    | some e =>
      cases e with
      | directory =>
        rw [hgrows.directory _ he] at hnone
        cases hnone
      | file c =>
        rw [hgrows.file _ c (fun h => h) he] at hnone
        cases hnone
  · rw [hgrows.spelled dir, FileTree.at?_put u hne, if_pos rfl]
  · rintro ht n ⟨ns, hns, rfl⟩
    rw [hgrows.spelled dir, FileTree.at?_put u hne, if_neg (by simpa using hns)]
    exact (hgrows.isTree ht).nothing_below hnone ns

/-- What becomes of a file: it is passed over, unless it is to be copied for the first time and
its copy has a place inside the directory; then it is copied or not. -/
theorem collect_cases {copied copied' : List Text} {t' : FileTree} {source : Path}
    (h : s.collect dir (t, copied) source = (t', copied')) :
    (t' = t ∧ copied' = copied ∧ ∀ rel ns, relative? s.root source = some rel →
        names? rel = some ns → rel ∈ copied) ∨
      ∃ rel ns, relative? s.root source = some rel ∧ names? rel = some ns ∧ rel ∉ copied ∧
        ((t.copyInto source (below dir ns) = (.ok (), t') ∧ copied' = copied ++ [rel]) ∨
          ∃ fault, t.copyInto source (below dir ns) = (.error fault, t') ∧ copied' = copied) := by
  unfold collect at h
  cases hrel : relative? s.root source with
  | none =>
    rw [hrel] at h
    cases h
    refine Or.inl ⟨rfl, rfl, fun rel ns hrel' => ?_⟩
    cases hrel'
  | some rel =>
    rw [hrel] at h
    simp only at h
    split at h
    · next hmem =>
      cases h
      refine Or.inl ⟨rfl, rfl, fun rel' ns hrel' _ => ?_⟩
      cases hrel'
      exact List.contains_iff_mem.1 hmem
    next hmem =>
      have hmem : rel ∉ copied := fun hin => hmem (List.contains_iff_mem.2 hin)
      cases hdest : confine? dir rel with
      | none =>
        rw [hdest] at h
        cases h
        refine Or.inl ⟨rfl, rfl, fun rel' ns hrel' hns => ?_⟩
        cases hrel'
        rw [Path.confine?_eq_some.2 ⟨ns, hns, rfl⟩] at hdest
        cases hdest
      | some dest =>
        obtain ⟨ns, hns, rfl⟩ := Path.confine?_eq_some.1 hdest
        rw [hdest] at h
        simp only at h
        refine Or.inr ⟨rel, ns, rfl, hns, hmem, ?_⟩
        rcases hcopy : t.copyInto source (below dir ns) with ⟨fault | _, u⟩
        · rw [hcopy] at h
          cases h
          exact Or.inr ⟨fault, rfl, rfl⟩
        · rw [hcopy] at h
          cases h
          exact Or.inl ⟨rfl, rfl⟩

/-- Whatever comes of it, a copy goes to a place inside the directory. -/
theorem writes_collect (s : SnapshotStore) (dir : Path) (state : FileTree × List Text)
    (source : Path) :
    FileTree.Writes (Inside (state.1.spelled dir)) state.1 (s.collect dir state source).1 := by
  rcases hstate : s.collect dir state source with ⟨t', copied'⟩
  rcases collect_cases hstate with ⟨rfl, -, -⟩ | ⟨rel, ns, -, hns, -, hcopy⟩
  · exact FileTree.Writes.refl _ _
  have hwrites := (state.1.writes_copyInto source (below dir ns)).mono
    (M := Inside (state.1.spelled dir)) fun n hn => ⟨ns, (Path.names?_eq_some hns).2, by
      rw [hn, FileTree.spelled_below _ _ (Path.isName_of_names? hns)]⟩
  rcases hcopy with ⟨hcopy, -⟩ | ⟨fault, hcopy, -⟩
  · rwa [hcopy] at hwrites
  · rwa [hcopy] at hwrites

theorem writes_foldl_collect (s : SnapshotStore) (dir : Path) (ps : List Path)
    (t : FileTree) (copied : List Text) :
    FileTree.Writes (Inside (t.spelled dir)) t (ps.foldl (s.collect dir) (t, copied)).1 := by
  induction ps generalizing t copied with
  | nil => exact FileTree.Writes.refl _ _
  | cons p ps ih =>
    have hfirst := writes_collect s dir (t, copied) p
    rcases hstate : s.collect dir (t, copied) p with ⟨u, copied'⟩
    rw [hstate] at hfirst
    have hrest := ih u copied'
    rw [hfirst.spelled dir] at hrest
    rw [List.foldl_cons, hstate]
    exact hfirst.trans hrest

/-- What is written for a snapshot: what lies in its directory, and the manifest. -/
def Touched (s : SnapshotStore) (t : FileTree) (dir : Path) (n : Names) : Prop :=
  Inside (t.spelled dir) n ∨ n = t.spelled (s.manifestPath dir)

theorem spelled_manifestPath (hname : IsName s.settings.manifestName) (t : FileTree)
    (dir : Path) : t.spelled (s.manifestPath dir) = t.spelled dir ++ [s.settings.manifestName] :=
  FileTree.spelled_join t dir hname

/-- A manifest with a plain name lies in the directory of its snapshot. -/
theorem Touched.inside (hname : IsName s.settings.manifestName) {n : Names}
    (h : Touched s t dir n) : Inside (t.spelled dir) n := by
  rcases h with h | h
  · exact h
  · exact ⟨[s.settings.manifestName], by simp, h.trans (spelled_manifestPath hname t dir)⟩

/-- **Nothing outside its own directory is written for a snapshot**, but for its manifest. -/
theorem create_writes (h : s.create now sources tag t = (.ok dir, t₁)) :
    ∃ t₀, Opened s t t₀ dir ∧ FileTree.Writes (Touched s t dir) t t₁ := by
  obtain ⟨t₀, t', copied, hopened, hloop, hwrite⟩ := create_eq_ok h
  have hop := opened_spec hopened
  have hcollect := writes_foldl_collect s dir (sources t₀) t₀ []
  rw [hloop, hop.grows.spelled dir] at hcollect
  obtain ⟨names, htarget, rfl⟩ := FileTree.write_eq_ok.1 hwrite
  have hmanifest := (FileTree.writes_target htarget
    (.text (manifestOf now tag copied).text)).1
  rw [hcollect.spelled, hop.grows.spelled] at hmanifest
  refine ⟨t₀, hop, (hop.grows.mono fun _ h => h.elim).trans ?_⟩
  exact (hcollect.mono fun _ h => Or.inl h).trans (hmanifest.mono fun _ h => Or.inr h)

/-- A file whose content in `t₀` has a copy in `t`, in a snapshot's directory. -/
structure Holds (s : SnapshotStore) (dir : Path) (t₀ t : FileTree) (rel : Text) (ns : List Text)
    (c : Content) : Prop where
  names : names? rel = some ns
  file : t₀.at? (t₀.spelled s.root ++ ns) = some (.file c)
  live : FileTree.Fits (below s.root ns) → t₀.Reaches (below s.root ns)
  reaches : t.Reaches (below dir ns)
  copy : t.at? (t₀.spelled dir ++ ns) = some (.file c)

/-- Copies stay while their files are not written. -/
theorem Holds.mono {t' : FileTree} {N : Names → Prop} {rel : Text} {ns : List Text} {c : Content}
    (h : Holds s dir t₀ t rel ns c) (hw : FileTree.Writes N t t')
    (hN : ¬ N (t₀.spelled dir ++ ns)) : Holds s dir t₀ t' rel ns c :=
  ⟨h.names, h.file, h.live, hw.reaches h.reaches, hw.file _ c hN h.copy⟩

/-- A copy stays when a file is copied to its place, as only the same file has its copy there. -/
theorem Holds.overwritten {t' : FileTree} {rel : Text} {ns ns' : List Text} {c c' : Content}
    (h : Holds s dir t₀ t rel ns' c') (hw : FileTree.Writes (· = t₀.spelled dir ++ ns) t t')
    (hreach : t'.Reaches (below dir ns)) (hcopy : t'.at? (t₀.spelled dir ++ ns) = some (.file c))
    (hfile : t₀.at? (t₀.spelled s.root ++ ns) = some (.file c)) :
    Holds s dir t₀ t' rel ns' c' := by
  by_cases hsame : ns' = ns
  · subst hsame
    have hboth := h.file
    rw [hfile] at hboth
    cases hboth
    exact ⟨h.names, h.file, h.live, hreach, hcopy⟩
  · exact h.mono hw fun heq => hsame (List.append_cancel_left heq)

/-- A copy that is made in the directory holds what the file held at first. -/
theorem copied_into {t' : FileTree} {source : Path} {ns : List Text} {c : Content}
    (hwrites : FileTree.Writes (Inside (t₀.spelled dir)) t₀ t) (hnames : ∀ s ∈ ns, IsName s)
    (hspelled : t₀.spelled source = t₀.spelled s.root ++ ns)
    (hfile : t₀.at? (t₀.spelled s.root ++ ns) = some (.file c))
    (hout : ¬ t₀.spelled dir <+: t₀.spelled s.root ++ ns)
    (hcopy : t.copyInto source (below dir ns) = (.ok (), t')) :
    t'.Reaches (below dir ns) ∧ t'.at? (t₀.spelled dir ++ ns) = some (.file c) := by
  obtain ⟨c', hc', hreach, hcopied⟩ := FileTree.copyInto_eq_ok hcopy
  rw [FileTree.spelled_below _ _ hnames, hwrites.spelled, hwrites.spelled, hspelled] at hcopied
  rw [hwrites.spelled, hspelled] at hc'
  have hsame := hwrites.file_before (fun ⟨rest, _, hin⟩ => hout ⟨rest, hin.symm⟩) hc'
  rw [hfile] at hsame
  cases hsame
  exact ⟨hreach, hcopied fun heq => hout ⟨ns, heq.symm⟩⟩

/-- The state of a collection: everything noted has been copied, and only once. -/
structure Collected (s : SnapshotStore) (dir : Path) (t₀ : FileTree)
    (state : FileTree × List Text) : Prop where
  writes : FileTree.Writes (Inside (t₀.spelled dir)) t₀ state.1
  nodup : state.2.Nodup
  holds : ∀ rel ∈ state.2, ∃ ns c, Holds s dir t₀ state.1 rel ns c

/-- No file lies in a directory that is new. -/
theorem not_inside_of_file (hdir : t₀.at? (t₀.spelled dir) = some .directory)
    (hfresh : ∀ n, Inside (t₀.spelled dir) n → t₀.at? n = none) {ns : Names} {c : Content}
    (h : t₀.at? ns = some (.file c)) : ¬ t₀.spelled dir <+: ns := by
  rintro ⟨rest, rfl⟩
  by_cases hrest : rest = []
  · rw [hrest, List.append_nil, hdir] at h
    cases h
  · rw [hfresh _ ⟨rest, hrest, rfl⟩] at h
    cases h

/-- One more file keeps what has been collected. -/
theorem Collected.collect (hdir : t₀.at? (t₀.spelled dir) = some .directory)
    (hfresh : ∀ n, Inside (t₀.spelled dir) n → t₀.at? n = none)
    {state : FileTree × List Text} (h : Collected s dir t₀ state) {source : Path}
    (hsource : t₀.isFile source = true) :
    Collected s dir t₀ (s.collect dir state source) := by
  obtain ⟨t, copied⟩ := state
  have hwrites := writes_collect s dir (t, copied) source
  rw [h.writes.spelled dir] at hwrites
  have hafter := h.writes.trans hwrites
  rcases hstate : s.collect dir (t, copied) source with ⟨t', copied'⟩
  rw [hstate] at hafter
  rcases collect_cases hstate with ⟨rfl, rfl, -⟩ | ⟨rel, ns, hrel, hns, hnew, hcopy⟩
  · exact h
  have hnames := Path.isName_of_names? hns
  have hcopyWrites := t.writes_copyInto source (below dir ns)
  rw [FileTree.spelled_below _ _ hnames, h.writes.spelled dir] at hcopyWrites
  obtain ⟨hspelled, hlive⟩ := FileTree.spelled_of_relative? t₀ hrel hns
  obtain ⟨c, hc⟩ := FileTree.isFile_iff.1 hsource
  obtain ⟨hreach, hc⟩ := FileTree.read_eq_ok hc
  rw [hspelled] at hc
  have houtside := not_inside_of_file hdir hfresh hc
  rcases hcopy with ⟨hcopy, rfl⟩ | ⟨fault, hcopy, rfl⟩
  · rw [hcopy] at hcopyWrites
    obtain ⟨hreach', hcopied⟩ := copied_into h.writes hnames hspelled hc houtside hcopy
    refine ⟨hafter, ?_, fun rel' hrel' => ?_⟩
    · rw [List.nodup_append]
      exact ⟨h.nodup, by simp, by
        rintro a ha b hb rfl
        exact hnew (List.mem_singleton.1 hb ▸ ha)⟩
    · rcases List.mem_append.1 hrel' with hrel' | hrel'
      · obtain ⟨ns', c', hold⟩ := h.holds rel' hrel'
        exact ⟨ns', c', hold.overwritten hcopyWrites hreach' hcopied hc⟩
      · obtain rfl := List.mem_singleton.1 hrel'
        exact ⟨ns, c, hns, hc, hlive hreach, hreach', hcopied⟩
  · refine ⟨hafter, h.nodup, fun rel' hrel' => ?_⟩
    obtain ⟨ns', c', hold⟩ := h.holds rel' hrel'
    exact ⟨ns', c', hold.mono (FileTree.grows_copyInto hcopy) fun h => h⟩

/-- A snapshot that has been taken, with the tree in which it was asked what to copy. -/
structure Taken (s : SnapshotStore) (now : Int) (tag : Text) (t t₀ t₁ : FileTree) (dir : Path)
    (copied : List Text) : Prop where
  opened : Opened s t t₀ dir
  writes : FileTree.Writes (Touched s t dir) t₀ t₁
  nodup : copied.Nodup
  manifest : t₁.readText (s.manifestPath dir) = .ok (manifestOf now tag copied).text
  holds : ∀ rel ∈ copied, (∀ ns, names? rel = some ns →
    t.spelled dir ++ ns ≠ t.spelled (s.manifestPath dir)) → ∃ ns c, Holds s dir t₀ t₁ rel ns c

/-- What has been collected when the manifest is written. -/
theorem create_collected (ht : t.IsTree) (hsources : ∀ t, ∀ p ∈ sources t, t.isFile p = true)
    (h : s.create now sources tag t = (.ok dir, t₁)) :
    ∃ t₀ t' copied, s.opened now tag t = .ok (dir, t₀) ∧
      (sources t₀).foldl (s.collect dir) (t₀, []) = (t', copied) ∧
      Collected s dir t₀ (t', copied) ∧
      t'.write (s.manifestPath dir) (.text (manifestOf now tag copied).text) = .ok t₁ := by
  obtain ⟨t₀, t', copied, hopened, hloop, hwrite⟩ := create_eq_ok h
  have hop := opened_spec hopened
  have hspelled := hop.grows.spelled dir
  have hdir : t₀.at? (t₀.spelled dir) = some .directory := hspelled ▸ hop.directory
  have hfresh : ∀ n, Inside (t₀.spelled dir) n → t₀.at? n = none := hspelled ▸ hop.nothing ht
  refine ⟨t₀, t', copied, hopened, hloop, ?_, hwrite⟩
  rw [← hloop]
  refine List.foldlRecOn _ _ ⟨FileTree.Writes.refl _ _, List.nodup_nil, ?_⟩ ?_
  · intro rel hrel
    cases hrel
  · exact fun state hstate p hp => hstate.collect hdir hfresh (hsources t₀ p hp)

/-- **A snapshot holds what its manifest lists**, but for a file that has its copy where the
manifest is written. -/
theorem create_taken (ht : t.IsTree) (hsources : ∀ t, ∀ p ∈ sources t, t.isFile p = true)
    (h : s.create now sources tag t = (.ok dir, t₁)) :
    ∃ t₀, s.opened now tag t = .ok (dir, t₀) ∧
      Taken s now tag t t₀ t₁ dir ((sources t₀).foldl (s.collect dir) (t₀, [])).2 := by
  obtain ⟨t₀, t', copied, hopened, hloop, hcollected, hwrite⟩ := create_collected ht hsources h
  have hop := opened_spec hopened
  have hspelled := hop.grows.spelled dir
  have hmanifest : t'.spelled (s.manifestPath dir) = t.spelled (s.manifestPath dir) :=
    (hcollected.writes.spelled _).trans (hop.grows.spelled _)
  obtain ⟨names, htarget, hput⟩ := FileTree.write_eq_ok.1 hwrite
  have hwrites := (FileTree.writes_target htarget (.text (manifestOf now tag copied).text)).1
  rw [← hput, hmanifest] at hwrites
  refine ⟨t₀, hopened, ?_⟩
  rw [hloop]
  refine ⟨hop, ?_, hcollected.nodup,
    FileTree.readText_eq_ok.2 (FileTree.read_of_write hwrite), ?_⟩
  · refine (hcollected.writes.mono fun n hn => ?_).trans (hwrites.mono fun n hn => Or.inr hn)
    exact Or.inl (hspelled ▸ hn)
  · intro rel hrel hfree
    obtain ⟨ns, c, hold⟩ := hcollected.holds rel hrel
    refine ⟨ns, c, hold.mono hwrites ?_⟩
    rw [hspelled]
    exact hfree ns hold.names

/-- With a plain manifest name, nothing is written outside the directory. -/
theorem Taken.writes_inside {copied : List Text} (hname : IsName s.settings.manifestName)
    (h : Taken s now tag t t₀ t₁ dir copied) :
    FileTree.Writes (Inside (t.spelled dir)) t₀ t₁ :=
  h.writes.mono fun _ => Touched.inside hname

theorem Taken.holds_of_names {copied : List Text} (hname : IsName s.settings.manifestName)
    (h : Taken s now tag t t₀ t₁ dir copied) {rel : Text} (hrel : rel ∈ copied)
    (hfree : names? rel ≠ some [s.settings.manifestName]) :
    ∃ ns c, Holds s dir t₀ t₁ rel ns c := by
  refine h.holds rel hrel fun ns hns heq => hfree ?_
  rw [spelled_manifestPath hname] at heq
  rw [hns, List.append_cancel_left heq]

end SnapshotStore
end LayeredConfig
