import LayeredConfig.Proofs.Files.Fresh
import LayeredConfig.Proofs.Snapshot.RoundTrip

/-!
# What a restore overwrites

The safety snapshot of a restore holds the files that the current root document selects, as they
were before the call. Every one of them is in it whose copy has a path that is not too long, as
long as nothing else is written to its place. A file that the root document no longer selects is
not in it: what a restore writes over such a file is lost.
-/
namespace LayeredConfig

open LayeredConfig.Path (join below confine? names? relative? IsName Named)

namespace SnapshotStore

variable {s : SnapshotStore} {now : Int} {tag : Text} {sources : FileTree → List Path}
  {dir : Path} {t t₀ t₁ t₂ t₃ : FileTree}

/-- What lies in a snapshot's directory while files are collected lies at the same names below
the root. -/
structure Mirrors (s : SnapshotStore) (dir : Path) (t₀ t : FileTree) : Prop where
  directory : ∀ ns, ns ≠ [] → t.at? (t₀.spelled dir ++ ns) = some .directory →
    t₀.at? (t₀.spelled s.root ++ ns) = some .directory
  file : ∀ ns c, t.at? (t₀.spelled dir ++ ns) = some (.file c) →
    ∃ c', t₀.at? (t₀.spelled s.root ++ ns) = some (.file c')

/-- The directory of a snapshot that is being taken. -/
structure Ready (s : SnapshotStore) (dir : Path) (t₀ : FileTree) : Prop where
  named : Named dir
  reaches : t₀.Reaches dir
  directory : t₀.at? (t₀.spelled dir) = some .directory
  nothing : ∀ n, Inside (t₀.spelled dir) n → t₀.at? n = none

theorem Opened.ready (h : Opened s t t₀ dir) (ht : t.IsTree) : Ready s dir t₀ := by
  obtain ⟨name, hname, hdir⟩ := h.place
  have hspelled := h.grows.spelled dir
  refine ⟨⟨_, name, hname, hdir⟩, h.reaches, ?_, ?_⟩
  · rw [hspelled]
    exact h.directory
  · rw [hspelled]
    exact h.nothing ht

theorem Ready.mirrors (h : Ready s dir t₀) : Mirrors s dir t₀ t₀ := by
  refine ⟨fun ns hne hd => ?_, fun ns c hc => ?_⟩
  · rw [h.nothing _ ⟨ns, hne, rfl⟩] at hd
    cases hd
  · by_cases hne : ns = []
    · rw [hne, List.append_nil, h.directory] at hc
      cases hc
    · rw [h.nothing _ ⟨ns, hne, rfl⟩] at hc
      cases hc

/-- Names with the last one set apart. -/
theorem exists_last {rel : Text} {ns : List Text} (h : names? rel = some ns) :
    ∃ front last, ns = front ++ [last] := by
  obtain ⟨front, last, hns⟩ :=
    (List.eq_nil_or_concat ns).resolve_left (Path.names?_eq_some h).2
  exact ⟨front, last, hns.trans List.concat_eq_append⟩

/-- One more file keeps the directory a mirror of what is below the root. -/
theorem Mirrors.collect (hready : Ready s dir t₀) {state : FileTree × List Text}
    (hwrites : FileTree.Writes (Inside (t₀.spelled dir)) t₀ state.1)
    (h : Mirrors s dir t₀ state.1) {source : Path} (hsource : t₀.isFile source = true) :
    Mirrors s dir t₀ (s.collect dir state source).1 := by
  obtain ⟨t, copied⟩ := state
  rcases hstate : s.collect dir (t, copied) source with ⟨t', copied'⟩
  rcases collect_cases hstate with ⟨rfl, -, -⟩ | ⟨rel, ns, hrel, hns, -, hcopy⟩
  · exact h
  have ht' : t' = (t.copyInto source (below dir ns)).2 := by
    rcases hcopy with ⟨hcopy, -⟩ | ⟨fault, hcopy, -⟩ <;> rw [hcopy]
  obtain ⟨c, hc⟩ := FileTree.isFile_iff.1 hsource
  obtain ⟨hreach, hc⟩ := FileTree.read_eq_ok hc
  rw [(FileTree.spelled_of_relative? t₀ hrel hns).1] at hc
  have hdirs := (FileTree.followed_names (FileTree.followed_of_relative? hrel hns hreach)).1
  have hnames := Path.isName_of_names? hns
  obtain ⟨front, last, rfl⟩ := exists_last hns
  have hmade := FileTree.copyInto_below_made hready.named (hwrites.reaches hready.reaches)
    (by rw [hwrites.spelled]; exact hwrites.directory _ hready.directory) hnames source
  rw [← ht', hwrites.spelled] at hmade
  refine ⟨fun ms hne hd => ?_, fun ms c' hc' => ?_⟩
  · rcases hmade (t₀.spelled dir ++ ms) with hsame | ⟨-, way, hway, hm⟩ | ⟨-, c'', hc''⟩
    · exact h.directory ms hne (hsame ▸ hd)
    · obtain rfl := List.append_cancel_left hm
      exact hdirs ms (hway.trans (List.prefix_append _ _)) (FileTree.ne_concat_of_front hway)
    · rw [hd] at hc''
      cases hc''
  · rcases hmade (t₀.spelled dir ++ ms) with hsame | ⟨hd, -⟩ | ⟨hm, -⟩
    · exact h.file ms c' (hsame ▸ hc')
    · rw [hd] at hc'
      cases hc'
    · obtain rfl := List.append_cancel_left hm
      exact ⟨c, hc⟩

/-- Below the directory nothing is in the way of names that lead through directories below the
root. -/
theorem Mirrors.clear (h : Mirrors s dir t₀ t) {front : List Text}
    (hdirs : ∀ way, way <+: front → t₀.at? (t₀.spelled s.root ++ way) = some .directory) :
    t.Clear (t₀.spelled dir) front := by
  intro way hway
  cases he : t.at? (t₀.spelled dir ++ way) with
  | none => exact Or.inl rfl
  | some e =>
    cases e with
    | directory => exact Or.inr rfl
    | file c =>
      obtain ⟨c', hc'⟩ := h.file way c he
      rw [hdirs way hway] at hc'
      cases hc'

/-- **A file that is asked for is noted**, unless its copy has a path that cannot be. -/
theorem mem_collect (hready : Ready s dir t₀) {state : FileTree × List Text}
    (hwrites : FileTree.Writes (Inside (t₀.spelled dir)) t₀ state.1)
    (h : Mirrors s dir t₀ state.1) {source : Path} (hsource : t₀.isFile source = true)
    {rel : Text} {ns : List Text} (hrel : relative? s.root source = some rel)
    (hns : names? rel = some ns) (hfits : FileTree.Fits (below dir ns)) :
    rel ∈ (s.collect dir state source).2 := by
  obtain ⟨t, copied⟩ := state
  rcases hstate : s.collect dir (t, copied) source with ⟨t', copied'⟩
  rcases collect_cases hstate with ⟨-, rfl, hpassed⟩ | ⟨rel', ns', hrel', hns', -, hcopy⟩
  · exact hpassed rel ns hrel hns
  rw [hrel] at hrel'
  cases hrel'
  rw [hns] at hns'
  cases hns'
  rcases hcopy with ⟨-, rfl⟩ | ⟨fault, hcopy, -⟩
  · simp
  -- A copy that fails would have something in its way, which is then also below the root.
  exfalso
  obtain ⟨c, hread⟩ := FileTree.isFile_iff.1 hsource
  obtain ⟨hreach, hc⟩ := FileTree.read_eq_ok hread
  have hspelled := (FileTree.spelled_of_relative? t₀ hrel hns).1
  have hout := not_inside_of_file hready.directory hready.nothing hc
  rw [hspelled] at hc
  obtain ⟨hdirs, hlens⟩ :=
    FileTree.followed_names (FileTree.followed_of_relative? hrel hns hreach)
  have hnames := Path.isName_of_names? hns
  obtain ⟨front, last, rfl⟩ := exists_last hns
  have hisFile := hwrites.isFile (fun ⟨rest, _, heq⟩ => hout ⟨rest, heq.symm⟩) hsource
  have hdir := hwrites.directory _ hready.directory
  have hclear : t.Clear (t.spelled dir) front := by
    rw [hwrites.spelled]
    exact h.clear fun way hway =>
      hdirs way (hway.trans (List.prefix_append _ _)) (FileTree.ne_concat_of_front hway)
  have hlast : t.at? (t.spelled dir ++ (front ++ [last])) ≠ some .directory := by
    rw [hwrites.spelled]
    intro hd
    rw [h.directory _ (by simp) hd] at hc
    cases hc
  have hok := FileTree.copyInto_below hready.named (hwrites.reaches hready.reaches)
    (by rw [hwrites.spelled]; exact hdir) hnames hlens hfits hclear hlast hisFile
  rw [hcopy] at hok
  cases hok

/-- What has been noted stays noted. -/
theorem mem_foldl_collect {state : FileTree × List Text} {rel : Text} (h : rel ∈ state.2)
    (ps : List Path) : rel ∈ (ps.foldl (s.collect dir) state).2 := by
  induction ps generalizing state with
  | nil => exact h
  | cons p ps ih =>
    refine ih ?_
    rcases hstate : s.collect dir (state.1, state.2) p with ⟨t', copied'⟩
    rcases collect_cases hstate with ⟨-, rfl, -⟩ | ⟨_, _, -, -, -, ⟨-, rfl⟩ | ⟨_, -, rfl⟩⟩
    · exact h
    · exact List.mem_append_left _ h
    · exact h

/-- **Every file that is asked for is in the snapshot**, if its copy has a path that can be. -/
theorem mem_copied (hready : Ready s dir t₀) {ps : List Path}
    (hfiles : ∀ p ∈ ps, t₀.isFile p = true) {source : Path} (hsource : source ∈ ps) {rel : Text}
    {ns : List Text} (hrel : relative? s.root source = some rel) (hns : names? rel = some ns)
    (hfits : FileTree.Fits (below dir ns)) :
    rel ∈ (ps.foldl (s.collect dir) (t₀, [])).2 := by
  obtain ⟨before, after, rfl⟩ := List.append_of_mem hsource
  obtain ⟨hbefore, hafter⟩ := List.forall_mem_append.1 hfiles
  have hstate : FileTree.Writes (Inside (t₀.spelled dir)) t₀
        (before.foldl (s.collect dir) (t₀, [])).1 ∧
      Mirrors s dir t₀ (before.foldl (s.collect dir) (t₀, [])).1 := by
    refine List.foldlRecOn (motive := fun state : FileTree × List Text =>
      FileTree.Writes (Inside (t₀.spelled dir)) t₀ state.1 ∧ Mirrors s dir t₀ state.1)
      before _ ⟨FileTree.Writes.refl _ _, hready.mirrors⟩ ?_
    rintro state ⟨hwrites, hmirrors⟩ p hp
    have hstep := writes_collect s dir state p
    rw [hwrites.spelled] at hstep
    exact ⟨hwrites.trans hstep, hmirrors.collect hready hwrites (hbefore p hp)⟩
  rw [List.foldl_append, List.foldl_cons]
  exact mem_foldl_collect (mem_collect hready hstate.1 hstate.2
    (hafter source List.mem_cons_self) hrel hns hfits) after

end SnapshotStore

namespace Workspace

end Workspace

namespace Workspace.Live

/-- A live file, another one beside it, and the manifest of a snapshot. -/
def files (manifestName : String) (listed : List Text) : List (List String × FileEntry) :=
  [(["r"], .directory), (["r", "a.yaml"], .file (.text "x: 2\n")),
    (["r", "b.yaml"], .file (.text "")), (["s"], .directory),
    (["s", manifestName], .file (.text (SnapshotStore.manifestOf 0 "t" listed).text))]

def tree (manifestName : String) (listed : List Text)
    (copies : List (List String × FileEntry)) : FileTree where
  entries := (files manifestName listed ++ copies).map fun e => (e.1.map String.toList, e.2)
  workingDirectory := []

/-- The live file as it was before. -/
def old : FileEntry := .file (.text "x: 1\n")

def workspace (selected manifestName : Text) : Workspace where
  root := "/r"
  selected := some selected
  settings := { Settings.standard with
    backups := { Settings.standardBackups with manifestName := manifestName } }

def safety : Path := "/r/.hydra_backups/19700101_000000_pre_restore_backup"

def copy : Path := "/r/.hydra_backups/19700101_000000_pre_restore_backup/a.yaml"

def report : RestoreReport := ⟨safety, ["a.yaml"], []⟩

/-- When there is a directory for the copies. -/
def opened : FileTree :=
  tree "meta.json" ["a.yaml"] [(["s", "a.yaml"], old), (["r", ".hydra_backups"], .directory),
    (["r", ".hydra_backups", "19700101_000000_pre_restore_backup"], .directory)]

end Workspace.Live

end LayeredConfig
