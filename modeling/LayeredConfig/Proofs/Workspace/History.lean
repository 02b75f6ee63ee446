import LayeredConfig.Proofs.Files.Edit
import LayeredConfig.Proofs.Snapshot.Sealed

/-!
# Snapshots over a whole history

What is done with one workspace, step by step: snapshots are taken, listed and restored, another
root document is selected, and other programs edit the tree outside the backup directory. No step
changes a snapshot that is there, and so a snapshot is at the end what it was when it had been
taken.
-/
namespace LayeredConfig

open LayeredConfig.Path (IsName)

/-- A snapshot that has been taken, with the trees before and after. -/
structure PastSnapshot where
  dir : Path
  before : FileTree
  after : FileTree
deriving DecidableEq

/-- A workspace in use, with the snapshots that have been taken in it, those of restores too, and
what has last been listed. -/
structure Session where
  workspace : Workspace
  tree : FileTree
  taken : List PastSnapshot
  listed : List SnapshotEntry
deriving DecidableEq

namespace Session

inductive Action where
  | create (now : Int) (tag : Text)
  | list
  | select (p : Path)
  | restore (now : Int) (dir : Path)
  /-- What other programs leave. -/
  | edit (t : FileTree)

/-- The snapshots that have been taken when another one is. One that fails is not among them. -/
def takenWith (σ : Session) (now : Int) (tag : Text) : List PastSnapshot :=
  match σ.workspace.createSnapshot now tag σ.tree with
  | (.ok dir, t) => σ.taken ++ [⟨dir, σ.tree, t⟩]
  | (.error _, _) => σ.taken

/-- A step. A restore takes its safety snapshot first, also when it fails after that. -/
def apply (σ : Session) : Action → Session
  | .create now tag =>
    { σ with
      tree := (σ.workspace.createSnapshot now tag σ.tree).2
      taken := σ.takenWith now tag }
  | .list => { σ with listed := σ.workspace.snapshots.list σ.tree }
  | .select p => { σ with workspace := σ.workspace.select σ.tree p }
  | .restore now dir =>
    { σ with
      tree := (σ.workspace.restoreSnapshot now dir σ.tree).2
      taken := σ.takenWith now σ.workspace.settings.backups.preRestoreTag }
  | .edit t => { σ with tree := t }

/-- Only snapshots that have been taken are restored, and edits leave the backup directory alone. -/
def IsAllowed (σ : Session) : Action → Prop
  | .restore _ dir => ∃ r ∈ σ.taken, r.dir = dir
  | .edit t =>
    t.IsTree ∧ FileTree.EditedOutside (σ.tree.spelled σ.workspace.snapshots.directory) σ.tree t
  | .create _ _ | .list | .select _ => True

def run (σ : Session) (actions : List Action) : Session := actions.foldl apply σ

/-- Steps one after the other, each allowed in the session that it finds. -/
def AllAllowed (σ : Session) : List Action → Prop
  | [] => True
  | a :: actions => σ.IsAllowed a ∧ (σ.apply a).AllAllowed actions

theorem allAllowed_append {σ : Session} {actions more : List Action} :
    σ.AllAllowed (actions ++ more) ↔ σ.AllAllowed actions ∧ (σ.run actions).AllAllowed more := by
  induction actions generalizing σ with
  | nil => exact ⟨fun h => ⟨trivial, h⟩, fun h => h.2⟩
  | cons a actions ih =>
    show σ.IsAllowed a ∧ (σ.apply a).AllAllowed (actions ++ more) ↔
      (σ.IsAllowed a ∧ (σ.apply a).AllAllowed actions) ∧ ((σ.apply a).run actions).AllAllowed more
    rw [ih, and_assoc]

end Session

open SnapshotStore (Keeps Sealed)

/-- A snapshot that is what it was when it had been taken, where nothing had been before. -/
structure PastSnapshot.Intact (r : PastSnapshot) (s : SnapshotStore) (t : FileTree) : Prop where
  unused : r.before.at? (r.before.spelled r.dir) = none
  made : r.after.at? (r.after.spelled r.dir) = some .directory
  closed : s.Sealed t r.dir
  same : ∀ ns, t.at? (t.spelled r.dir ++ ns) = r.after.at? (r.after.spelled r.dir ++ ns)

theorem PastSnapshot.Intact.mono {r : PastSnapshot} {s : SnapshotStore} {t t' : FileTree}
    (h : r.Intact s t) (hkeeps : s.Keeps t t') : r.Intact s t' := by
  refine ⟨h.unused, h.made, h.closed.mono hkeeps, fun ns => ?_⟩
  rw [FileTree.spelled_eq hkeeps.workingDirectory, ← h.same ns]
  exact hkeeps.same h.closed (List.prefix_append _ _)

namespace Session

variable {σ : Session}

/-- The trees of a session are trees, and its snapshots are intact. -/
structure Sound (σ : Session) : Prop where
  isTree : σ.tree.IsTree
  dirName : IsName σ.workspace.settings.backups.dirName
  manifestName : IsName σ.workspace.settings.backups.manifestName
  intact : ∀ r ∈ σ.taken, r.Intact σ.workspace.snapshots σ.tree

/-- A snapshot that has just been taken is intact. -/
theorem Sound.intact_taken (h : σ.Sound) {now : Int} {tag : Text} {dir : Path} {t : FileTree}
    (hcreate : σ.workspace.createSnapshot now tag σ.tree = (.ok dir, t)) :
    (⟨dir, σ.tree, t⟩ : PastSnapshot).Intact σ.workspace.snapshots t := by
  have hsealed := SnapshotStore.sealed_of_create h.dirName h.manifestName h.isTree
    σ.workspace.isFile_of_tracked hcreate
  obtain ⟨t₀, hopened, -⟩ := SnapshotStore.create_writes hcreate
  exact ⟨hopened.unused, hsealed.directory, hsealed, fun _ => rfl⟩

/-- All snapshots are intact when another one has been taken, or could not be. -/
theorem Sound.intact_takenWith (h : σ.Sound) (now : Int) (tag : Text) :
    ∀ r ∈ σ.takenWith now tag, r.Intact σ.workspace.snapshots
      (σ.workspace.createSnapshot now tag σ.tree).2 := by
  rcases hcreate : σ.workspace.createSnapshot now tag σ.tree with ⟨e | dir, t⟩
  · have hkeeps := (SnapshotStore.added_create h.dirName h.manifestName h.isTree hcreate).keeps
    intro r hr
    rw [takenWith, hcreate] at hr
    exact (h.intact r hr).mono hkeeps
  · have hkeeps := (SnapshotStore.added_create h.dirName h.manifestName h.isTree hcreate).keeps
    intro r hr
    rw [takenWith, hcreate] at hr
    rcases List.mem_append.1 hr with hr | hr
    · exact (h.intact r hr).mono hkeeps
    · rw [List.mem_singleton.1 hr]
      exact h.intact_taken hcreate

/-- **Every step keeps all snapshots intact.** -/
theorem Sound.apply (h : σ.Sound) {a : Action} (ha : σ.IsAllowed a) : (σ.apply a).Sound := by
  cases a with
  | create now tag =>
    have hkeeps := (SnapshotStore.added_create h.dirName h.manifestName h.isTree
      (rfl : σ.workspace.createSnapshot now tag σ.tree = _)).keeps
    exact ⟨hkeeps.isTree, h.dirName, h.manifestName, h.intact_takenWith now tag⟩
  | list => exact ⟨h.isTree, h.dirName, h.manifestName, h.intact⟩
  | select p => exact ⟨h.isTree, h.dirName, h.manifestName, h.intact⟩
  | restore now dir =>
    obtain ⟨r, hr, rfl⟩ := ha
    obtain ⟨outcome, t, hcreate, -, hkeeps⟩ := SnapshotStore.keeps_restore h.dirName h.manifestName
      (h.intact r hr).closed h.isTree
      (rfl : σ.workspace.restoreSnapshot now r.dir σ.tree = _)
    have hintact := h.intact_takenWith now σ.workspace.settings.backups.preRestoreTag
    have htree : (σ.workspace.createSnapshot now σ.workspace.settings.backups.preRestoreTag
        σ.tree).2 = t := congrArg Prod.snd hcreate
    rw [htree] at hintact
    exact ⟨hkeeps.isTree, h.dirName, h.manifestName, fun r hr => (hintact r hr).mono hkeeps⟩
  | edit t =>
    have hkeeps := SnapshotStore.keeps_of_editedOutside ha.1 ha.2
    exact ⟨ha.1, h.dirName, h.manifestName, fun r hr => (h.intact r hr).mono hkeeps⟩

/-- Any number of steps keeps all snapshots intact, by induction on the steps. -/
theorem Sound.run (h : σ.Sound) {actions : List Action} (ha : σ.AllAllowed actions) :
    (σ.run actions).Sound := by
  induction actions generalizing σ with
  | nil => exact h
  | cons a actions ih => exact ih (h.apply ha.1) ha.2

/-- **Snapshots do not change.** Take any steps from a session without snapshots: taking, listing
and restoring snapshots, selecting root documents, also in snapshots, and edits outside the backup
directory. Every snapshot goes to a directory where nothing was before, and what lies in it is at
the end what it was when it had been taken: no file has changed, and none has been added or
removed. -/
theorem taken_unchanged {actions : List Action} (ht : σ.tree.IsTree)
    (hdir : IsName σ.workspace.settings.backups.dirName)
    (hname : IsName σ.workspace.settings.backups.manifestName) (hnone : σ.taken = [])
    (ha : σ.AllAllowed actions) {r : PastSnapshot} (hr : r ∈ (σ.run actions).taken) :
    r.before.at? (r.before.spelled r.dir) = none ∧
      r.after.at? (r.after.spelled r.dir) = some .directory ∧
      ∀ ns, (σ.run actions).tree.at? ((σ.run actions).tree.spelled r.dir ++ ns) =
        r.after.at? (r.after.spelled r.dir ++ ns) := by
  have hsound : σ.Sound := by
    refine ⟨ht, hdir, hname, fun r hr => ?_⟩
    rw [hnone] at hr
    cases hr
  have hintact := (hsound.run ha).intact r hr
  exact ⟨hintact.unused, hintact.made, hintact.same⟩

theorem allAllowed_edit_restore {now : Int} {dir : Path} {t : FileTree} (ht : t.IsTree)
    (hedit : FileTree.EditedOutside (σ.tree.spelled σ.workspace.snapshots.directory) σ.tree t)
    (hdir : ∃ r ∈ σ.taken, r.dir = dir) : σ.AllAllowed [.edit t, .restore now dir, .list] :=
  ⟨⟨ht, hedit⟩, hdir, trivial, trivial⟩

namespace Nested

def start : Session where
  workspace := ⟨"/r", some "/r/c.yaml", Settings.standard⟩
  tree :=
    { entries := [(["r"].map String.toList, .directory),
        (["r", "c.yaml"].map String.toList, .file (.text "x: 1\n"))]
      workingDirectory := [] }
  taken := []
  listed := []

/-- A second snapshot is taken when a file of the first one has been selected. -/
def selecting : List Action :=
  [.create 0 "a", .select "/r/.hydra_backups/19700101_000000_a/c.yaml", .create 0 "b"]

def edits : List FileTree.Edit := [.write "/r/c.yaml" (.text "x: 2\n")]

/-- Restoring the second snapshot writes to the first one. -/
def actions : List Action :=
  selecting ++ [.edit (FileTree.Edit.run (start.run selecting).tree edits),
    .restore 1000000 "/r/.hydra_backups/19700101_000000_b", .list]

def final : Session := start.run actions

end Nested

open Nested in
theorem taken_unchanged_nested :
    final.taken.map PastSnapshot.dir = ["/r/.hydra_backups/19700101_000000_a",
        "/r/.hydra_backups/19700101_000000_b",
        "/r/.hydra_backups/19700101_000001_pre_restore_backup"].map String.toList ∧
      final.workspace.snapshots.readManifest final.tree "/r/.hydra_backups/19700101_000000_b" =
        .ok (SnapshotStore.manifestOf 0 "b" [".hydra_backups/19700101_000000_a/c.yaml"]) ∧
      ∀ r ∈ final.taken, ∀ ns, final.tree.at? (final.tree.spelled r.dir ++ ns) =
        r.after.at? (r.after.spelled r.dir ++ ns) := by
  have hselecting : start.AllAllowed selecting := ⟨trivial, trivial, trivial, trivial⟩
  have hedit : FileTree.EditedOutside ((start.run selecting).tree.spelled
      (start.run selecting).workspace.snapshots.directory) (start.run selecting).tree
      (FileTree.Edit.run (start.run selecting).tree edits) :=
    FileTree.editedOutside_run (by decide +kernel)
  have htree : (FileTree.Edit.run (start.run selecting).tree edits).IsTree :=
    FileTree.isTree_of_entries (by decide +kernel)
  have htaken : ∃ r ∈ (start.run selecting).taken,
      r.dir = "/r/.hydra_backups/19700101_000000_b".toList := by
    decide +kernel
  have hallowed : start.AllAllowed actions :=
    allAllowed_append.2 ⟨hselecting, allAllowed_edit_restore htree hedit htaken⟩
  refine ⟨by decide +kernel, by decide +kernel, fun r hr => ?_⟩
  exact (taken_unchanged (FileTree.isTree_of_entries (by decide +kernel)) (by decide +kernel)
    (by decide +kernel) rfl hallowed hr).2.2

end Session
end LayeredConfig
