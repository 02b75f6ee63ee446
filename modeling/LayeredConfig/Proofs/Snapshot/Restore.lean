import Mathlib.Data.List.Induction
import LayeredConfig.Proofs.Files.Copy
import LayeredConfig.Snapshot.Store

/-!
# Bringing files back

A restore goes through the files of a manifest in order. Where the live files lie apart from the
snapshot, no file that is brought back disturbs a copy that is still to come, and a file is only
skipped when it cannot be written.
-/
namespace LayeredConfig.SnapshotStore

open LayeredConfig.Path (join below confine? names?)

variable {s : SnapshotStore} {dir : Path} {t t₂ : FileTree}

theorem ends?_eq_some {rel : Text} {source dest : Path} :
    s.ends? t dir rel = some (source, dest) ↔ ∃ ns, names? rel = some ns ∧
      source = below dir ns ∧ dest = below s.root ns ∧ t.isFile source = true := by
  unfold ends?
  constructor
  · intro h
    obtain ⟨source', hsource, h⟩ := Option.bind_eq_some_iff.1 h
    obtain ⟨dest', hdest, h⟩ := Option.bind_eq_some_iff.1 h
    split at h
    · next hfile =>
      cases h
      obtain ⟨ns, hns, rfl⟩ := Path.confine?_eq_some.1 hsource
      obtain ⟨ns', hns', rfl⟩ := Path.confine?_eq_some.1 hdest
      rw [hns] at hns'
      cases hns'
      exact ⟨ns, hns, rfl, rfl, hfile⟩
    · cases h
  · rintro ⟨ns, hns, rfl, rfl, hfile⟩
    simp only [Path.confine?_eq_some.2 ⟨ns, hns, rfl⟩, Option.bind_eq_bind, Option.bind_some,
      hfile, if_true]

/-- What becomes of a file of a manifest: it is skipped where there is no copy of it, and
otherwise restored or skipped as its copy succeeds. -/
theorem bringBack_cases {restored skipped : List Text} {rel : Text}
    {state : FileTree × List Text × List Text}
    (h : s.bringBack dir (t, restored, skipped) rel = state) :
    (s.ends? t dir rel = none ∧ state = (t, restored, skipped ++ [rel])) ∨
      ∃ ns t', names? rel = some ns ∧ t.isFile (below dir ns) = true ∧
        ((t.copyInto (below dir ns) (below s.root ns) = (.ok (), t') ∧
            state = (t', restored ++ [rel], skipped)) ∨
          ∃ fault, t.copyInto (below dir ns) (below s.root ns) = (.error fault, t') ∧
            state = (t', restored, skipped ++ [rel])) := by
  unfold bringBack at h
  simp only at h
  cases hends : s.ends? t dir rel with
  | none =>
    rw [hends] at h
    exact Or.inl ⟨rfl, h.symm⟩
  | some ends =>
    obtain ⟨source, dest⟩ := ends
    obtain ⟨ns, hns, rfl, rfl, hfile⟩ := ends?_eq_some.1 hends
    rw [hends] at h
    simp only at h
    rcases hcopy : t.copyInto (below dir ns) (below s.root ns) with ⟨fault | _, t'⟩
    · rw [hcopy] at h
      exact Or.inr ⟨ns, t', hns, hfile, Or.inr ⟨fault, hcopy, h.symm⟩⟩
    · rw [hcopy] at h
      exact Or.inr ⟨ns, t', hns, hfile, Or.inl ⟨hcopy, h.symm⟩⟩

/-- The names of the live files of relative paths. -/
def LiveOf (root : Names) (rels : List Text) (n : Names) : Prop :=
  ∃ rel ∈ rels, ∃ ns, names? rel = some ns ∧ n = root ++ ns

theorem LiveOf.mono {root : Names} {rels rels' : List Text} (h : ∀ rel ∈ rels, rel ∈ rels')
    {n : Names} (hn : LiveOf root rels n) : LiveOf root rels' n := by
  obtain ⟨rel, hrel, hn⟩ := hn
  exact ⟨rel, h rel hrel, hn⟩

/-- A file that is brought back is written if it is restored, and nothing else is. -/
theorem writes_bringBack (s : SnapshotStore) (dir : Path)
    (state : FileTree × List Text × List Text) (rel : Text) :
    FileTree.Writes (LiveOf (state.1.spelled s.root) (s.bringBack dir state rel).2.1) state.1
        (s.bringBack dir state rel).1 ∧
      ∀ r ∈ state.2.1, r ∈ (s.bringBack dir state rel).2.1 := by
  obtain ⟨t, restored, skipped⟩ := state
  rcases bringBack_cases (rfl : s.bringBack dir (t, restored, skipped) rel = _)
    with ⟨-, heq⟩ | ⟨ns, t', hns, -, ⟨hcopy, heq⟩ | ⟨fault, hcopy, heq⟩⟩
  · rw [heq]
    exact ⟨FileTree.Writes.refl _ _, fun r hr => hr⟩
  · have hwrites := t.writes_copyInto (below dir ns) (below s.root ns)
    rw [hcopy] at hwrites
    rw [heq]
    refine ⟨hwrites.mono fun n hn => ⟨rel, by simp, ns, hns, ?_⟩, fun r hr => by simp [hr]⟩
    rw [hn, FileTree.spelled_below _ _ (Path.isName_of_names? hns)]
  · rw [heq]
    exact ⟨(FileTree.grows_copyInto hcopy).mono fun _ h => h.elim, fun r hr => hr⟩

/-- A copy in a snapshot that can be read, with what it holds. -/
structure Copied (dir : Path) (t : FileTree) (ns : List Text) (c : Content) : Prop where
  reaches : t.Reaches (below dir ns)
  copy : t.at? (t.spelled dir ++ ns) = some (.file c)

/-- The files of a snapshot with a copy each, of which the live ones lie apart from it. -/
structure Whole (s : SnapshotStore) (dir : Path) (t : FileTree) (files : List Text) : Prop where
  copies : ∀ rel ∈ files, ∃ ns c, names? rel = some ns ∧ Copied dir t ns c
  apart : ∀ rel ∈ files, ∀ ns, names? rel = some ns →
    ¬ t.spelled dir <+: t.spelled s.root ++ ns

/-- The state after a part of the files, of which `t₂` has the copies. -/
structure Brought (s : SnapshotStore) (dir : Path) (t₂ : FileTree) (done : List Text)
    (state : FileTree × List Text × List Text) : Prop where
  writes : FileTree.Writes (LiveOf (t₂.spelled s.root) done) t₂ state.1
  restored : state.2.1 = done.filter (· ∈ state.2.1)
  skipped : state.2.2 = done.filter (· ∉ state.2.1)
  holds : ∀ rel ∈ state.2.1, ∃ ns c, names? rel = some ns ∧ Copied dir t₂ ns c ∧
    state.1.Reaches (below s.root ns) ∧ state.1.at? (t₂.spelled s.root ++ ns) = some (.file c)
  refused : ∀ rel ∈ state.2.2, ∃ before after p, done = before ++ rel :: after ∧
    confine? s.root rel = some p ∧
      (before.foldl (s.bringBack dir) (t₂, [], [])).1.writable p = false

/-- A list is split by a second one, and an element is added to both. -/
theorem filter_mem_concat {done l : List Text} {rel : Text} (hnew : rel ∉ done) :
    (done ++ [rel]).filter (· ∈ l ++ [rel]) = done.filter (· ∈ l) ++ [rel] := by
  have hdone : done.filter (· ∈ l ++ [rel]) = done.filter (· ∈ l) := by
    refine List.filter_congr fun x hx => ?_
    have hne : x ≠ rel := fun h => hnew (h ▸ hx)
    simp [hne]
  rw [List.filter_append, hdone]
  simp

theorem filter_not_mem_concat {done l : List Text} {rel : Text} (hnew : rel ∉ done) :
    (done ++ [rel]).filter (· ∉ l ++ [rel]) = done.filter (· ∉ l) := by
  have hdone : done.filter (· ∉ l ++ [rel]) = done.filter (· ∉ l) := by
    refine List.filter_congr fun x hx => ?_
    have hne : x ≠ rel := fun h => hnew (h ▸ hx)
    simp [hne]
  rw [List.filter_append, hdone]
  simp

/-- A copy is still there when its turn comes. -/
theorem Brought.copied {files done : List Text} {state : FileTree × List Text × List Text}
    (hwhole : Whole s dir t₂ files) (hdone : ∀ r ∈ done, r ∈ files)
    (h : Brought s dir t₂ done state) {rel : Text} {ns : List Text} {c : Content}
    (hns : names? rel = some ns) (hcopied : Copied dir t₂ ns c) :
    Copied dir state.1 ns c ∧ state.1.isFile (below dir ns) = true := by
  have hnames := Path.isName_of_names? hns
  have hout : ¬ LiveOf (t₂.spelled s.root) done (t₂.spelled dir ++ ns) := by
    rintro ⟨rel', hrel', ns', hns', heq⟩
    exact hwhole.apart rel' (hdone rel' hrel') ns' hns' ⟨ns, heq⟩
  have hat := h.writes.file _ c hout hcopied.copy
  rw [← h.writes.spelled dir] at hat
  have hreach := h.writes.reaches hcopied.reaches
  refine ⟨⟨hreach, hat⟩, FileTree.isFile_iff.2 ⟨c, ?_⟩⟩
  refine FileTree.read_of_reaches (Path.named_below dir hnames (Path.names?_eq_some hns).2)
    hreach ?_
  rw [FileTree.spelled_below _ _ hnames, hat]

/-- A file that is written keeps what has been restored, and holds what its copy holds. -/
theorem Brought.succeeded {files done restored skipped : List Text} {rel : Text} {t t' : FileTree}
    (hwhole : Whole s dir t₂ files) (hdone : ∀ r ∈ done, r ∈ files) (hrel : rel ∈ files)
    (hnew : rel ∉ done) (h : Brought s dir t₂ done (t, restored, skipped)) {ns : List Text}
    (hns : names? rel = some ns)
    (hcopy : t.copyInto (below dir ns) (below s.root ns) = (.ok (), t')) :
    Brought s dir t₂ (done ++ [rel]) (t', restored ++ [rel], skipped) := by
  obtain ⟨ns', c, hns', hcopied⟩ := hwhole.copies rel hrel
  rw [hns] at hns'
  cases hns'
  have hnames := Path.isName_of_names? hns
  have hroot : t.spelled s.root = t₂.spelled s.root := h.writes.spelled s.root
  have hdir : t.spelled dir = t₂.spelled dir := h.writes.spelled dir
  have hwrites := t.writes_copyInto (below dir ns) (below s.root ns)
  rw [hcopy, FileTree.spelled_below _ _ hnames, hroot] at hwrites
  obtain ⟨c', hc', hreach, hat⟩ := FileTree.copyInto_eq_ok hcopy
  rw [FileTree.spelled_below _ _ hnames] at hc' hat
  rw [FileTree.spelled_below _ _ hnames] at hat
  have hsame := (h.copied hwhole hdone hns hcopied).1.copy
  rw [hc'] at hsame
  cases hsame
  have hat := hat (by
    rw [hroot, hdir]
    exact fun heq => hwhole.apart rel hrel ns hns ⟨ns, heq⟩)
  rw [hroot] at hat
  refine ⟨?_, ?_, ?_, ?_, ?_⟩
  · refine (h.writes.mono fun n => LiveOf.mono fun r hr => ?_).trans (hwrites.mono fun n hn => ?_)
    · exact List.mem_append_left _ hr
    · exact ⟨rel, by simp, ns, hns, hn⟩
  · rw [filter_mem_concat hnew, ← h.restored]
  · rw [filter_not_mem_concat hnew, ← h.skipped]
  · intro r hr
    rcases List.mem_append.1 hr with hr | hr
    · obtain ⟨ns', c', hnames', hcopied', hreach', hat'⟩ := h.holds r hr
      by_cases hsame : ns' = ns
      · -- The same file under another spelling of its path: its copy is the same as well.
        subst hsame
        have hboth := hcopied'.copy
        rw [hcopied.copy] at hboth
        cases hboth
        exact ⟨ns', c, hnames', hcopied, hreach, hat⟩
      · exact ⟨ns', c', hnames', hcopied', hwrites.reaches hreach',
          hwrites.file _ _ (fun h => hsame (List.append_cancel_left h)) hat'⟩
    · obtain rfl := List.mem_singleton.1 hr
      exact ⟨ns, c, hns, hcopied, hreach, hat⟩
  · intro r hr
    obtain ⟨before, after, p, hsplit, hp, hrefused⟩ := h.refused r hr
    exact ⟨before, after ++ [rel], p, by rw [hsplit]; simp, hp, hrefused⟩

/-- A file that is not written keeps what has been restored, and it could not be written. -/
theorem Brought.failed {done restored skipped : List Text} {rel : Text} {t t' : FileTree}
    (hnew : rel ∉ done) (h : Brought s dir t₂ done (t, restored, skipped)) {ns : List Text}
    (hns : names? rel = some ns) (hfile : t.isFile (below dir ns) = true) {fault : FileFault}
    (hcopy : t.copyInto (below dir ns) (below s.root ns) = (.error fault, t'))
    (hstate : (t, restored, skipped) = done.foldl (s.bringBack dir) (t₂, [], [])) :
    Brought s dir t₂ (done ++ [rel]) (t', restored, skipped ++ [rel]) := by
  have hwrites := FileTree.grows_copyInto hcopy
  have hrestored : restored = done.filter (· ∈ restored) := h.restored
  have hnot : rel ∉ restored := by
    intro hin
    rw [hrestored] at hin
    exact hnew (List.mem_filter.1 hin).1
  refine ⟨?_, ?_, ?_, ?_, ?_⟩
  · refine (h.writes.mono fun n => LiveOf.mono fun r hr => ?_).trans
      (hwrites.mono fun _ h => h.elim)
    exact List.mem_append_left _ hr
  · have hlast : [rel].filter (· ∈ restored) = [] := by simp [hnot]
    rw [List.filter_append, hlast, List.append_nil]
    exact hrestored
  · have hlast : [rel].filter (· ∉ restored) = [rel] := by simp [hnot]
    rw [List.filter_append, hlast]
    exact congrArg (· ++ [rel]) h.skipped
  · intro r hr
    obtain ⟨ns', c', hnames', hcopied', hreach', hat'⟩ := h.holds r hr
    exact ⟨ns', c', hnames', hcopied', hwrites.reaches hreach',
      hwrites.file _ _ (fun h => h) hat'⟩
  · intro r hr
    rcases List.mem_append.1 hr with hr | hr
    · obtain ⟨before, after, p, hsplit, hp, hrefused⟩ := h.refused r hr
      exact ⟨before, after ++ [rel], p, by rw [hsplit]; simp, hp, hrefused⟩
    · obtain rfl := List.mem_singleton.1 hr
      refine ⟨done, [], below s.root ns, rfl, Path.confine?_eq_some.2 ⟨ns, hns, rfl⟩, ?_⟩
      rw [← hstate, ← FileTree.copyInto_isOk hfile, hcopy]
      rfl

/-- One more file is restored, or it cannot be written. -/
theorem Brought.bringBack {files done : List Text} {rel : Text}
    {state : FileTree × List Text × List Text} (hwhole : Whole s dir t₂ files)
    (hdone : ∀ r ∈ done, r ∈ files) (hrel : rel ∈ files) (hnew : rel ∉ done)
    (hstate : state = done.foldl (s.bringBack dir) (t₂, [], []))
    (h : Brought s dir t₂ done state) :
    Brought s dir t₂ (done ++ [rel]) (s.bringBack dir state rel) := by
  obtain ⟨ns, c, hns, hcopied⟩ := hwhole.copies rel hrel
  have hfile := (h.copied hwhole hdone hns hcopied).2
  obtain ⟨t, restored, skipped⟩ := state
  rcases bringBack_cases (rfl : s.bringBack dir (t, restored, skipped) rel = _)
    with ⟨hends, -⟩ | ⟨ns', t', hns', hfile', hcopy⟩
  · rw [ends?_eq_some.2 ⟨ns, hns, rfl, rfl, hfile⟩] at hends
    cases hends
  rcases hcopy with ⟨hcopy, heq⟩ | ⟨fault, hcopy, heq⟩
  · rw [heq]
    exact h.succeeded hwhole hdone hrel hnew hns' hcopy
  · rw [heq]
    exact h.failed hnew hns' hfile' hcopy hstate

/-- **A whole manifest**: its files are restored or skipped in order, those restored hold what
the snapshot holds, and those skipped could not be written. -/
theorem brought_all {files : List Text} (hwhole : Whole s dir t₂ files) (hnodup : files.Nodup) :
    Brought s dir t₂ files (files.foldl (s.bringBack dir) (t₂, [], [])) := by
  suffices h : ∀ done, done <+: files →
      Brought s dir t₂ done (done.foldl (s.bringBack dir) (t₂, [], [])) from
    h files (List.prefix_refl files)
  intro done
  induction done using List.reverseRecOn with
  | nil =>
    exact fun _ => ⟨FileTree.Writes.refl _ _, rfl, rfl, fun _ h => (nomatch h),
      fun _ h => (nomatch h)⟩
  | append_singleton done rel ih =>
    intro hpre
    have hdone : done <+: files := (List.prefix_append done [rel]).trans hpre
    have hnew := (List.nodup_append.1 (hnodup.sublist hpre.sublist)).2.2
    rw [List.foldl_append]
    refine (ih hdone).bringBack hwhole (fun r hr => hdone.subset hr)
      (hpre.subset (by simp)) (fun hin => ?_) rfl
    exact hnew rel hin rel (by simp) rfl

end LayeredConfig.SnapshotStore
