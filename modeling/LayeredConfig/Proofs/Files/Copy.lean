import LayeredConfig.Proofs.Files.Write

/-!
# Copying into a directory

A copy holds what its source holds, and nothing else is written. It fails only for its
destination, and never below a directory in which nothing stands in its way.
-/
namespace LayeredConfig.FileTree

open LayeredConfig.Path (join below parent? IsName Named)

/-- The tree with the directory of a path made. -/
def withParent (t : FileTree) (p : Path) : Except FileFault Unit × FileTree :=
  match parent? p with
  | some up => t.ensureDirectory up
  | none => (.ok (), t)

/-- Whether a file can be written at a path, for which its directory is made. -/
def writable (t : FileTree) (p : Path) : Bool :=
  match t.withParent p with
  | (.ok (), t) => (t.target p).isOk
  | (.error _, _) => false

theorem grows_withParent (t : FileTree) (p : Path) : Grows t (t.withParent p).2 := by
  unfold withParent
  cases parent? p with
  | none => exact Writes.refl _ t
  | some up => exact grows_ensureDirectory t up

theorem copyInto_eq (t : FileTree) (source dest : Path) :
    t.copyInto source dest = match t.withParent dest with
      | (.error f, u) => (.error f, u)
      | (.ok (), u) => match u.copy source dest with
        | .ok t' => (.ok (), t')
        | .error f => (.error f, u) := rfl

theorem copy_eq_ok {t t' : FileTree} {source dest : Path} :
    t.copy source dest = .ok t' ↔ ∃ c names, t.read source = .ok c ∧
      t.target dest = .ok names ∧
      t' = t.put names (.file (if t.spelled source = names then .text [] else c)) := by
  rw [copy, Outcome.bind_eq_ok]
  constructor
  · rintro ⟨e, he, h⟩
    cases e with
    | directory => cases h
    | file c =>
      obtain ⟨names, htarget, h⟩ := Outcome.bind_eq_ok.1 h
      obtain ⟨place, hplace, h⟩ := Outcome.bind_eq_ok.1 h
      cases h
      rw [(locate_eq_ok hplace).2.1]
      exact ⟨c, names, read_eq_stat.2 he, htarget, rfl⟩
  · rintro ⟨c, names, hread, htarget, rfl⟩
    have hstat := read_eq_stat.1 hread
    refine ⟨.file c, hstat, ?_⟩
    obtain ⟨place, hplace, -⟩ := Outcome.bind_eq_ok.1 hstat
    simp only [htarget, hplace, Outcome.ok_bind, (locate_eq_ok hplace).2.1]

/-- Whatever comes of a copy, no file but its destination is written. -/
theorem writes_copyInto (t : FileTree) (source dest : Path) :
    Writes (· = t.spelled dest) t (t.copyInto source dest).2 := by
  have hgrows := (grows_withParent t dest).mono (M := (· = t.spelled dest)) fun _ h => h.elim
  rw [copyInto_eq]
  rcases hu : t.withParent dest with ⟨f | _, u⟩
  · rwa [hu] at hgrows
  rw [hu] at hgrows
  simp only
  cases hcopy : u.copy source dest with
  | error f => exact hgrows
  | ok t' =>
    obtain ⟨c, names, -, htarget, rfl⟩ := copy_eq_ok.1 hcopy
    have hput := (writes_target htarget (if u.spelled source = names then .text [] else c)).1
    rw [hgrows.spelled dest] at hput
    exact hgrows.trans hput

/-- A copy that fails writes no file. -/
theorem grows_copyInto {t t' : FileTree} {source dest : Path} {f : FileFault}
    (h : t.copyInto source dest = (.error f, t')) : Grows t t' := by
  have hgrows := grows_withParent t dest
  rw [copyInto_eq] at h
  rcases hu : t.withParent dest with ⟨f' | _, u⟩
  · rw [hu] at hgrows h
    cases h
    exact hgrows
  rw [hu] at hgrows h
  simp only at h
  cases hcopy : u.copy source dest with
  | error f' =>
    rw [hcopy] at h
    cases h
    exact hgrows
  | ok t₁ =>
    rw [hcopy] at h
    cases h

/-- A copy that succeeds holds what its source holds, unless they are one file. -/
theorem copyInto_eq_ok {t t' : FileTree} {source dest : Path}
    (h : t.copyInto source dest = (.ok (), t')) :
    ∃ c, t.at? (t.spelled source) = some (.file c) ∧ t'.Reaches dest ∧
      (t.spelled source ≠ t.spelled dest →
        t'.at? (t.spelled dest) = some (.file c)) := by
  have hgrows := grows_withParent t dest
  rw [copyInto_eq] at h
  rcases hu : t.withParent dest with ⟨f | _, u⟩
  · rw [hu] at h
    cases h
  rw [hu] at hgrows h
  cases hcopy : u.copy source dest with
  | error f =>
    simp only [hcopy] at h
    cases h
  | ok t₁ =>
    simp only [hcopy] at h
    cases h
    obtain ⟨c, names, hread, htarget, rfl⟩ := copy_eq_ok.1 hcopy
    obtain ⟨hput, hat⟩ :=
      writes_target htarget (if u.spelled source = names then .text [] else c)
    obtain ⟨hreach, hnames, -⟩ := target_eq_ok htarget
    have hc := (read_eq_ok hread).2
    rw [hgrows.spelled] at hc
    rw [hnames, hgrows.spelled, hgrows.spelled] at hat
    refine ⟨c, hgrows.file_before (fun h => h) hc, hput.reaches hreach, fun hne => ?_⟩
    rw [hnames, hgrows.spelled, hgrows.spelled]
    rwa [if_neg hne] at hat ⊢

/-- A file is copied exactly when its destination can be written. -/
theorem copyInto_isOk {t : FileTree} {source : Path} (hsource : t.isFile source = true)
    (dest : Path) : (t.copyInto source dest).1.isOk = t.writable dest := by
  have hgrows := grows_withParent t dest
  rw [copyInto_eq, writable]
  rcases hu : t.withParent dest with ⟨f | _, u⟩
  · rfl
  rw [hu] at hgrows
  obtain ⟨c, hread⟩ := isFile_iff.1 (hgrows.isFile (fun h => h) hsource)
  simp only
  cases htarget : u.target dest with
  | error f =>
    cases hcopy : u.copy source dest with
    | error f => rfl
    | ok t' =>
      obtain ⟨_, names, -, hnames, -⟩ := copy_eq_ok.1 hcopy
      rw [htarget] at hnames
      cases hnames
  | ok names =>
    rw [copy_eq_ok.2 ⟨c, names, hread, htarget, rfl⟩]
    rfl

end LayeredConfig.FileTree
