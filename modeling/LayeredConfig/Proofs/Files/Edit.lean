import LayeredConfig.Proofs.Files.Write

/-!
# Edits elsewhere

What other programs do to a tree between two runs: files are written, directories are made, and
entries are removed with all that lies below them. Edits outside a directory leave what lies in
it as it is. Edits of files that are there leave all directories as they are, too, and no file is
new.
-/
namespace LayeredConfig.FileTree

/-- A tree after edits and deletions outside of names: at them and below them nothing has
changed. -/
structure EditedOutside (names : Names) (t t' : FileTree) : Prop where
  workingDirectory : t'.workingDirectory = t.workingDirectory
  kept : ∀ ns, t'.at? (names ++ ns) = t.at? (names ++ ns)

theorem EditedOutside.refl (names : Names) (t : FileTree) : EditedOutside names t t :=
  ⟨rfl, fun _ => rfl⟩

theorem EditedOutside.trans {names : Names} {t t' t'' : FileTree}
    (h : EditedOutside names t t') (h' : EditedOutside names t' t'') :
    EditedOutside names t t'' :=
  ⟨h'.workingDirectory.trans h.workingDirectory, fun ns => (h'.kept ns).trans (h.kept ns)⟩

inductive Edit where
  | write (p : Path) (c : Content)
  | makeDirectory (p : Path)
  | remove (p : Path)
deriving DecidableEq

def Edit.outcome (t : FileTree) : Edit → Except FileFault FileTree
  | .write p c => t.write p c
  | .makeDirectory p => t.createDirectory p
  | .remove p => t.remove p

/-- The tree after an edit. One that fails changes nothing. -/
def Edit.apply (t : FileTree) (e : Edit) : FileTree :=
  match e.outcome t with
  | .ok t' => t'
  | .error _ => t

/-- An edit of something that is not at names or below them. What is removed is not above them
either. -/
def Edit.IsOutside (names : Names) (t : FileTree) : Edit → Prop
  | .write p _ | .makeDirectory p => ¬ names <+: t.spelled p
  | .remove p => ¬ names <+: t.spelled p ∧ ¬ t.spelled p <+: names

instance (names : Names) (t : FileTree) : (e : Edit) → Decidable (e.IsOutside names t)
  | .write p _ | .makeDirectory p => inferInstanceAs (Decidable (¬ names <+: t.spelled p))
  | .remove p =>
    inferInstanceAs (Decidable (¬ names <+: t.spelled p ∧ ¬ t.spelled p <+: names))

theorem editedOutside_put {names at' : Names} {t : FileTree} {e : FileEntry} (hne : at' ≠ [])
    (h : ¬ names <+: at') : EditedOutside names t (t.put at' e) := by
  refine ⟨workingDirectory_put t at' e, fun ns => ?_⟩
  rw [at?_put t hne, if_neg]
  rintro rfl
  exact h (List.prefix_append names ns)

theorem lookup_filter_of_pos {entries : List (Names × FileEntry)} (keep : Names → Bool)
    {names : Names} (h : keep names = true) :
    (entries.filter fun x => keep x.1).lookup names = entries.lookup names := by
  induction entries with
  | nil => rfl
  | cons x entries ih =>
    rw [List.filter_cons, List.lookup_cons]
    by_cases hx : keep x.1 = true
    · rw [if_pos hx, List.lookup_cons, ih]
    · have hne : names ≠ x.1 := by
        rintro rfl
        exact hx h
      rw [if_neg hx, beq_false_of_ne hne, ih]

theorem editedOutside_of_outcome {names : Names} {t t' : FileTree} {e : Edit}
    (h : e.IsOutside names t) (he : e.outcome t = .ok t') : EditedOutside names t t' := by
  cases e with
  | write p c =>
    obtain ⟨at', htarget, rfl⟩ := write_eq_ok.1 he
    obtain ⟨-, rfl, hold, -⟩ := target_eq_ok htarget
    exact editedOutside_put (fun hnil => hold (by rw [hnil, at?_nil])) h
  | makeDirectory p =>
    obtain ⟨-, hnone, -, rfl⟩ := createDirectory_eq_ok he
    refine editedOutside_put (fun hnil => ?_) h
    rw [hnil, at?_nil] at hnone
    cases hnone
  | remove p =>
    obtain ⟨hbelow, habove⟩ := h
    obtain ⟨place, hplace, he⟩ := Outcome.bind_eq_ok.1 he
    rw [(locate_eq_ok hplace).2.1] at he
    cases hat : t.at? (t.spelled p) with
    | none =>
      simp only [hat] at he
      cases he
    | some entry =>
      simp only [hat] at he
      cases he
      refine ⟨rfl, fun ns => ?_⟩
      cases hns : names ++ ns with
      | nil => rfl
      | cons a m =>
        -- Of two names above the same ones, one is above the other.
        have hout : ¬ t.spelled p <+: names ++ ns := fun hpre =>
          (List.prefix_or_prefix_of_prefix hpre (List.prefix_append names ns)).elim habove hbelow
        rw [hns, ← List.isPrefixOf_iff_prefix] at hout
        exact lookup_filter_of_pos (fun n => ¬ (t.spelled p).isPrefixOf n) (by simpa using hout)

/-- **An edit outside of names keeps what is there.** -/
theorem editedOutside_apply {names : Names} {t : FileTree} {e : Edit}
    (h : e.IsOutside names t) : EditedOutside names t (e.apply t) := by
  unfold Edit.apply
  cases he : e.outcome t with
  | error f => exact EditedOutside.refl names t
  | ok t' => exact editedOutside_of_outcome h he

/-- The tree after edits, one after the other. -/
def Edit.run (t : FileTree) (edits : List Edit) : FileTree := edits.foldl Edit.apply t

/-- Edits one after the other, each outside of names in the tree that it finds. -/
def Edit.AllOutside (names : Names) (t : FileTree) : List Edit → Prop
  | [] => True
  | e :: edits => e.IsOutside names t ∧ AllOutside names (e.apply t) edits

instance Edit.decidableAllOutside (names : Names) (t : FileTree) (edits : List Edit) :
    Decidable (AllOutside names t edits) :=
  match edits with
  | [] => .isTrue trivial
  | e :: edits =>
    have := decidableAllOutside names (e.apply t) edits
    inferInstanceAs (Decidable (e.IsOutside names t ∧ AllOutside names (e.apply t) edits))

/-- **Any sequence of edits outside of names keeps what is there.** -/
theorem editedOutside_run {names : Names} {t : FileTree} {edits : List Edit}
    (h : Edit.AllOutside names t edits) : EditedOutside names t (Edit.run t edits) := by
  induction edits generalizing t with
  | nil => exact EditedOutside.refl names t
  | cons e edits ih => exact (editedOutside_apply h.1).trans (ih h.2)

/-- A tree after files that were there have been modified or deleted, outside of names. -/
structure FilesEdited (names : Names) (t t' : FileTree) : Prop
    extends EditedOutside names t t' where
  isTree : t'.IsTree
  directory : ∀ n, t'.at? n = some .directory ↔ t.at? n = some .directory
  file : ∀ n c, t'.at? n = some (.file c) → ∃ c', t.at? n = some (.file c')

theorem FilesEdited.refl (names : Names) {t : FileTree} (ht : t.IsTree) : FilesEdited names t t :=
  ⟨.refl names t, ht, fun _ => Iff.rfl, fun _ c h => ⟨c, h⟩⟩

theorem FilesEdited.trans {names : Names} {t t' t'' : FileTree} (h : FilesEdited names t t')
    (h' : FilesEdited names t' t'') : FilesEdited names t t'' where
  toEditedOutside := h.toEditedOutside.trans h'.toEditedOutside
  isTree := h'.isTree
  directory n := (h'.directory n).trans (h.directory n)
  file n c hc := by
    obtain ⟨c', hc'⟩ := h'.file n c hc
    exact h.file n c' hc'

/-- An edit of a file that is there, neither at names nor below them. -/
def Edit.IsOfFile (names : Names) (t : FileTree) : Edit → Prop
  | .write p _ | .remove p => t.isFile p = true ∧ ¬ names <+: t.spelled p
  | .makeDirectory _ => False

instance (names : Names) (t : FileTree) : (e : Edit) → Decidable (e.IsOfFile names t)
  | .write p _ | .remove p =>
    inferInstanceAs (Decidable (t.isFile p = true ∧ ¬ names <+: t.spelled p))
  | .makeDirectory _ => inferInstanceAs (Decidable False)

/-- Nothing lies below a file. -/
theorem IsTree.nothing_below_file {t : FileTree} (ht : t.IsTree) {names : Names} {c : Content}
    (h : t.at? names = some (.file c)) {ns : List Text} (hne : ns ≠ []) :
    t.at? (names ++ ns) = none := by
  obtain ⟨s, ns, rfl⟩ := List.exists_cons_of_ne_nil hne
  have hs : t.at? (names ++ [s]) = none := by
    cases he : t.at? (names ++ [s]) with
    | none => rfl
    | some e =>
      have hdir := ht _ e (by simp) he
      rw [List.dropLast_concat, h] at hdir
      cases hdir
  rw [← List.singleton_append, ← List.append_assoc]
  exact ht.nothing_below hs ns

/-- What becomes of one file, and of nothing else. -/
theorem filesEdited_of_one {names at' : Names} {t t' : FileTree} {c : Content} (ht : t.IsTree)
    (hwd : t'.workingDirectory = t.workingDirectory) (hout : ¬ names <+: at')
    (hold : t.at? at' = some (.file c)) (hsame : ∀ n, n ≠ at' → t'.at? n = t.at? n)
    (hnew : t'.at? at' ≠ some .directory) : FilesEdited names t t' := by
  have hdirectory : ∀ n, t'.at? n = some .directory ↔ t.at? n = some .directory := by
    intro n
    by_cases hn : n = at'
    · subst hn
      rw [hold]
      exact ⟨fun hd => absurd hd hnew, fun hd => nomatch hd⟩
    · rw [hsame n hn]
  have hfile : ∀ n e, t'.at? n = some e → ∃ e', t.at? n = some e' := by
    intro n e he
    by_cases hn : n = at'
    · exact ⟨_, hn ▸ hold⟩
    · exact ⟨e, hsame n hn ▸ he⟩
  refine ⟨⟨hwd, fun ns => hsame _ fun hn => hout ⟨ns, hn⟩⟩, fun n e hne he => ?_, hdirectory,
    fun n c' hc' => ?_⟩
  · obtain ⟨e', he'⟩ := hfile n e he
    exact (hdirectory _).2 (ht n e' hne he')
  · obtain ⟨e', he'⟩ := hfile n _ hc'
    cases e' with
    | file c'' => exact ⟨c'', he'⟩
    | directory =>
      rw [(hdirectory n).2 he'] at hc'
      cases hc'

theorem lookup_filter_of_neg {entries : List (Names × FileEntry)} (keep : Names → Bool)
    {names : Names} (h : keep names = false) :
    (entries.filter fun x => keep x.1).lookup names = none := by
  induction entries with
  | nil => rfl
  | cons x entries ih =>
    rw [List.filter_cons]
    by_cases hx : keep x.1 = true
    · have hne : names ≠ x.1 := by
        rintro rfl
        rw [h] at hx
        cases hx
      rw [if_pos hx, List.lookup_cons, beq_false_of_ne hne, ih]
    · rw [if_neg hx, ih]

/-- What is removed takes with it what lies below, and nothing else. -/
theorem at?_of_remove {t t' : FileTree} {p : Path} (h : t.remove p = .ok t') {n : Names}
    (hn : n ≠ []) :
    t'.workingDirectory = t.workingDirectory ∧
      t'.at? n = if t.spelled p <+: n then none else t.at? n := by
  obtain ⟨place, hplace, h⟩ := Outcome.bind_eq_ok.1 h
  rw [(locate_eq_ok hplace).2.1] at h
  cases hat : t.at? (t.spelled p) with
  | none =>
    simp only [hat] at h
    cases h
  | some entry =>
    simp only [hat] at h
    cases h
    refine ⟨rfl, ?_⟩
    have hempty : n.isEmpty = false := by simpa using hn
    simp only [at?, hempty, Bool.false_eq_true, if_false]
    split
    · next hbelow =>
      exact lookup_filter_of_neg (fun n => ¬ (t.spelled p).isPrefixOf n) (by simpa using hbelow)
    · next hbelow =>
      exact lookup_filter_of_pos (fun n => ¬ (t.spelled p).isPrefixOf n) (by simpa using hbelow)

theorem filesEdited_of_outcome {names : Names} {t t' : FileTree} {e : Edit} (ht : t.IsTree)
    (h : e.IsOfFile names t) (he : e.outcome t = .ok t') : FilesEdited names t t' := by
  cases e with
  | makeDirectory p => exact h.elim
  | write p c =>
    obtain ⟨hfile, hout⟩ := h
    obtain ⟨c', hc'⟩ := isFile_iff.1 hfile
    obtain ⟨at', htarget, rfl⟩ := write_eq_ok.1 he
    obtain ⟨-, rfl, hold, -⟩ := target_eq_ok htarget
    have hne : t.spelled p ≠ [] := fun hnil => hold (by rw [hnil, at?_nil])
    have hat := at?_put t hne (.file c)
    refine filesEdited_of_one ht (workingDirectory_put _ _ _) hout (read_eq_ok hc').2
      (fun n hn => by rw [hat, if_neg hn]) ?_
    rw [hat, if_pos rfl]
    exact fun hd => nomatch hd
  | remove p =>
    obtain ⟨hfile, hout⟩ := h
    obtain ⟨c', hc'⟩ := isFile_iff.1 hfile
    have hold := (read_eq_ok hc').2
    have hne : t.spelled p ≠ [] := by
      intro hnil
      rw [hnil, at?_nil] at hold
      cases hold
    obtain ⟨hwd, hremoved⟩ := at?_of_remove he hne
    refine filesEdited_of_one ht hwd hout hold (fun n hn => ?_) ?_
    · by_cases hnil : n = []
      · rw [hnil, at?_nil, at?_nil]
      rw [(at?_of_remove he hnil).2]
      split
      · next hbelow =>
        -- Below a file there was nothing to be removed.
        obtain ⟨ns, rfl⟩ := hbelow
        rw [ht.nothing_below_file hold fun hns => hn (by rw [hns, List.append_nil])]
      · rfl
    · rw [hremoved, if_pos (List.prefix_refl _)]
      exact fun hd => nomatch hd

/-- **An edit of a file keeps the directories**, and there is no file that was not there. -/
theorem filesEdited_apply {names : Names} {t : FileTree} {e : Edit} (ht : t.IsTree)
    (h : e.IsOfFile names t) : FilesEdited names t (e.apply t) := by
  unfold Edit.apply
  cases he : e.outcome t with
  | error f => exact FilesEdited.refl names ht
  | ok t' => exact filesEdited_of_outcome ht h he

/-- Edits one after the other, each of a file in the tree that it finds. -/
def Edit.AllOfFiles (names : Names) (t : FileTree) : List Edit → Prop
  | [] => True
  | e :: edits => e.IsOfFile names t ∧ AllOfFiles names (e.apply t) edits

instance Edit.decidableAllOfFiles (names : Names) (t : FileTree) (edits : List Edit) :
    Decidable (AllOfFiles names t edits) :=
  match edits with
  | [] => .isTrue trivial
  | e :: edits =>
    have := decidableAllOfFiles names (e.apply t) edits
    inferInstanceAs (Decidable (e.IsOfFile names t ∧ AllOfFiles names (e.apply t) edits))

/-- **Any sequence of edits of files keeps the directories**, and there is no new file. -/
theorem filesEdited_run {names : Names} {t : FileTree} {edits : List Edit} (ht : t.IsTree)
    (h : Edit.AllOfFiles names t edits) : FilesEdited names t (Edit.run t edits) := by
  induction edits generalizing t with
  | nil => exact FilesEdited.refl names ht
  | cons e edits ih =>
    have hfirst := filesEdited_apply ht h.1
    exact hfirst.trans (ih hfirst.isTree h.2)

end LayeredConfig.FileTree
