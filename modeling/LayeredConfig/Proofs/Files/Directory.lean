import LayeredConfig.Proofs.Files.Copy

/-!
# What a directory lists

A directory lists the last names of the entries right below it. Writing never adds an entry with
names that are there already, so that what is new is listed once.
-/
namespace LayeredConfig.FileTree

variable {t t' t'' : FileTree} {n : Names}

/-- The names of the entries. -/
def keys (t : FileTree) : List Names := t.entries.map (·.1)

theorem mem_keys_iff (hn : n ≠ []) : n ∈ t.keys ↔ t.at? n ≠ none := by
  rw [at?, if_neg (by simpa using hn), keys, Ne, List.lookup_eq_none_iff]
  simp

theorem isChild_iff {k : Names} : isChild n k = true ↔ ∃ name, k = n ++ [name] := by
  rw [isChild, Bool.and_eq_true, decide_eq_true_eq, List.isPrefixOf_iff_prefix]
  constructor
  · rintro ⟨hlength, rest, rfl⟩
    rw [List.length_append, Nat.add_left_cancel_iff, List.length_eq_one_iff] at hlength
    obtain ⟨name, rfl⟩ := hlength
    exact ⟨name, rfl⟩
  · rintro ⟨name, rfl⟩
    exact ⟨by simp, List.prefix_append _ _⟩

theorem children_eq (t : FileTree) (n : Names) :
    t.children n = sortNames ((t.keys.filter (isChild n)).filterMap List.getLast?) := by
  rw [children, keys, List.filter_map, List.filterMap_map]
  rfl

/-- A name is listed as often as it is there. -/
theorem count_children (t : FileTree) (n : Names) (name : Text) :
    (t.children n).count name = t.keys.count (n ++ [name]) := by
  rw [children_eq, sortNames, (List.mergeSort_perm _ _).count_eq]
  induction t.keys with
  | nil => rfl
  | cons k ks ih =>
    by_cases hk : isChild n k = true
    · obtain ⟨other, rfl⟩ := isChild_iff.1 hk
      rw [List.filter_cons_of_pos hk, List.filterMap_cons_some (List.getLast?_concat),
        List.count_cons, List.count_cons, ih]
      simp
    · rw [List.filter_cons_of_neg hk, ih, List.count_cons_of_ne]
      rintro rfl
      exact hk (isChild_iff.2 ⟨name, rfl⟩)

theorem mem_children_iff {name : Text} : name ∈ t.children n ↔ t.at? (n ++ [name]) ≠ none := by
  rw [← mem_keys_iff (by simp), ← List.count_pos_iff, count_children, List.count_pos_iff]

/-- What is there can be listed if it is a directory. -/
theorem list_eq_ok {p : Path} {names : List Text} :
    t.list p = .ok names ↔ t.isDirectory p = true ∧ names = t.children (t.spelled p) := by
  rw [isDirectory_iff, list, stat, Outcome.bind_eq_ok]
  constructor
  · rintro ⟨place, hplace, h⟩
    obtain ⟨_, hdir, h⟩ := Outcome.bind_eq_ok.1 h
    cases h
    rw [hplace, Outcome.ok_bind, needDirectory_eq_ok.1 hdir, (locate_eq_ok hplace).2.1]
    exact ⟨rfl, rfl⟩
  · rintro ⟨hstat, rfl⟩
    have hat := (stat_eq_ok (t := t) (p := p) hstat).2
    obtain ⟨place, hplace, -⟩ := Outcome.bind_eq_ok.1 hstat
    have hnames := (locate_eq_ok hplace).2.1
    rw [← hnames] at hat ⊢
    exact ⟨place, hplace, by rw [needDirectory_eq_ok.2 hat]; rfl⟩

/-- Whatever is added is there once. -/
def AddsOnce (t t' : FileTree) : Prop := ∀ n, t'.keys.count n ≤ max 1 (t.keys.count n)

theorem AddsOnce.refl (t : FileTree) : AddsOnce t t := fun _ => Nat.le_max_right _ _

theorem AddsOnce.trans (h : AddsOnce t t') (h' : AddsOnce t' t'') : AddsOnce t t'' := by
  intro n
  have h₁ := h n
  have h₂ := h' n
  omega

theorem keys_put (t : FileTree) (names : Names) (e : FileEntry) :
    (t.put names e).keys = if names ∈ t.keys then t.keys else t.keys ++ [names] := by
  have hany : t.entries.any (·.1 = names) = true ↔ names ∈ t.keys := by
    simp [keys]
  unfold put
  by_cases hmem : names ∈ t.keys
  · rw [if_pos (hany.2 hmem), if_pos hmem, keys, List.map_map]
    refine List.map_congr_left fun e he => ?_
    simp only [Function.comp_apply]
    split
    · next heq => exact heq.symm
    · rfl
  · rw [if_neg (mt hany.1 hmem), if_neg hmem, keys, List.map_append]
    rfl

theorem addsOnce_put (t : FileTree) (names : Names) (e : FileEntry) :
    AddsOnce t (t.put names e) := by
  intro n
  rw [keys_put]
  split
  · exact Nat.le_max_right _ _
  · next hmem =>
    rw [List.count_append, List.count_singleton]
    split
    · next hn =>
      obtain rfl : names = n := by simpa using hn
      rw [List.count_eq_zero.2 hmem]
      exact Nat.le_max_left _ _
    · exact Nat.le_max_right _ _

theorem Made.addsOnce {p : Path} (h : Made p t t') : AddsOnce t t' := by
  induction h with
  | refl p t => exact .refl t
  | above _ _ ih => exact ih
  | step _ hp ih =>
    obtain ⟨-, -, -, rfl⟩ := createDirectory_eq_ok hp
    exact ih.trans (addsOnce_put _ _ _)

theorem addsOnce_ensureDirectory (t : FileTree) (p : Path) : AddsOnce t (t.ensureDirectory p).2 :=
  (made_createDirectories _ t p).addsOnce

theorem addsOnce_copyInto (t : FileTree) (source dest : Path) :
    AddsOnce t (t.copyInto source dest).2 := by
  have hway : AddsOnce t (t.withParent dest).2 := by
    unfold withParent
    cases Path.parent? dest with
    | none => exact .refl t
    | some up => exact addsOnce_ensureDirectory t up
  rw [copyInto_eq]
  rcases hu : t.withParent dest with ⟨f | _, u⟩
  · rwa [hu] at hway
  rw [hu] at hway
  simp only
  cases hcopy : u.copy source dest with
  | error f => exact hway
  | ok t' =>
    obtain ⟨c, names, -, -, rfl⟩ := copy_eq_ok.1 hcopy
    exact hway.trans (addsOnce_put _ _ _)

/-- A name that is new is listed once. -/
theorem AddsOnce.count_children (h : AddsOnce t t') {name : Text}
    (hold : t.at? (n ++ [name]) = none)
    (hnew : t'.at? (n ++ [name]) ≠ none) : (t'.children n).count name = 1 := by
  have hne : n ++ [name] ≠ [] := by simp
  have hzero : t.keys.count (n ++ [name]) = 0 :=
    List.count_eq_zero.2 fun hmem => (mem_keys_iff hne).1 hmem hold
  have hpos := List.count_pos_iff.2 ((mem_keys_iff hne).2 hnew)
  have hle := h (n ++ [name])
  rw [FileTree.count_children]
  omega

end LayeredConfig.FileTree
