import LayeredConfig.Proofs.Files.Way

/-!
# What is made on the way

Whatever comes of it, making the directories of a path makes nothing but directories, at names that
the path passes and where nothing was. A copy makes no more than that and writes its destination.
-/
namespace LayeredConfig

open LayeredConfig.Path (parent? segment? ofSegments dropBlankEnd steps join below IsName)

namespace Path

theorem steps_ofSegments {first : Text} {kept : List Text}
    (h : ∀ part ∈ first :: kept, '/' ∉ part) :
    steps (ofSegments (first :: kept)) = (first :: kept).filterMap segment? := by
  unfold ofSegments
  split
  · next hroot =>
    rw [hroot]
    rfl
  · rw [steps]
    exact congrArg (List.filterMap segment?) (Text.splitAll_joinWith (List.cons_ne_nil _ _) h)

/-- A path without steps that has a last component other than the root is relative. -/
theorem isAbsolute_of_no_steps {p : Path} {c : Component} (hsteps : steps p = [])
    (hlast : (components p).getLast? = some c) (hc : c ≠ .root) : isAbsolute p = false := by
  obtain ⟨lead, hp, hlead, habs⟩ := components_eq p
  rw [hp, hsteps, List.append_nil] at hlast
  rw [Bool.eq_false_iff]
  intro hroot
  have hmem := habs.2 hroot
  rcases hlead with rfl | rfl | rfl
  · cases hlast
  · cases hlast
    exact hc rfl
  · exact absurd hmem (by decide)

/-- The parent of a path takes the first of its steps, from where the path starts. -/
theorem steps_parent? {p up : Path} (h : parent? p = some up) :
    steps up <+: steps p ∧ isAbsolute up = isAbsolute p := by
  obtain ⟨first, rest, hp⟩ := List.exists_cons_of_ne_nil (Text.splitAll_ne_nil '/' p)
  obtain ⟨kept, blanks, hkept, rfl, hblanks⟩ := dropBlankEnd_cons first rest
  have hnone : blanks.filterMap segment? = [] := List.filterMap_eq_nil_iff.2 hblanks
  unfold parent? at h
  rw [hp, hkept] at h
  cases hlast : (components p).getLast? with
  | none =>
    simp only [hlast] at h
    cases h
  | some c =>
    have hc : c ≠ .root := by
      rintro rfl
      simp only [hlast] at h
      cases h
    have hup : (if ((first :: kept).dropLast).isEmpty then some []
        else some (ofSegments (dropBlankEnd (first :: kept).dropLast))) = some up := by
      cases c with
      | root => exact absurd rfl hc
      | _ => simpa only [hlast] using h
    rcases List.eq_nil_or_concat kept with rfl | ⟨front, last, rfl⟩
    · cases hup
      refine ⟨List.nil_prefix, ?_⟩
      -- With a slash in front the path would have nothing after its root.
      cases hfirst : segment? first with
      | none =>
        refine (isAbsolute_of_no_steps ?_ hlast hc).symm
        rw [steps, hp, List.nil_append, List.filterMap_cons, hfirst, hnone]
      | some x =>
        refine (Bool.eq_false_iff.2 fun habs => ?_).symm
        cases p with
        | nil => cases habs
        | cons a s =>
          obtain rfl : a = '/' := by simpa [isAbsolute] using habs
          rw [Text.splitAll_sep_cons] at hp
          rw [← (List.cons.inj hp).1] at hfirst
          cases hfirst
    · rw [List.concat_eq_append] at hp hup
      rw [← List.cons_append, List.dropLast_concat] at hup
      obtain ⟨kept', blanks', hkept', rfl, -⟩ := dropBlankEnd_cons first front
      rw [hkept', List.isEmpty_cons, if_neg Bool.false_ne_true] at hup
      cases hup
      have hparts : Text.splitAll '/' p = (first :: kept') ++ (blanks' ++ [last] ++ blanks) := by
        rw [hp]
        simp
      have hslash : ∀ part ∈ first :: kept', '/' ∉ part := fun part hpart =>
        Text.not_mem_of_mem_splitAll (s := p) (by rw [hparts]; exact List.mem_append_left _ hpart)
      constructor
      · rw [steps_ofSegments hslash, steps, hparts, List.filterMap_append]
        exact List.prefix_append _ _
      · refine isAbsolute_of_prefix ?_ (ofSegments_ne_nil _ _)
        have hrest : blanks' ++ [last] ++ blanks ≠ [] := by simp
        have hwhole := ofSegments_prefix first kept' hrest
        rwa [← List.cons_append, ← hparts, Text.joinWith_splitAll] at hwhole

end Path

namespace FileTree

variable {t u v : FileTree} {p q : Path} {n : Names}

theorem passes_of_steps (hsteps : steps q <+: steps p)
    (habs : Path.isAbsolute q = Path.isAbsolute p) (h : t.Passes q n) : t.Passes p n := by
  obtain ⟨front, hfront, rfl⟩ := h
  exact ⟨front, hfront.trans hsteps, by rw [start, start, habs]⟩

theorem passes_eq (hwd : u.workingDirectory = t.workingDirectory) :
    u.Passes p n ↔ t.Passes p n := by
  unfold Passes
  rw [start_eq hwd]

/-- A path with names below a base passes what the base passes, and then the names. -/
theorem passes_below {ns : List Text} (hns : ∀ s ∈ ns, IsName s) (h : t.Passes (below p ns) n) :
    t.Passes p n ∨ ∃ front, front <+: ns ∧ n = t.spelled p ++ front := by
  obtain ⟨front, hfront, rfl⟩ := h
  rw [Path.steps_below p hns] at hfront
  rw [start_below t p hns]
  rcases List.prefix_or_prefix_of_prefix hfront (List.prefix_append (steps p) _) with
    hshort | ⟨rest, rfl⟩
  · exact Or.inl ⟨front, hshort, rfl⟩
  · obtain ⟨ms, hms, rfl⟩ := List.prefix_map_iff.1 ((List.prefix_append_right_inj _).1 hfront)
    refine Or.inr ⟨ms, hms, ?_⟩
    rw [List.foldl_append, foldl_stepInto_names]
    rfl

/-- A path that can be followed to a directory passes directories only. -/
theorem Reaches.passes (h : t.Reaches p) (hdir : t.at? (t.spelled p) = some .directory)
    (hn : t.Passes p n) : t.at? n = some .directory := by
  obtain ⟨front, ⟨rest, hrest⟩, rfl⟩ := hn
  have hfollowed := h.followed
  rw [← hrest, followed_append] at hfollowed
  by_cases hnil : rest = []
  · rw [hnil, List.append_nil] at hrest
    rwa [spelled, ← hrest] at hdir
  · exact hfollowed.2.here hnil

theorem reaches_of_isDirectory (h : t.isDirectory p = true) :
    t.Reaches p ∧ t.at? (t.spelled p) = some .directory :=
  stat_eq_ok (isDirectory_iff.1 h)

/-- A change that makes directories at names that a path passes, where nothing was. -/
def PavedTo (p : Path) (t u : FileTree) : Prop :=
  ∀ n, u.at? n = t.at? n ∨ t.at? n = none ∧ u.at? n = some .directory ∧ t.Passes p n

theorem PavedTo.refl (p : Path) (t : FileTree) : PavedTo p t t := fun _ => Or.inl rfl

theorem PavedTo.trans (hwd : u.workingDirectory = t.workingDirectory) (h : PavedTo p t u)
    (h' : PavedTo p u v) : PavedTo p t v := by
  intro n
  rcases h' n with hsame | ⟨hnone, hmade, hpass⟩
  · rw [hsame]
    exact h n
  · rcases h n with hsame | ⟨-, hdir, -⟩
    · exact Or.inr ⟨hsame ▸ hnone, hmade, (passes_eq hwd).1 hpass⟩
    · rw [hnone] at hdir
      cases hdir

theorem PavedTo.of_steps (hsteps : steps q <+: steps p)
    (habs : Path.isAbsolute q = Path.isAbsolute p) (h : PavedTo q t u) : PavedTo p t u :=
  fun n => (h n).imp_right fun ⟨hnone, hmade, hpass⟩ =>
    ⟨hnone, hmade, passes_of_steps hsteps habs hpass⟩

theorem pavedTo_createDirectory (h : t.createDirectory p = .ok u) : PavedTo p t u := by
  obtain ⟨-, hnone, -, rfl⟩ := createDirectory_eq_ok h
  have hne : t.spelled p ≠ [] := by
    intro hnil
    rw [hnil, at?_nil] at hnone
    cases hnone
  intro n
  rw [at?_put t hne]
  split
  · next hn =>
    subst hn
    exact Or.inr ⟨hnone, rfl, passes_spelled t p⟩
  · exact Or.inl rfl

/-- **Making directories makes only what the path passes.** -/
theorem Made.pavedTo {p : Path} {t u : FileTree} (h : Made p t u) : PavedTo p t u := by
  induction h with
  | refl p t => exact PavedTo.refl p t
  | above hup _ ih =>
    obtain ⟨hsteps, habs⟩ := Path.steps_parent? hup
    exact ih.of_steps hsteps habs
  | step hway hp ih => exact ih.trans hway.grows.workingDirectory (pavedTo_createDirectory hp)

theorem pavedTo_ensureDirectory (t : FileTree) (p : Path) : PavedTo p t (t.ensureDirectory p).2 :=
  (made_createDirectories _ t p).pavedTo

theorem pavedTo_withParent (t : FileTree) (p : Path) : PavedTo p t (t.withParent p).2 := by
  unfold withParent
  cases hup : parent? p with
  | none => exact PavedTo.refl p t
  | some up =>
    obtain ⟨hsteps, habs⟩ := Path.steps_parent? hup
    exact (pavedTo_ensureDirectory t up).of_steps hsteps habs

/-- **What a copy changes**, whatever comes of it: directories are made on the way to its
destination, and the destination holds what the source held, or nothing if they are one file. -/
theorem copyInto_changes (t : FileTree) (source dest : Path) (n : Names) :
    (t.copyInto source dest).2.at? n = t.at? n ∨
      (t.at? n = none ∧ (t.copyInto source dest).2.at? n = some .directory ∧ t.Passes dest n) ∨
      (n = t.spelled dest ∧ t.at? n ≠ some .directory ∧
        ∃ c, t.at? (t.spelled source) = some (.file c) ∧ (t.copyInto source dest).2.at? n =
          some (.file (if t.spelled source = n then .text [] else c))) := by
  have hway := pavedTo_withParent t dest n
  have hgrows := grows_withParent t dest
  rw [copyInto_eq]
  rcases hu : t.withParent dest with ⟨f | _, u⟩
  · rw [hu] at hway
    exact hway.imp_right Or.inl
  rw [hu] at hway hgrows
  simp only
  cases hcopy : u.copy source dest with
  | error f => exact hway.imp_right Or.inl
  | ok t' =>
    obtain ⟨c, names, hread, htarget, rfl⟩ := copy_eq_ok.1 hcopy
    obtain ⟨-, rfl, hold, -⟩ := target_eq_ok htarget
    have hc := (read_eq_ok hread).2
    rw [hgrows.spelled] at hc
    rw [at?_put u (fun hnil => hold (by rw [hnil, at?_nil]))]
    split
    · next hn =>
      rw [hgrows.spelled] at hn
      subst hn
      refine Or.inr (Or.inr ⟨rfl, fun hdir => hold ?_, c,
        hgrows.file_before (fun h => h) hc, ?_⟩)
      · rw [hgrows.spelled]
        exact hgrows.directory _ hdir
      · rw [hgrows.spelled, hgrows.spelled]
    · exact hway.imp_right Or.inl

end FileTree
end LayeredConfig
