import LayeredConfig.Proofs.Files.Fresh

/-!
# Ways that are there

A path passes names on its way to those it leads to. It is followed as before while the directories
among them stay. A directory that is there is not made again, and so a file that can be written
where it lies is copied there without any directory being made.
-/
namespace LayeredConfig

open LayeredConfig.Path (parent? segment? ofSegments dropBlankEnd steps IsName Named)

namespace Path

/-- What is left out at the end of segments takes no step. -/
theorem dropBlankEnd_cons (first : Text) (rest : List Text) : ∃ kept blanks,
    dropBlankEnd (first :: rest) = first :: kept ∧ rest = kept ++ blanks ∧
      ∀ b ∈ blanks, segment? b = none := by
  refine ⟨_, (rest.reverse.takeWhile fun s => (segment? s).isNone).reverse, rfl, ?_, ?_⟩
  · rw [← List.reverse_append, List.takeWhile_append_dropWhile, List.reverse_reverse]
  · intro b hb
    have hblank := List.all_eq_true.1 List.all_takeWhile b (List.mem_reverse.1 hb)
    exact Option.isNone_iff_eq_none.1 hblank

theorem getLast?_components {p : Path} {front : List Text} {s : Text} (hs : IsName s)
    (hsplit : Text.splitAll '/' p = front ++ [s]) :
    (components p).getLast? = some (.name s) := by
  obtain ⟨lead, hp, -⟩ := components_eq p
  have hsteps : steps p = front.filterMap segment? ++ [.name s] := by
    rw [steps, hsplit, List.filterMap_append, List.filterMap_cons, hs.segment?]
    rfl
  rw [hp, hsteps, ← List.append_assoc, List.getLast?_concat]

/-- The segments before the last one are the parent's. -/
theorem parent?_of_splitAll {p : Path} {front : List Text} {s : Text} (hs : IsName s)
    (hsplit : Text.splitAll '/' p = front ++ [s]) :
    parent? p = some (if front = [] then [] else ofSegments (dropBlankEnd front)) := by
  unfold parent?
  simp only [getLast?_components hs hsplit, hsplit, dropBlankEnd_concat front hs,
    List.dropLast_concat, List.isEmpty_iff]
  split <;> rfl

/-- The text of the first segments is the beginning of the whole text. -/
theorem ofSegments_prefix (first : Text) (kept : List Text) {rest : List Text} (hrest : rest ≠ []) :
    ofSegments (first :: kept) <+: Text.joinWith ['/'] (first :: (kept ++ rest)) := by
  obtain ⟨a, rest, rfl⟩ := List.exists_cons_of_ne_nil hrest
  rw [Text.joinWith_cons, List.flatMap_append, ofSegments]
  split
  · next h =>
    cases h
    exact ⟨a ++ rest.flatMap (['/'] ++ ·), rfl⟩
  · refine ⟨(a :: rest).flatMap (['/'] ++ ·), ?_⟩
    rw [← List.append_assoc]
    exact congrArg (· ++ _) (Text.joinWith_cons _ _ _)

theorem ofSegments_ne_nil (first : Text) (kept : List Text) : ofSegments (first :: kept) ≠ [] := by
  unfold ofSegments
  split
  · exact List.cons_ne_nil _ _
  · next h =>
    intro hnil
    have hjoined : Text.joinWith ['/'] (first :: kept) = [] := hnil
    rw [Text.joinWith_cons, List.append_eq_nil_iff, List.flatMap_eq_nil_iff] at hjoined
    cases kept with
    | nil => exact h (by rw [hjoined.1])
    | cons a kept => exact List.cons_ne_nil _ _ (hjoined.2 a List.mem_cons_self)

/-- A text that begins a path is absolute if the path is. -/
theorem isAbsolute_of_prefix {p q : Path} (h : q <+: p) (hne : q ≠ []) :
    isAbsolute q = isAbsolute p := by
  obtain ⟨rest, rfl⟩ := h
  obtain ⟨c, q, rfl⟩ := List.exists_cons_of_ne_nil hne
  rfl

end Path

theorem Text.byteLength_le_of_prefix {s r : Text} (h : s <+: r) :
    Text.byteLength s ≤ Text.byteLength r := by
  obtain ⟨rest, rfl⟩ := h
  rw [Text.byteLength_append]
  exact Nat.le_add_right _ _

namespace FileTree

variable {t t' u : FileTree} {p : Path}

/-- The names that a path passes, from where it starts to where it leads. -/
def Passes (t : FileTree) (p : Path) (n : Names) : Prop :=
  ∃ front, front <+: steps p ∧ n = front.foldl stepInto (t.start p)

theorem passes_spelled (t : FileTree) (p : Path) : t.Passes p (t.spelled p) :=
  ⟨steps p, List.prefix_refl _, rfl⟩

theorem walk_along {names dest : Names} {segments : List Text}
    (hdirs : ∀ front, front <+: segments.filterMap segment? →
      t.at? (front.foldl stepInto names) = some .directory →
      t'.at? (front.foldl stepInto names) = some .directory)
    (h : t.walk names segments = .ok dest) : t'.walk names segments = .ok dest := by
  induction segments generalizing names with
  | nil => exact h
  | cons s rest ih =>
    rw [List.filterMap_cons] at hdirs
    cases hs : segment? s with
    | none =>
      simp only [hs] at hdirs
      rw [walk_cons_of_none hs] at h ⊢
      by_cases hblank : s.isEmpty = true
      · rw [if_pos hblank] at h ⊢
        exact ih hdirs h
      · rw [if_neg hblank] at h ⊢
        obtain ⟨_, hdir, h⟩ := Outcome.bind_eq_ok.1 h
        have hhere : t'.at? names = some .directory :=
          hdirs [] List.nil_prefix (needDirectory_eq_ok.1 hdir)
        rw [needDirectory_eq_ok.2 hhere, Outcome.ok_bind]
        exact ih hdirs h
    | some c =>
      simp only [hs] at hdirs
      rw [walk_cons_of_some hs] at h ⊢
      obtain ⟨_, hdir, h⟩ := Outcome.bind_eq_ok.1 h
      have hhere : t'.at? names = some .directory :=
        hdirs [] List.nil_prefix (needDirectory_eq_ok.1 hdir)
      rw [needDirectory_eq_ok.2 hhere, Outcome.ok_bind]
      split at h
      · cases h
      · next hlen =>
        rw [if_neg hlen]
        exact ih (fun front hfront => hdirs (c :: front) (List.cons_prefix_cons.2 ⟨rfl, hfront⟩)) h

/-- A path is followed as before while the directories that it passes stay. -/
theorem locate_along (hwd : t'.workingDirectory = t.workingDirectory)
    (hdirs : ∀ n, t.Passes p n → t.at? n = some .directory → t'.at? n = some .directory)
    {place : Place} (h : t.locate p = .ok place) : t'.locate p = .ok place := by
  obtain ⟨hfits, names, hwalk, hplace⟩ := locate_eq_ok_iff.1 h
  refine locate_eq_ok_iff.2 ⟨hfits, names, ?_, hplace⟩
  rw [start_eq hwd]
  exact walk_along (fun front hfront => hdirs _ ⟨front, hfront, rfl⟩) hwalk

/-- A file is found as before while the directories on its way and a file in its place stay. -/
theorem read_along (hwd : t'.workingDirectory = t.workingDirectory)
    (hdirs : ∀ n, t.Passes p n → t.at? n = some .directory → t'.at? n = some .directory)
    {c c' : Content} (h : t.read p = .ok c) (hc' : t'.at? (t.spelled p) = some (.file c')) :
    t'.read p = .ok c' := by
  rw [read_eq_stat] at h ⊢
  have hc := (stat_eq_ok h).2
  obtain ⟨place, hplace, h⟩ := Outcome.bind_eq_ok.1 h
  rw [(locate_eq_ok hplace).2.1, hc] at h
  rw [stat, locate_along hwd hdirs hplace, Outcome.ok_bind, (locate_eq_ok hplace).2.1, hc']
  simp only at h ⊢
  split at h
  · cases h
  · next hslashed => rw [if_neg hslashed]

theorem isDirectory_of_locate {place : Place} (h : t.locate p = .ok place)
    (hdir : t.at? place.names = some .directory) : t.isDirectory p = true := by
  rw [isDirectory_iff, stat, h, Outcome.ok_bind, hdir]

/-- A directory is found as before while the directories on its way stay. -/
theorem isDirectory_along (hwd : t'.workingDirectory = t.workingDirectory)
    (hdirs : ∀ n, t.Passes p n → t.at? n = some .directory → t'.at? n = some .directory)
    (h : t.isDirectory p = true) : t'.isDirectory p = true := by
  have hstat := isDirectory_iff.1 h
  obtain ⟨place, hplace, -⟩ := Outcome.bind_eq_ok.1 hstat
  refine isDirectory_of_locate (locate_along hwd hdirs hplace) ?_
  rw [(locate_eq_ok hplace).2.1]
  exact hdirs _ (passes_spelled t p) (stat_eq_ok hstat).2

/-- A directory that is there is not made again. -/
theorem ensureDirectory_of_isDirectory (h : t.isDirectory p = true) :
    t.ensureDirectory p = (.ok (), t) := by
  have hstat := isDirectory_iff.1 h
  obtain ⟨hreach, hdir⟩ := stat_eq_ok hstat
  obtain ⟨place, hplace, -⟩ := Outcome.bind_eq_ok.1 hstat
  have hexists : t.createDirectory p = .error .exists := by
    rw [createDirectory, hplace, Outcome.ok_bind, (locate_eq_ok hplace).2.1, hdir]
  rw [ensureDirectory, createDirectories_of_error hreach.fits.2.1 hexists (by decide), if_pos h]

theorem ensureDirectory_nil (t : FileTree) : t.ensureDirectory [] = (.ok (), t) := rfl

theorem isDirectory_of_createDirectory (h : t.createDirectory p = .ok u) :
    u.isDirectory p = true := by
  have hgrows := grows_createDirectory h
  obtain ⟨-, hnone, -, hput⟩ := createDirectory_eq_ok h
  obtain ⟨place, hplace, -⟩ := Outcome.bind_eq_ok.1 h
  refine isDirectory_of_locate (hgrows.locate hplace) ?_
  have hne : t.spelled p ≠ [] := by
    intro hnil
    rw [hnil, at?_nil] at hnone
    cases hnone
  rw [(locate_eq_ok hplace).2.1, hput, at?_put t hne, if_pos rfl]

/-- Making a directory succeeds only where there is one then. -/
theorem isDirectory_of_ensureDirectory (h : t.ensureDirectory p = (.ok (), u)) :
    p = [] ∨ u.isDirectory p = true := by
  have hpresent : ∀ (v : FileTree) (f : FileFault),
      (if v.isDirectory p then ((.ok (), v) : Except FileFault Unit × FileTree)
        else (.error f, v)) = (.ok (), u) → u.isDirectory p = true := by
    intro v f hv
    split at hv
    · next hdir =>
      cases hv
      exact hdir
    · cases hv
  refine or_iff_not_imp_left.2 fun hne => ?_
  cases hmade : t.createDirectory p with
  | ok t' =>
    rw [ensureDirectory, createDirectories_of_ok hne hmade] at h
    cases h
    exact isDirectory_of_createDirectory hmade
  | error f =>
    by_cases hf : f = .notFound
    · subst hf
      rw [ensureDirectory] at h
      cases hup : parent? p with
      | none =>
        rw [createDirectories, if_neg (by simpa using hne), hmade] at h
        simp only [hup] at h
        cases h
      | some up =>
        rw [createDirectories_of_notFound hne hmade hup] at h
        rcases habove : createDirectories p.length t up with ⟨f | _, v⟩
        · rw [habove] at h
          cases h
        rw [habove] at h
        simp only at h
        cases hlast : v.createDirectory p with
        | ok v' =>
          simp only [hlast] at h
          cases h
          exact isDirectory_of_createDirectory hlast
        | error f =>
          simp only [hlast] at h
          exact hpresent v f h
    · rw [ensureDirectory, createDirectories_of_error hne hmade hf] at h
      exact hpresent t f h

/-- Before the last name of a way there is a directory. -/
theorem walk_concat {names dest : Names} {front blanks : List Text} {s : Text} (hs : IsName s)
    (hblanks : ∀ b ∈ blanks, segment? b = none)
    (h : t.walk names (front ++ (blanks ++ [s])) = .ok dest) :
    ∃ up, t.walk names front = .ok up ∧ t.at? up = some .directory := by
  rw [walk_append] at h
  obtain ⟨up, hup, h⟩ := Outcome.bind_eq_ok.1 h
  have hnone : blanks.filterMap segment? = [] := List.filterMap_eq_nil_iff.2 hblanks
  have hfollowed := (walk_eq_ok h).1
  rw [List.filterMap_append, hnone, List.nil_append, List.filterMap_cons, hs.segment?] at hfollowed
  exact ⟨up, hup, hfollowed.1⟩

/-- Segments are walked as the text that is made of them. -/
theorem walk_ofSegments {names : Names} {first : Text} {kept : List Text}
    (h : ∀ part ∈ first :: kept, '/' ∉ part) :
    t.walk names (Text.splitAll '/' (ofSegments (first :: kept))) =
      t.walk names (first :: kept) := by
  unfold ofSegments
  split
  · next hroot =>
    rw [hroot]
    rfl
  · exact congrArg (t.walk names) (Text.splitAll_joinWith (List.cons_ne_nil _ _) h)

/-- The directory of a path that can be found is there. -/
theorem withParent_of_locate (hp : Named p) {place : Place} (h : t.locate p = .ok place) :
    t.withParent p = (.ok (), t) := by
  obtain ⟨front, s, hs, hsplit⟩ := hp.splitAll
  rw [withParent, Path.parent?_of_splitAll hs hsplit]
  cases front with
  | nil => exact ensureDirectory_nil t
  | cons first rest =>
    obtain ⟨kept, blanks, hkept, rfl, hblanks⟩ := Path.dropBlankEnd_cons first rest
    obtain ⟨⟨hnul, -, hlen⟩, dest, hwalk, -⟩ := locate_eq_ok_iff.1 h
    have hparts : Text.splitAll '/' p = (first :: kept) ++ (blanks ++ [s]) := by
      rw [hsplit, ← List.append_assoc]
      rfl
    have hlast : blanks ++ [s] ≠ [] := by simp
    have hpre : ofSegments (first :: kept) <+: p := by
      have hwhole := Path.ofSegments_prefix first kept hlast
      rwa [← List.cons_append, ← hparts, Text.joinWith_splitAll] at hwhole
    have hne := Path.ofSegments_ne_nil first kept
    have hslash : ∀ part ∈ first :: kept, '/' ∉ part := fun part hpart =>
      Text.not_mem_of_mem_splitAll (s := p) (by rw [hparts]; exact List.mem_append_left _ hpart)
    rw [hparts] at hwalk
    obtain ⟨up, hup, hdir⟩ := walk_concat hs hblanks hwalk
    have hstart : t.start (ofSegments (first :: kept)) = t.start p := by
      rw [start, start, Path.isAbsolute_of_prefix hpre hne]
    have hlocate := locate_eq_ok_iff.2 ⟨⟨fun hin => hnul (hpre.subset hin), hne,
      Nat.le_trans (Text.byteLength_le_of_prefix hpre) hlen⟩, up,
      (walk_ofSegments hslash).trans (hstart ▸ hup), rfl⟩
    rw [if_neg (List.cons_ne_nil _ _), hkept]
    exact ensureDirectory_of_isDirectory (isDirectory_of_locate hlocate hdir)

/-- A change in which files are written where `N` holds of their names, and no directory is
made. -/
structure Rewrites (N : Names → Prop) (t t' : FileTree) : Prop where
  workingDirectory : t'.workingDirectory = t.workingDirectory
  entry : ∀ n, t'.at? n = t.at? n ∨
    N n ∧ t.at? n ≠ some .directory ∧ ∃ c, t'.at? n = some (.file c)

namespace Rewrites

variable {N : Names → Prop} {t'' : FileTree}

theorem refl (N : Names → Prop) (t : FileTree) : Rewrites N t t := ⟨rfl, fun _ => Or.inl rfl⟩

theorem directory (h : Rewrites N t t') {n : Names} :
    t'.at? n = some .directory ↔ t.at? n = some .directory := by
  rcases h.entry n with hsame | ⟨-, hold, c, hc⟩
  · rw [hsame]
  · rw [hc]
    constructor
    · intro hd
      cases hd
    · exact fun hd => absurd hd hold

theorem trans (h : Rewrites N t t') (h' : Rewrites N t' t'') : Rewrites N t t'' := by
  refine ⟨h'.workingDirectory.trans h.workingDirectory, fun n => ?_⟩
  rcases h'.entry n with hsame | ⟨hN, hold, hc⟩
  · rw [hsame]
    exact h.entry n
  · exact Or.inr ⟨hN, mt h.directory.2 hold, hc⟩

theorem mono {M : Names → Prop} (h : Rewrites N t t') (hNM : ∀ n, N n → M n) : Rewrites M t t' :=
  ⟨h.workingDirectory, fun n => (h.entry n).imp_right fun hn => ⟨hNM n hn.1, hn.2⟩⟩

theorem reaches (h : Rewrites N t t') (hp : t.Reaches p) : t'.Reaches p :=
  hp.mono h.workingDirectory fun _ => h.directory.2

end Rewrites

/-- A copy to a path that can be found writes one file. -/
theorem rewrites_copyInto {dest : Path} (hdest : Named dest) (h : t.Reaches dest) (source : Path) :
    Rewrites (· = t.spelled dest) t (t.copyInto source dest).2 := by
  rw [copyInto_eq, withParent_of_locate hdest (locate_of_reaches hdest h)]
  simp only
  cases hcopy : t.copy source dest with
  | error f => exact Rewrites.refl _ t
  | ok t' =>
    obtain ⟨c, names, -, htarget, rfl⟩ := copy_eq_ok.1 hcopy
    obtain ⟨-, rfl, hold, -⟩ := target_eq_ok htarget
    refine ⟨workingDirectory_put _ _ _, fun n => ?_⟩
    rw [at?_put t (fun hnil => hold (by rw [hnil, at?_nil]))]
    split
    · next hn =>
      subst hn
      exact Or.inr ⟨rfl, hold, _, rfl⟩
    · exact Or.inl rfl

end FileTree
end LayeredConfig
