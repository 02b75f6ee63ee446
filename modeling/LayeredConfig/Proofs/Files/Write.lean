import LayeredConfig.Proofs.Files.Tree

/-!
# What writing leaves alone

Making directories, writing files and copying them change a tree in one way: directories appear,
and files with certain names are written. `Writes` says which, and everything that reads the tree
elsewhere follows from it.
-/
namespace LayeredConfig.FileTree

theorem lookup_replace_self {entries : List (Names × FileEntry)} {names : Names} (e : FileEntry)
    (h : entries.any (·.1 = names) = true) :
    (entries.map fun x => if x.1 = names then (names, e) else x).lookup names = some e := by
  induction entries with
  | nil => cases h
  | cons x entries ih =>
    rw [List.map_cons, List.lookup_cons]
    by_cases hx : x.1 = names
    · rw [if_pos hx, beq_self_eq_true]
    · rw [if_neg hx, beq_false_of_ne (Ne.symm hx)]
      exact ih (by simpa [hx] using h)

theorem lookup_replace_of_ne (entries : List (Names × FileEntry)) {names m : Names}
    (e : FileEntry) (hm : m ≠ names) :
    (entries.map fun x => if x.1 = names then (names, e) else x).lookup m = entries.lookup m := by
  induction entries with
  | nil => rfl
  | cons x entries ih =>
    rw [List.map_cons, List.lookup_cons, List.lookup_cons, ih]
    by_cases hx : x.1 = names
    · rw [if_pos hx, hx]
      simp only [beq_false_of_ne hm]
    · rw [if_neg hx]

theorem lookup_concat {entries : List (Names × FileEntry)} {names : Names} (e : FileEntry)
    (m : Names) (h : ¬ entries.any (·.1 = names) = true) :
    (entries ++ [(names, e)]).lookup m = if m = names then some e else entries.lookup m := by
  induction entries with
  | nil =>
    by_cases hm : m = names <;> simp [hm]
  | cons x entries ih =>
    rw [List.any_cons, Bool.or_eq_true, not_or, decide_eq_true_eq] at h
    obtain ⟨hx, h⟩ := h
    rw [List.cons_append, List.lookup_cons, List.lookup_cons, ih h]
    by_cases hm : m = x.1
    · simp only [hm, beq_self_eq_true, if_neg hx]
    · rw [beq_false_of_ne hm]

theorem at?_put (t : FileTree) {names : Names} (hne : names ≠ []) (e : FileEntry) (m : Names) :
    (t.put names e).at? m = if m = names then some e else t.at? m := by
  cases m with
  | nil => rw [if_neg (Ne.symm hne), at?_nil, at?_nil]
  | cons a m =>
    unfold at? put
    rw [if_neg (by simp)]
    by_cases hany : t.entries.any (·.1 = names) = true
    · rw [if_pos hany]
      split
      · next hm => rw [hm, lookup_replace_self e hany]
      · next hm => rw [lookup_replace_of_ne _ e hm, if_neg (by simp)]
    · rw [if_neg hany, lookup_concat e _ hany]
      rfl

theorem workingDirectory_put (t : FileTree) (names : Names) (e : FileEntry) :
    (t.put names e).workingDirectory = t.workingDirectory := by
  unfold put
  split <;> rfl

/-- Every entry lies in a directory. -/
def IsTree (t : FileTree) : Prop :=
  ∀ names e, names ≠ [] → t.at? names = some e → t.at? names.dropLast = some .directory

theorem mem_of_lookup_eq_some {entries : List (Names × FileEntry)} {names : Names} {e : FileEntry}
    (h : entries.lookup names = some e) : (names, e) ∈ entries := by
  induction entries with
  | nil => cases h
  | cons x entries ih =>
    rw [List.lookup_cons] at h
    by_cases hx : names = x.1
    · simp only [hx, beq_self_eq_true, Option.some.injEq] at h
      rw [hx, ← h]
      exact List.mem_cons_self
    · rw [beq_false_of_ne hx] at h
      exact List.mem_cons_of_mem _ (ih h)

/-- It is enough to look at the entries. -/
theorem isTree_of_entries {t : FileTree}
    (h : ∀ x ∈ t.entries, t.at? x.1.dropLast = some .directory) : t.IsTree := by
  intro names e hne he
  unfold at? at he
  rw [if_neg (by simpa using hne)] at he
  exact h _ (mem_of_lookup_eq_some he)

/-- Where there is nothing, there is nothing below either. -/
theorem IsTree.nothing_below {t : FileTree} (ht : t.IsTree) {names : Names}
    (h : t.at? names = none) (ns : List Text) : t.at? (names ++ ns) = none := by
  induction ns generalizing names with
  | nil => rwa [List.append_nil]
  | cons s ns ih =>
    have hs : t.at? (names ++ [s]) = none := by
      cases he : t.at? (names ++ [s]) with
      | none => rfl
      | some e =>
        have hdir := ht _ e (by simp) he
        rw [List.dropLast_concat, h] at hdir
        cases hdir
    have hrest := ih hs
    rwa [List.append_assoc, List.singleton_append] at hrest

/-- A change in which directories are made, and files are written only where `N` holds of their
names. -/
structure Writes (N : Names → Prop) (t t' : FileTree) : Prop where
  workingDirectory : t'.workingDirectory = t.workingDirectory
  isTree : t.IsTree → t'.IsTree
  directory : ∀ names, t.at? names = some .directory → t'.at? names = some .directory
  file : ∀ names c, ¬ N names → t.at? names = some (.file c) → t'.at? names = some (.file c)
  nothing : ∀ names, ¬ N names → t.at? names = none →
    t'.at? names = none ∨ t'.at? names = some .directory

namespace Writes

variable {N : Names → Prop} {t t' t'' : FileTree}

theorem refl (N : Names → Prop) (t : FileTree) : Writes N t t :=
  ⟨rfl, id, fun _ h => h, fun _ _ _ h => h, fun _ _ h => Or.inl h⟩

theorem trans (h : Writes N t t') (h' : Writes N t' t'') : Writes N t t'' where
  workingDirectory := h'.workingDirectory.trans h.workingDirectory
  isTree ht := h'.isTree (h.isTree ht)
  directory names hd := h'.directory names (h.directory names hd)
  file names c hN hc := h'.file names c hN (h.file names c hN hc)
  nothing names hN hn := by
    rcases h.nothing names hN hn with h₁ | h₁
    · exact h'.nothing names hN h₁
    · exact Or.inr (h'.directory names h₁)

theorem mono {M : Names → Prop} (h : Writes N t t') (hNM : ∀ names, N names → M names) :
    Writes M t t' where
  workingDirectory := h.workingDirectory
  isTree := h.isTree
  directory := h.directory
  file names c hM := h.file names c (mt (hNM names) hM)
  nothing names hM := h.nothing names (mt (hNM names) hM)

/-- A file that is there afterwards was there before, unless it has been written. -/
theorem file_before (h : Writes N t t') {names : Names} {c : Content} (hN : ¬ N names)
    (hc : t'.at? names = some (.file c)) : t.at? names = some (.file c) := by
  cases he : t.at? names with
  | none =>
    rcases h.nothing names hN he with h₁ | h₁
    · rw [h₁] at hc
      cases hc
    · rw [h₁] at hc
      cases hc
  | some e =>
    cases e with
    | directory =>
      rw [h.directory names he] at hc
      cases hc
    | file c' =>
      rw [h.file names c' hN he] at hc
      exact hc

theorem spelled (h : Writes N t t') (p : Path) : t'.spelled p = t.spelled p :=
  spelled_eq h.workingDirectory p

theorem reaches (h : Writes N t t') {p : Path} (hp : t.Reaches p) : t'.Reaches p :=
  hp.mono h.workingDirectory h.directory

theorem needDirectory (h : Writes N t t') {names : Names} {u : Unit}
    (hd : t.needDirectory names = .ok u) : t'.needDirectory names = .ok () :=
  needDirectory_eq_ok.2 (h.directory _ (needDirectory_eq_ok.1 hd))

theorem walk (h : Writes N t t') {names dest : Names} {segments : List Text}
    (hw : t.walk names segments = .ok dest) : t'.walk names segments = .ok dest := by
  induction segments generalizing names with
  | nil => exact hw
  | cons s rest ih =>
    cases hs : Path.segment? s with
    | none =>
      rw [walk_cons_of_none hs] at hw ⊢
      by_cases hblank : s.isEmpty = true
      · rw [if_pos hblank] at hw ⊢
        exact ih hw
      · rw [if_neg hblank] at hw ⊢
        obtain ⟨_, hdir, hw⟩ := Outcome.bind_eq_ok.1 hw
        rw [h.needDirectory hdir, Outcome.ok_bind]
        exact ih hw
    | some c =>
      rw [walk_cons_of_some hs] at hw ⊢
      obtain ⟨_, hdir, hw⟩ := Outcome.bind_eq_ok.1 hw
      rw [h.needDirectory hdir, Outcome.ok_bind]
      by_cases hlen : nameLimit < Text.byteLength c.text
      · rw [if_pos hlen] at hw
        cases hw
      · rw [if_neg hlen] at hw ⊢
        exact ih hw

theorem locate (h : Writes N t t') {p : Path} {place : Place} (hp : t.locate p = .ok place) :
    t'.locate p = .ok place := by
  obtain ⟨hfits, names, hwalk, hplace⟩ := locate_eq_ok_iff.1 hp
  rw [← start_eq h.workingDirectory] at hwalk
  exact locate_eq_ok_iff.2 ⟨hfits, names, h.walk hwalk, hplace⟩

/-- A file is read as before, unless it has been written. -/
theorem read (h : Writes N t t') {p : Path} {c : Content} (hN : ¬ N (t.spelled p))
    (hp : t.read p = .ok c) : t'.read p = .ok c := by
  rw [read_eq_stat] at hp ⊢
  have hc := (stat_eq_ok hp).2
  obtain ⟨place, hplace, hp⟩ := Outcome.bind_eq_ok.1 hp
  have hnames := (locate_eq_ok hplace).2.1
  rw [stat, h.locate hplace, Outcome.ok_bind, hnames, h.file _ c hN hc]
  rw [hnames, hc] at hp
  exact hp

theorem isFile (h : Writes N t t') {p : Path} (hN : ¬ N (t.spelled p))
    (hp : t.isFile p = true) : t'.isFile p = true := by
  obtain ⟨c, hc⟩ := isFile_iff.1 hp
  exact isFile_iff.2 ⟨c, h.read hN hc⟩

end Writes

/-- One entry is put where no directory is, into a directory. -/
theorem writes_put {N : Names → Prop} {t : FileTree} {names : Names} {e : FileEntry}
    (hN : N names ∨ t.at? names = none ∧ e = .directory)
    (hold : t.at? names ≠ some .directory)
    (hup : t.at? names = none → t.at? names.dropLast = some .directory) :
    Writes N t (t.put names e) := by
  have hne : names ≠ [] := by
    rintro rfl
    exact hold (at?_nil t)
  have hat := at?_put t hne e
  have hdir : ∀ m, t.at? m = some .directory → (t.put names e).at? m = some .directory := by
    intro m hm
    rw [hat, if_neg (fun hmn => hold (by rw [← hmn, hm])), hm]
  refine ⟨workingDirectory_put t names e, ?_, hdir, ?_, ?_⟩
  · intro ht m e' hm he'
    rw [hat] at he'
    refine hdir _ ?_
    split at he'
    · next hmn =>
      subst hmn
      cases hcase : t.at? m with
      | none => exact hup hcase
      | some old => exact ht m old hm hcase
    · exact ht m e' hm he'
  · intro m c hm hc
    rw [hat, if_neg, hc]
    rintro rfl
    rcases hN with hN | ⟨hnone, -⟩
    · exact hm hN
    · rw [hnone] at hc
      cases hc
  · intro m hm hnone
    rw [hat]
    split
    · next hmn =>
      subst hmn
      rcases hN with hN | ⟨-, rfl⟩
      · exact absurd hN hm
      · exact Or.inr rfl
    · exact Or.inl hnone

/-- The target of a path is where it leads: no directory, but in one. -/
theorem target_eq_ok {t : FileTree} {p : Path} {names : Names} (h : t.target p = .ok names) :
    t.Reaches p ∧ names = t.spelled p ∧ t.at? names ≠ some .directory ∧
      (t.at? names = none → t.at? names.dropLast = some .directory) := by
  obtain ⟨place, hplace, h⟩ := Outcome.bind_eq_ok.1 h
  obtain ⟨hreach, hnames, -⟩ := locate_eq_ok hplace
  rw [hnames] at h
  cases he : t.at? (t.spelled p) with
  | none =>
    simp only [he] at h
    obtain ⟨_, hup, h⟩ := Outcome.bind_eq_ok.1 h
    split at h
    · cases h
    · cases h
      exact ⟨hreach, rfl, by simp [he], fun _ => needDirectory_eq_ok.1 hup⟩
  | some e =>
    cases e with
    | directory =>
      simp only [he] at h
      cases h
    | file c =>
      simp only [he] at h
      split at h
      · cases h
      · cases h
        exact ⟨hreach, rfl, by simp [he], by simp [he]⟩

theorem locate_of_target {t : FileTree} {p : Path} {names : Names} (h : t.target p = .ok names) :
    t.locate p = .ok ⟨names, false⟩ := by
  obtain ⟨⟨names', slashed⟩, hplace, h⟩ := Outcome.bind_eq_ok.1 h
  rw [hplace]
  cases he : t.at? names' with
  | none =>
    simp only [he] at h
    obtain ⟨_, -, h⟩ := Outcome.bind_eq_ok.1 h
    cases slashed <;> cases h
    rfl
  | some e =>
    simp only [he] at h
    cases e with
    | directory => cases h
    | file c =>
      cases slashed <;> cases h
      rfl

theorem target_of_reaches {t : FileTree} {p : Path} (hp : Path.Named p) (h : t.Reaches p)
    (hold : t.at? (t.spelled p) ≠ some .directory)
    (hup : t.at? (t.spelled p).dropLast = some .directory) :
    t.target p = .ok (t.spelled p) := by
  rw [target, locate_of_reaches hp h, Outcome.ok_bind]
  cases he : t.at? (t.spelled p) with
  | none =>
    simp only [needDirectory_eq_ok.2 hup]
    rfl
  | some e =>
    cases e with
    | directory => exact absurd he hold
    | file c => rfl

theorem write_eq_ok {t t' : FileTree} {p : Path} {c : Content} :
    t.write p c = .ok t' ↔ ∃ names, t.target p = .ok names ∧ t' = t.put names (.file c) := by
  rw [write, Outcome.bind_eq_ok]
  constructor
  · rintro ⟨names, hn, h⟩
    cases h
    exact ⟨names, hn, rfl⟩
  · rintro ⟨names, hn, rfl⟩
    exact ⟨names, hn, rfl⟩

/-- What is put at the target of a path is all that is written. -/
theorem writes_target {t : FileTree} {p : Path} {names : Names} (h : t.target p = .ok names)
    (c : Content) :
    Writes (· = t.spelled p) t (t.put names (.file c)) ∧
      (t.put names (.file c)).at? (t.spelled p) = some (.file c) := by
  obtain ⟨-, rfl, hold, hup⟩ := target_eq_ok h
  refine ⟨writes_put (Or.inl rfl) hold hup, ?_⟩
  rw [at?_put t (fun hnil => hold (by rw [hnil, at?_nil])), if_pos rfl]

/-- What has been written is read. -/
theorem read_of_write {t t' : FileTree} {p : Path} {c : Content} (h : t.write p c = .ok t') :
    t'.read p = .ok c := by
  obtain ⟨names, htarget, rfl⟩ := write_eq_ok.1 h
  obtain ⟨hwrites, hat⟩ := writes_target htarget c
  rw [← (target_eq_ok htarget).2.1] at hat
  rw [read_eq_stat, stat, hwrites.locate (locate_of_target htarget), Outcome.ok_bind]
  simp only [hat]
  rfl

theorem createDirectory_eq_ok {t t' : FileTree} {p : Path} (h : t.createDirectory p = .ok t') :
    t.Reaches p ∧ t.at? (t.spelled p) = none ∧
      t.at? (t.spelled p).dropLast = some .directory ∧
      t' = t.put (t.spelled p) .directory := by
  obtain ⟨place, hplace, h⟩ := Outcome.bind_eq_ok.1 h
  obtain ⟨hreach, hnames, -⟩ := locate_eq_ok hplace
  rw [hnames] at h
  cases he : t.at? (t.spelled p) with
  | some e =>
    simp only [he] at h
    cases h
  | none =>
    simp only [he] at h
    obtain ⟨_, hup, h⟩ := Outcome.bind_eq_ok.1 h
    cases h
    exact ⟨hreach, rfl, needDirectory_eq_ok.1 hup, rfl⟩

/-- No file is written. -/
abbrev Grows : FileTree → FileTree → Prop := Writes fun _ => False

theorem grows_createDirectory {t t' : FileTree} {p : Path} (h : t.createDirectory p = .ok t') :
    Grows t t' := by
  obtain ⟨-, hnone, hup, rfl⟩ := createDirectory_eq_ok h
  exact writes_put (Or.inr ⟨hnone, rfl⟩) (by simp [hnone]) fun _ => hup

theorem createDirectories_of_ok {t t' : FileTree} {p : Path} (hp : p ≠ [])
    (h : t.createDirectory p = .ok t') (fuel : Nat) :
    createDirectories (fuel + 1) t p = (.ok (), t') := by
  rw [createDirectories, if_neg (by simpa using hp), h]

theorem createDirectories_of_error {t : FileTree} {p : Path} {f : FileFault} (hp : p ≠ [])
    (h : t.createDirectory p = .error f) (hf : f ≠ .notFound) (fuel : Nat) :
    createDirectories (fuel + 1) t p =
      if t.isDirectory p then (.ok (), t) else (.error f, t) := by
  rw [createDirectories, if_neg (by simpa using hp), h]
  cases f with
  | notFound => exact absurd rfl hf
  | _ => rfl

theorem createDirectories_of_notFound {t : FileTree} {p up : Path} (hp : p ≠ [])
    (h : t.createDirectory p = .error .notFound) (hup : Path.parent? p = some up) (fuel : Nat) :
    createDirectories (fuel + 1) t p = match createDirectories fuel t up with
      | (.error f, u) => (.error f, u)
      | (.ok (), u) => match u.createDirectory p with
        | .ok t' => (.ok (), t')
        | .error f => if u.isDirectory p then (.ok (), u) else (.error f, u) := by
  rw [createDirectories, if_neg (by simpa using hp), h]
  generalize Path.parent? p = parent at hup
  subst hup
  rfl

/-- On the way to a path, directories are made one after the other. -/
inductive Made : Path → FileTree → FileTree → Prop
  | refl (p : Path) (t : FileTree) : Made p t t
  | above {p up : Path} {t u : FileTree} : Path.parent? p = some up → Made up t u → Made p t u
  | step {p : Path} {t u v : FileTree} : Made p t u → u.createDirectory p = .ok v → Made p t v

theorem Made.grows {p : Path} {t u : FileTree} (h : Made p t u) : Grows t u := by
  induction h with
  | refl p t => exact Writes.refl _ t
  | above _ _ ih => exact ih
  | step _ hp ih => exact ih.trans (grows_createDirectory hp)

theorem made_createDirectories (fuel : Nat) (t : FileTree) (p : Path) :
    Made p t (createDirectories fuel t p).2 := by
  induction fuel generalizing t p with
  | zero => exact .refl p t
  | succ fuel ih =>
    by_cases hne : p = []
    · rw [hne]
      exact .refl [] t
    cases hmade : t.createDirectory p with
    | ok u =>
      rw [createDirectories_of_ok hne hmade]
      exact .step (.refl p t) hmade
    | error f =>
      by_cases hf : f = .notFound
      · subst hf
        cases hup : Path.parent? p with
        | none =>
          rw [createDirectories, if_neg (by simpa using hne), hmade]
          simp only [hup]
          exact .refl p t
        | some up =>
          rw [createDirectories_of_notFound hne hmade hup]
          have habove := Made.above hup (ih t up)
          rcases hway : createDirectories fuel t up with ⟨f | _, u⟩
          · rwa [hway] at habove
          rw [hway] at habove
          simp only
          cases hlast : u.createDirectory p with
          | ok v => exact .step habove hlast
          | error f =>
            simp only
            split <;> exact habove
      · rw [createDirectories_of_error hne hmade hf]
        split <;> exact .refl p t

theorem grows_createDirectories (fuel : Nat) (t : FileTree) (p : Path) :
    Grows t (createDirectories fuel t p).2 :=
  (made_createDirectories fuel t p).grows

theorem grows_ensureDirectory (t : FileTree) (p : Path) : Grows t (t.ensureDirectory p).2 :=
  grows_createDirectories _ t p

end LayeredConfig.FileTree
