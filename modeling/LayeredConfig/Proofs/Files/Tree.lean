import LayeredConfig.Files.Tree
import LayeredConfig.Proofs.Files.Path
import LayeredConfig.Proofs.Outcome

/-!
# Where paths lead

The names that a path leads to depend on its text and the working directory alone. The entries
decide whether the path can be followed to them, which it can while the directories on the way
are there.
-/
namespace LayeredConfig.FileTree

open LayeredConfig.Path (steps join below IsName relative? names?)

/-- The names after a step. -/
def stepInto (names : Names) : Component → Names
  | .name s => names ++ [s]
  | .parent => names.dropLast
  | .root | .current => names

/-- The names that a path starts from. -/
def start (t : FileTree) (p : Path) : Names :=
  if Path.isAbsolute p then [] else t.workingDirectory

/-- The names that a path leads to, if it can be followed. -/
def spelled (t : FileTree) (p : Path) : Names := (steps p).foldl stepInto (t.start p)

/-- Steps that can be taken: each leaves a directory, and no name is too long. -/
def Followed (t : FileTree) (names : Names) : List Component → Prop
  | [] => True
  | c :: cs => t.at? names = some .directory ∧ Text.byteLength c.text ≤ nameLimit ∧
      t.Followed (stepInto names c) cs

/-- What is asked of the text of a path. -/
def Fits (p : Path) : Prop :=
  Char.ofNat 0 ∉ p ∧ p ≠ [] ∧ Text.byteLength p ≤ pathLimit

/-- A path that can be followed. Whether there is something at its end is left open. -/
structure Reaches (t : FileTree) (p : Path) : Prop where
  fits : Fits p
  followed : t.Followed (t.start p) (steps p)

theorem at?_nil (t : FileTree) : t.at? [] = some .directory := rfl

theorem needDirectory_eq_ok {t : FileTree} {names : Names} :
    t.needDirectory names = .ok () ↔ t.at? names = some .directory := by
  unfold needDirectory
  cases h : t.at? names with
  | none => simp
  | some e => cases e <;> simp

theorem followed_append {t : FileTree} {names : Names} {cs ds : List Component} :
    t.Followed names (cs ++ ds) ↔
      t.Followed names cs ∧ t.Followed (cs.foldl stepInto names) ds := by
  induction cs generalizing names with
  | nil => simp [Followed]
  | cons c cs ih => simp [Followed, ih, and_assoc]

/-- While directories stay, what can be followed stays so. -/
theorem Followed.mono {t t' : FileTree}
    (hdirs : ∀ names, t.at? names = some .directory → t'.at? names = some .directory)
    {names : Names} {cs : List Component} (h : t.Followed names cs) : t'.Followed names cs := by
  induction cs generalizing names with
  | nil => trivial
  | cons c cs ih =>
    obtain ⟨hdir, hlen, hrest⟩ := h
    exact ⟨hdirs _ hdir, hlen, ih hrest⟩

theorem Followed.here {t : FileTree} {names : Names} {cs : List Component}
    (h : t.Followed names cs) (hcs : cs ≠ []) : t.at? names = some .directory := by
  cases cs with
  | nil => exact absurd rfl hcs
  | cons c cs => exact h.1

/-- A segment without a step only asks for a directory, unless it is empty. -/
theorem walk_cons_of_none {t : FileTree} {names : Names} {s : Text} {rest : List Text}
    (hs : Path.segment? s = none) :
    t.walk names (s :: rest) =
      if s.isEmpty then t.walk names rest
      else t.needDirectory names >>= fun _ => t.walk names rest := by
  rw [walk]
  by_cases hblank : s.isEmpty = true
  · rw [if_pos hblank, if_pos hblank]
  rw [if_neg hblank, if_neg hblank, if_pos ((Path.segment?_eq_none.1 hs).resolve_left
    fun hnil => hblank (List.isEmpty_iff.2 hnil))]

theorem walk_cons_of_some {t : FileTree} {names : Names} {s : Text} {c : Component}
    {rest : List Text} (hs : Path.segment? s = some c) :
    t.walk names (s :: rest) = t.needDirectory names >>= fun _ =>
      if nameLimit < Text.byteLength c.text then .error .nameTooLong
      else t.walk (stepInto names c) rest := by
  rw [walk]
  unfold Path.segment? at hs
  split at hs
  · cases hs
  next hblank =>
    obtain ⟨hempty, hcurrent⟩ := not_or.1 hblank
    rw [if_neg hempty, if_neg hcurrent]
    split at hs
    · next hparent =>
      cases hs
      rw [if_pos hparent]
      rfl
    · next hparent =>
      cases hs
      rw [if_neg hparent]
      rfl

/-- A walk leads to the names that are spelled, along directories. -/
theorem walk_eq_ok {t : FileTree} {names dest : Names} {segments : List Text}
    (h : t.walk names segments = .ok dest) :
    t.Followed names (segments.filterMap Path.segment?) ∧
      dest = (segments.filterMap Path.segment?).foldl stepInto names := by
  induction segments generalizing names with
  | nil =>
    cases h
    exact ⟨trivial, rfl⟩
  | cons s rest ih =>
    rw [List.filterMap_cons]
    cases hs : Path.segment? s with
    | none =>
      rw [walk_cons_of_none hs] at h
      split at h
      · exact ih h
      · obtain ⟨-, -, h⟩ := Outcome.bind_eq_ok.1 h
        exact ih h
    | some c =>
      rw [walk_cons_of_some hs] at h
      obtain ⟨_, hdir, h⟩ := Outcome.bind_eq_ok.1 h
      split at h
      · cases h
      · next hlen =>
        obtain ⟨hrest, hto⟩ := ih h
        exact ⟨⟨needDirectory_eq_ok.1 hdir, Nat.le_of_not_lt hlen, hrest⟩, hto⟩

/-- Segments that end in a name can be walked as soon as their steps can be taken: the
directory that a `.` asks for is asked for by a later step as well. -/
theorem walk_of_followed {t : FileTree} {names : Names} {segments : List Text} {s : Text}
    (hs : IsName s) (h : t.Followed names ((segments ++ [s]).filterMap Path.segment?)) :
    t.walk names (segments ++ [s]) =
      .ok (((segments ++ [s]).filterMap Path.segment?).foldl stepInto names) := by
  have hlast : Path.segment? s ≠ none := by
    rw [hs.segment?]
    exact Option.some_ne_none _
  induction segments generalizing names with
  | nil =>
    rw [List.nil_append, List.filterMap_cons, hs.segment?] at h ⊢
    obtain ⟨hdir, hlen, -⟩ := h
    rw [walk_cons_of_some hs.segment?, needDirectory_eq_ok.2 hdir, if_neg (Nat.not_lt.2 hlen)]
    rfl
  | cons a segments ih =>
    have hne : (segments ++ [s]).filterMap Path.segment? ≠ [] := by
      simp [List.filterMap_append, hs.segment?]
    rw [List.cons_append, List.filterMap_cons] at h ⊢
    cases ha : Path.segment? a with
    | none =>
      simp only [ha] at h ⊢
      rw [walk_cons_of_none ha, needDirectory_eq_ok.2 (h.here hne), ih h]
      split <;> rfl
    | some c =>
      simp only [ha] at h ⊢
      obtain ⟨hdir, hlen, hrest⟩ := h
      rw [walk_cons_of_some ha, needDirectory_eq_ok.2 hdir, if_neg (Nat.not_lt.2 hlen)]
      exact ih hrest

/-- A place is found where a path that fits is walked to. -/
theorem locate_eq_ok_iff {t : FileTree} {p : Path} {place : Place} :
    t.locate p = .ok place ↔ Fits p ∧ ∃ names,
      t.walk (t.start p) (Text.splitAll '/' p) = .ok names ∧
        place = ⟨names, p.getLast? = some '/'⟩ := by
  unfold locate
  constructor
  · intro h
    split at h
    · cases h
    next hnul =>
      split at h
      · cases h
      next hempty =>
        split at h
        · cases h
        next hlen =>
          obtain ⟨names, hwalk, h⟩ := Outcome.bind_eq_ok.1 h
          cases h
          exact ⟨⟨by simpa using hnul, by simpa using hempty, Nat.le_of_not_lt hlen⟩, names,
            hwalk, rfl⟩
  · rintro ⟨⟨hnul, hne, hlen⟩, names, hwalk, rfl⟩
    rw [start] at hwalk
    rw [if_neg (by simpa using hnul), if_neg (by simpa using hne), if_neg (Nat.not_lt.2 hlen)]
    simp only [hwalk]
    rfl

theorem locate_eq_ok {t : FileTree} {p : Path} {place : Place} (h : t.locate p = .ok place) :
    t.Reaches p ∧ place.names = t.spelled p ∧ place.slashed = (p.getLast? = some '/') := by
  obtain ⟨hfits, names, hwalk, rfl⟩ := locate_eq_ok_iff.1 h
  obtain ⟨hfollowed, rfl⟩ := walk_eq_ok hwalk
  exact ⟨⟨hfits, hfollowed⟩, rfl, by simp⟩

/-- A path that ends in a name is found where it is spelled if it can be followed. -/
theorem locate_of_reaches {t : FileTree} {p : Path} (hp : Path.Named p) (h : t.Reaches p) :
    t.locate p = .ok ⟨t.spelled p, false⟩ := by
  obtain ⟨hfits, hfollowed⟩ := h
  obtain ⟨q, s, hs, rfl⟩ := hp
  obtain ⟨front, hsplit, -⟩ := Path.splitAll_join q hs
  have hsteps : steps (join q s) = (front ++ [s]).filterMap Path.segment? := by
    rw [steps, hsplit]
  have hwalk := walk_of_followed hs (hsteps ▸ hfollowed)
  rw [← hsplit] at hwalk
  have hslash : ((join q s).getLast? = some '/') = False :=
    eq_false (Path.getLast?_join_ne_slash q hs)
  exact locate_eq_ok_iff.2 ⟨hfits, _, hwalk, by simp only [hslash, decide_false]; rfl⟩

theorem start_eq {t t' : FileTree} (h : t'.workingDirectory = t.workingDirectory) (p : Path) :
    t'.start p = t.start p := by
  rw [start, start, h]

/-- What a path spells depends on the working directory alone. -/
theorem spelled_eq {t t' : FileTree} (h : t'.workingDirectory = t.workingDirectory) (p : Path) :
    t'.spelled p = t.spelled p := by
  rw [spelled, spelled, start_eq h]

theorem Reaches.mono {t t' : FileTree} (hwd : t'.workingDirectory = t.workingDirectory)
    (hdirs : ∀ names, t.at? names = some .directory → t'.at? names = some .directory)
    {p : Path} (h : t.Reaches p) : t'.Reaches p :=
  ⟨h.fits, start_eq hwd p ▸ h.followed.mono hdirs⟩

theorem start_below (t : FileTree) (base : Path) {ns : List Text} (hns : ∀ s ∈ ns, IsName s) :
    t.start (below base ns) = t.start base := by
  rw [start, start, Path.isAbsolute_below base hns]

theorem foldl_stepInto_names (names : Names) (ns : List Text) :
    (ns.map Component.name).foldl stepInto names = names ++ ns := by
  induction ns generalizing names with
  | nil => simp
  | cons s ns ih => simp [stepInto, ih]

/-- Names below a base are spelled below it. -/
theorem spelled_below (t : FileTree) (base : Path) {ns : List Text}
    (hns : ∀ s ∈ ns, IsName s) : t.spelled (below base ns) = t.spelled base ++ ns := by
  rw [spelled, start_below t base hns, Path.steps_below base hns, List.foldl_append,
    foldl_stepInto_names]
  rfl

theorem spelled_join (t : FileTree) (base : Path) {s : Text} (hs : IsName s) :
    t.spelled (join base s) = t.spelled base ++ [s] :=
  spelled_below t base (List.forall_mem_singleton.2 hs)

theorem followed_below {t : FileTree} {base : Path} {ns : List Text}
    (hns : ∀ s ∈ ns, IsName s) :
    t.Followed (t.start (below base ns)) (steps (below base ns)) ↔
      t.Followed (t.start base) (steps base) ∧
        t.Followed (t.spelled base) (ns.map .name) := by
  rw [start_below t base hns, Path.steps_below base hns, followed_append]
  rfl

theorem followed_of_reaches_join {t : FileTree} {base : Path} {s : Text} (hs : IsName s)
    (h : t.Reaches (join base s)) : t.Followed (t.start base) (steps base) := by
  have hfollowed : t.Followed (t.start (below base [s])) (steps (below base [s])) := h.followed
  exact ((followed_below (List.forall_mem_singleton.2 hs)).1 hfollowed).1

/-- Names can be followed while each of them but the last is a directory. -/
theorem followed_names_concat {t : FileTree} {names : Names} {ns : List Text} {s : Text} :
    t.Followed names ((ns ++ [s]).map .name) ↔ t.Followed names (ns.map .name) ∧
      t.at? (names ++ ns) = some .directory ∧ Text.byteLength s ≤ nameLimit := by
  rw [List.map_append, followed_append, foldl_stepInto_names]
  simp [Followed, Component.text]

/-- Names that can be followed go along directories, and none is too long. -/
theorem followed_names {t : FileTree} {names : Names} {ns : List Text}
    (h : t.Followed names (ns.map .name)) :
    (∀ front, front <+: ns → front ≠ ns → t.at? (names ++ front) = some .directory) ∧
      ∀ s ∈ ns, Text.byteLength s ≤ nameLimit := by
  induction ns generalizing names with
  | nil =>
    exact ⟨fun front hfront hne => absurd (List.prefix_nil.1 hfront) hne, fun _ h => nomatch h⟩
  | cons s ns ih =>
    obtain ⟨hdir, hlen, hrest⟩ := h
    obtain ⟨hdirs, hlens⟩ := ih hrest
    refine ⟨fun front hfront hne => ?_, List.forall_mem_cons.2 ⟨hlen, hlens⟩⟩
    cases front with
    | nil => rwa [List.append_nil]
    | cons a front =>
      obtain ⟨rfl, hway⟩ := List.cons_prefix_cons.1 hfront
      have hnext := hdirs front hway fun heq => hne (by rw [heq])
      rwa [stepInto, List.append_assoc] at hnext

/-- While directories below names stay, names below them can be followed. -/
theorem followed_names_mono {t t' : FileTree} {names : Names} {ns : List Text}
    (hdirs : ∀ front, t.at? (names ++ front) = some .directory →
      t'.at? (names ++ front) = some .directory)
    (h : t.Followed names (ns.map .name)) : t'.Followed names (ns.map .name) := by
  induction ns generalizing names with
  | nil => trivial
  | cons s ns ih =>
    obtain ⟨hdir, hlen, hrest⟩ := h
    have hhere := hdirs []
    rw [List.append_nil] at hhere
    refine ⟨hhere hdir, hlen, ih (fun front hfront => ?_) hrest⟩
    have hnext := hdirs (s :: front)
    rw [stepInto, List.append_assoc] at hfront ⊢
    exact hnext hfront

/-- A path with a relative path that stays below the root leads below the root, and the root
with these names below it can be followed as well. -/
theorem spelled_of_relative? (t : FileTree) {root p : Path} {rel : Text} {ns : List Text}
    (h : relative? root p = some rel) (hns : names? rel = some ns) :
    t.spelled p = t.spelled root ++ ns ∧
      (t.Reaches p → Fits (below root ns) → t.Reaches (below root ns)) := by
  obtain ⟨hsteps, habs⟩ := Path.steps_of_relative? h hns
  have hnames := Path.isName_of_names? hns
  have hstart : t.start p = t.start root := by rw [start, start, habs]
  constructor
  · rw [spelled, hsteps, hstart, List.foldl_append, foldl_stepInto_names]
    rfl
  · intro hreach hfits
    refine ⟨hfits, ?_⟩
    rw [start_below t root hnames, Path.steps_below root hnames, ← hsteps, ← hstart]
    exact hreach.followed

theorem followed_of_relative? {t : FileTree} {root p : Path} {rel : Text} {ns : List Text}
    (h : relative? root p = some rel) (hns : names? rel = some ns) (hreach : t.Reaches p) :
    t.Followed (t.spelled root) (ns.map .name) := by
  obtain ⟨hsteps, habs⟩ := Path.steps_of_relative? h hns
  have hfollowed := hreach.followed
  have hstart : t.start p = t.start root := by rw [start, start, habs]
  rw [hsteps, hstart, followed_append] at hfollowed
  exact hfollowed.2

theorem stat_eq_ok {t : FileTree} {p : Path} {e : FileEntry} (h : t.stat p = .ok e) :
    t.Reaches p ∧ t.at? (t.spelled p) = some e := by
  obtain ⟨place, hplace, h⟩ := Outcome.bind_eq_ok.1 h
  obtain ⟨hreach, hnames, -⟩ := locate_eq_ok hplace
  rw [hnames] at h
  refine ⟨hreach, ?_⟩
  cases he : t.at? (t.spelled p) with
  | none =>
    rw [he] at h
    cases h
  | some e' =>
    rw [he] at h
    cases e' with
    | directory =>
      cases h
      rfl
    | file c =>
      simp only at h
      split at h
      · cases h
      · cases h
        rfl

theorem stat_of_reaches {t : FileTree} {p : Path} {e : FileEntry} (hp : Path.Named p)
    (h : t.Reaches p) (he : t.at? (t.spelled p) = some e) : t.stat p = .ok e := by
  rw [stat, locate_of_reaches hp h, Outcome.ok_bind]
  simp only [he]
  cases e <;> rfl

theorem read_eq_stat {t : FileTree} {p : Path} {c : Content} :
    t.read p = .ok c ↔ t.stat p = .ok (.file c) := by
  rw [read, Outcome.bind_eq_ok]
  constructor
  · rintro ⟨e, he, h⟩
    cases e with
    | directory => cases h
    | file c' =>
      cases h
      exact he
  · exact fun h => ⟨.file c, h, rfl⟩

theorem read_eq_ok {t : FileTree} {p : Path} {c : Content} (h : t.read p = .ok c) :
    t.Reaches p ∧ t.at? (t.spelled p) = some (.file c) :=
  stat_eq_ok (read_eq_stat.1 h)

theorem read_of_reaches {t : FileTree} {p : Path} {c : Content} (hp : Path.Named p)
    (h : t.Reaches p) (hc : t.at? (t.spelled p) = some (.file c)) : t.read p = .ok c :=
  read_eq_stat.2 (stat_of_reaches hp h hc)

theorem isFile_iff {t : FileTree} {p : Path} : t.isFile p = true ↔ ∃ c, t.read p = .ok c := by
  simp only [read_eq_stat]
  unfold isFile
  cases t.stat p with
  | error f => simp
  | ok e => cases e <;> simp

theorem isDirectory_iff {t : FileTree} {p : Path} :
    t.isDirectory p = true ↔ t.stat p = .ok .directory := by
  unfold isDirectory
  cases t.stat p with
  | error f => simp
  | ok e => cases e <;> simp

theorem readText_eq_ok {t : FileTree} {p : Path} {s : Text} :
    t.readText p = .ok s ↔ t.read p = .ok (.text s) := by
  rw [readText, Outcome.bind_eq_ok]
  constructor
  · rintro ⟨c, hc, h⟩
    cases c with
    | text s' =>
      cases h
      exact hc
    | bytes bs => cases h
  · exact fun h => ⟨.text s, h, rfl⟩

end LayeredConfig.FileTree
