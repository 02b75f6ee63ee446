import LayeredConfig.Proofs.Files.Edit
import LayeredConfig.Proofs.Files.Relative
import LayeredConfig.Proofs.Snapshot.Listed
import LayeredConfig.Workspace.Browser
import Mathlib.Data.List.Nodup
import Mathlib.Data.List.Perm.Subperm

/-!
# What the browser shows

The walk goes through every directory that is not passed over, so it collects a file by the names on
the way to it: none of them is hidden, and none of the paths on the way is the one to skip. Below
the root these names are the relative path, and they pass the backup directory exactly if they begin
with its names.
-/
namespace LayeredConfig

open LayeredConfig.Path (join below names? IsName)

namespace FileTree

variable {t : FileTree} {dir skip p : Path} {s : Text} {rs : List Text} {fuel : Nat}

theorem textBefore_iff {a b : Text} : textBefore a b = true ↔ a < b := by
  induction a generalizing b with
  | nil => cases b <;> simp [textBefore]
  | cons x a ih =>
    cases b with
    | nil => simp [textBefore]
    | cons y b =>
      rw [textBefore, Bool.or_eq_true, Bool.and_eq_true, decide_eq_true_eq, decide_eq_true_eq, ih,
        List.cons_lt_cons_iff]
      exact Iff.rfl

theorem pairwise_sortNames (names : List Text) : (sortNames names).Pairwise fun a b => ¬ b < a := by
  have hle : ∀ a b : Text, decide (¬ textBefore b a = true) = true ↔ ¬ b < a := by
    intro a b
    rw [decide_eq_true_eq, textBefore_iff]
  refine (List.pairwise_mergeSort ?_ ?_ names).imp fun h => (hle _ _).1 h
  · intro a b c hab hbc
    have hab := List.not_lt.1 ((hle a b).1 hab)
    exact (hle a c).2 (List.not_lt.2 (List.le_trans hab (List.not_lt.1 ((hle b c).1 hbc))))
  · intro a b
    rw [Bool.or_eq_true, hle, hle]
    exact (List.le_total a b).imp List.not_lt.2 List.not_lt.2

/-- Names that differ are in strict order once they are sorted. -/
theorem ascending_sortNames {names : List Text} (h : names.Nodup) :
    (sortNames names).Pairwise (· < ·) := by
  have hnodup : (sortNames names).Nodup := (List.mergeSort_perm _ _).nodup_iff.2 h
  refine (pairwise_sortNames names).imp₂ (fun a b hle hne => ?_) hnodup
  by_contra hge
  exact hne (List.le_antisymm (List.not_lt.1 hle) (List.not_lt.1 hge))

/-- A directory that can be listed, with all directories below it. -/
structure Readable (t : FileTree) (dir : Path) : Prop where
  here : ∃ names, t.list dir = .ok names
  below : ∀ ns, t.at? (t.spelled dir ++ ns) = some .directory →
    ∃ names, t.list (below dir ns) = .ok names

theorem isDirectory_of_list (h : ∃ names, t.list p = .ok names) : t.isDirectory p = true :=
  (list_eq_ok.1 h.choose_spec).1

/-- It is enough to look at the entries. -/
theorem readable_of_entries (here : t.isDirectory dir = true)
    (h : ∀ x ∈ t.entries, t.spelled dir <+: x.1 →
      x.2 = .directory → t.isDirectory (below dir (x.1.drop (t.spelled dir).length)) = true) :
    t.Readable dir := by
  refine ⟨⟨_, list_eq_ok.2 ⟨here, rfl⟩⟩, fun ns hns => ⟨_, list_eq_ok.2 ⟨?_, rfl⟩⟩⟩
  by_cases hnil : ns = []
  · subst hnil
    exact here
  · rw [at?, if_neg (by simp [hnil])] at hns
    have hdir := h _ (mem_of_lookup_eq_some hns) (List.prefix_append _ _) rfl
    rwa [List.drop_left] at hdir

theorem Readable.join (h : t.Readable dir) (hs : IsName s)
    (hdir : t.at? (t.spelled dir ++ [s]) = some .directory) : t.Readable (join dir s) := by
  refine ⟨h.below [s] hdir, fun ns hns => ?_⟩
  rw [spelled_join t dir hs, List.append_assoc] at hns
  exact h.below (s :: ns) hns

/-- In a directory that can be listed, the paths of directories are those of directory entries. -/
theorem Readable.isDirectory_join (h : t.Readable dir) (hs : IsName s) :
    t.isDirectory (Path.join dir s) = true ↔ t.at? (t.spelled dir ++ [s]) = some .directory := by
  constructor
  · intro hdir
    rw [← spelled_join t dir hs]
    exact (stat_eq_ok (isDirectory_iff.1 hdir)).2
  · exact fun hdir => isDirectory_of_list (h.below [s] hdir)

theorem nodup_children (h : t.keys.Nodup) (n : Names) : (t.children n).Nodup := by
  rw [List.nodup_iff_count_le_one]
  intro name
  rw [count_children]
  exact List.nodup_iff_count_le_one.1 h _

/-- The names of a YAML file below a directory where the walk comes to it: none is hidden, and it
skips nothing on the way. -/
structure Browsed (t : FileTree) (skip dir : Path) (rs : List Text) : Prop where
  ne_nil : rs ≠ []
  file : ∃ c, t.at? (t.spelled dir ++ rs) = some (.file c)
  yaml : Path.isYaml (below dir rs) = true
  shown : ∀ s ∈ rs, isHidden s = false
  apart : ∀ front, front <+: rs → front ≠ [] → Path.same (below dir front) skip = false

theorem Browsed.isName (hnamed : t.IsNamed) (h : t.Browsed skip dir rs) : ∀ s ∈ rs, IsName s := by
  obtain ⟨c, hc⟩ := h.file
  exact fun s hs => hnamed.entry _ (by rw [hc]; exact Option.some_ne_none _) s
    (List.mem_append_right _ hs)

theorem browsed_singleton : t.Browsed skip dir [s] ↔ isHidden s = false ∧
    Path.same (Path.join dir s) skip = false ∧ Path.isYaml (Path.join dir s) = true ∧
      ∃ c, t.at? (t.spelled dir ++ [s]) = some (.file c) := by
  constructor
  · intro h
    exact ⟨h.shown s List.mem_cons_self,
      h.apart [s] (List.prefix_refl _) (List.cons_ne_nil _ _), h.yaml, h.file⟩
  · rintro ⟨hshown, hapart, hyaml, hfile⟩
    refine ⟨List.cons_ne_nil _ _, hfile, hyaml, List.forall_mem_singleton.2 hshown, ?_⟩
    intro front hfront hne
    obtain ⟨a, front, rfl⟩ := List.exists_cons_of_ne_nil hne
    obtain ⟨rfl, hnil⟩ := List.cons_prefix_cons.1 hfront
    rwa [List.prefix_nil.1 hnil]

/-- A file that lies deeper is met from the directory of its first name. -/
theorem browsed_cons (hs : IsName s) (hrs : rs ≠ []) : t.Browsed skip dir (s :: rs) ↔
    isHidden s = false ∧ Path.same (Path.join dir s) skip = false ∧
      t.Browsed skip (Path.join dir s) rs := by
  have hnames : t.spelled (Path.join dir s) ++ rs = t.spelled dir ++ s :: rs := by
    rw [spelled_join t dir hs, List.append_assoc, List.singleton_append]
  constructor
  · intro h
    obtain ⟨hshown, hrest⟩ := List.forall_mem_cons.1 h.shown
    refine ⟨hshown, h.apart [s] (List.prefix_append [s] rs) (List.cons_ne_nil _ _), hrs, ?_,
      h.yaml, hrest, ?_⟩
    · rw [hnames]
      exact h.file
    · exact fun front hfront _ =>
        h.apart (s :: front) (List.cons_prefix_cons.2 ⟨rfl, hfront⟩) (List.cons_ne_nil _ _)
  · rintro ⟨hshown, hapart, h⟩
    refine ⟨List.cons_ne_nil _ _, ?_, h.yaml, List.forall_mem_cons.2 ⟨hshown, h.shown⟩, ?_⟩
    · rw [← hnames]
      exact h.file
    · intro front hfront hne
      obtain ⟨a, front, rfl⟩ := List.exists_cons_of_ne_nil hne
      obtain ⟨rfl, hway⟩ := List.cons_prefix_cons.1 hfront
      by_cases hnil : front = []
      · subst hnil
        exact hapart
      · exact h.apart front hway hnil

/-- A file entry is met as itself, since nothing lies below it. -/
theorem browsed_file (htree : t.IsTree) {c : Content}
    (hat : t.at? (t.spelled dir ++ [s]) = some (.file c)) : t.Browsed skip dir (s :: rs) ↔
      rs = [] ∧ isHidden s = false ∧ Path.same (Path.join dir s) skip = false ∧
        Path.isYaml (Path.join dir s) = true := by
  constructor
  · intro h
    have hnil : rs = [] := by
      by_contra hnil
      obtain ⟨c', hc'⟩ := h.file
      have hbelow := htree.nothing_below_file hat hnil
      rw [List.append_assoc, List.singleton_append, hc'] at hbelow
      cases hbelow
    subst hnil
    obtain ⟨hshown, hapart, hyaml, -⟩ := browsed_singleton.1 h
    exact ⟨rfl, hshown, hapart, hyaml⟩
  · rintro ⟨rfl, hshown, hapart, hyaml⟩
    exact browsed_singleton.2 ⟨hshown, hapart, hyaml, c, hat⟩

/-- A directory entry is no file itself. -/
theorem browsed_directory (hs : IsName s) (hat : t.at? (t.spelled dir ++ [s]) = some .directory) :
    t.Browsed skip dir (s :: rs) ↔ isHidden s = false ∧ Path.same (Path.join dir s) skip = false ∧
      t.Browsed skip (Path.join dir s) rs := by
  by_cases hnil : rs = []
  · subst hnil
    refine iff_of_false (fun h => ?_) fun h => h.2.2.ne_nil rfl
    obtain ⟨c, hc⟩ := h.file
    rw [hat] at hc
    cases hc
  · exact browsed_cons hs hnil

/-- What the walk finds at an entry of a directory. -/
def yamlFilesAt (t : FileTree) (skip : Path) (fuel : Nat) (p : Path) (name : Text) : List Path :=
  if isHidden name ∨ Path.same p skip then []
  else if t.isDirectory p then t.yamlFiles skip fuel p
  else if Path.isYaml p then [p]
  else []

theorem yamlFiles_succ (h : t.isDirectory dir = true) : t.yamlFiles skip (fuel + 1) dir =
    (t.children (t.spelled dir)).flatMap fun name =>
      t.yamlFilesAt skip fuel (Path.join dir name) name := by
  rw [yamlFiles, list_eq_ok.2 ⟨h, rfl⟩]
  rfl

/-- What is found at an entry has the name of the entry first, if the walk from the entry finds what
it comes to. -/
theorem mem_yamlFilesAt (htree : t.IsTree) (hread : t.Readable dir) (hs : IsName s)
    (hthere : t.at? (t.spelled dir ++ [s]) ≠ none)
    (hwalk : t.Readable (Path.join dir s) → (p ∈ t.yamlFiles skip fuel (Path.join dir s) ↔
      ∃ rs, t.Browsed skip (Path.join dir s) rs ∧ rs.length ≤ fuel ∧
        p = below (Path.join dir s) rs)) :
    p ∈ t.yamlFilesAt skip fuel (Path.join dir s) s ↔
      ∃ rs, t.Browsed skip dir (s :: rs) ∧ rs.length ≤ fuel ∧ p = below dir (s :: rs) := by
  unfold yamlFilesAt
  by_cases hpassed : isHidden s = true ∨ Path.same (Path.join dir s) skip = true
  · rw [if_pos hpassed]
    refine iff_of_false List.not_mem_nil ?_
    rintro ⟨rs, hrs, -, -⟩
    have hshown := hrs.shown s List.mem_cons_self
    have hapart : Path.same (Path.join dir s) skip = false :=
      hrs.apart [s] (List.prefix_append [s] rs) (List.cons_ne_nil _ _)
    simp [hshown, hapart] at hpassed
  rw [if_neg hpassed]
  rw [not_or, Bool.not_eq_true, Bool.not_eq_true] at hpassed
  obtain ⟨hshown, hapart⟩ := hpassed
  cases hat : t.at? (t.spelled dir ++ [s]) with
  | none => exact absurd hat hthere
  | some e =>
    cases e with
    | directory =>
      rw [if_pos ((hread.isDirectory_join hs).2 hat), hwalk (hread.join hs hat)]
      simp only [browsed_directory hs hat, hshown, hapart, true_and]
      exact Iff.rfl
    | file c =>
      have hdir : ¬ t.isDirectory (Path.join dir s) = true := by
        rw [hread.isDirectory_join hs, hat]
        simp
      rw [if_neg hdir]
      simp only [browsed_file htree hat, hshown, hapart, true_and]
      constructor
      · intro hp
        split at hp
        · next hyaml => exact ⟨[], ⟨rfl, hyaml⟩, Nat.zero_le _, List.mem_singleton.1 hp⟩
        · cases hp
      · rintro ⟨rs, ⟨rfl, hyaml⟩, -, rfl⟩
        rw [if_pos hyaml]
        exact List.mem_singleton_self _

/-- The walk finds the files that it comes to within its fuel. -/
theorem mem_yamlFiles (hnamed : t.IsNamed) (htree : t.IsTree) (hread : t.Readable dir) :
    p ∈ t.yamlFiles skip fuel dir ↔
      ∃ rs, t.Browsed skip dir rs ∧ rs.length ≤ fuel ∧ p = below dir rs := by
  induction fuel generalizing dir with
  | zero =>
    refine iff_of_false List.not_mem_nil ?_
    rintro ⟨rs, hrs, hlen, -⟩
    exact hrs.ne_nil (List.eq_nil_of_length_eq_zero (Nat.le_zero.1 hlen))
  | succ fuel ih =>
    have hentry : ∀ s, t.at? (t.spelled dir ++ [s]) ≠ none →
        (p ∈ t.yamlFilesAt skip fuel (Path.join dir s) s ↔
          ∃ rs, t.Browsed skip dir (s :: rs) ∧ rs.length ≤ fuel ∧ p = below dir (s :: rs)) :=
      fun s hthere => mem_yamlFilesAt htree hread (hnamed.entry _ hthere s (by simp)) hthere ih
    rw [yamlFiles_succ (isDirectory_of_list hread.here), List.mem_flatMap]
    constructor
    · rintro ⟨s, hmem, hp⟩
      obtain ⟨rs, hrs, hlen, rfl⟩ := (hentry s (mem_children_iff.1 hmem)).1 hp
      exact ⟨s :: rs, hrs, Nat.succ_le_succ hlen, rfl⟩
    · rintro ⟨rs, hrs, hlen, rfl⟩
      obtain ⟨s, rs, rfl⟩ := List.exists_cons_of_ne_nil hrs.ne_nil
      have hthere : t.at? (t.spelled dir ++ [s]) ≠ none := by
        intro hnone
        obtain ⟨c, hc⟩ := hrs.file
        have hbelow := htree.nothing_below hnone rs
        rw [List.append_assoc, List.singleton_append, hc] at hbelow
        cases hbelow
      exact ⟨s, mem_children_iff.2 hthere,
        (hentry s hthere).2 ⟨rs, hrs, Nat.le_of_succ_le_succ hlen, rfl⟩⟩

/-- The walk finds no file twice: what it finds at two entries differs in the name of the entry. -/
theorem nodup_yamlFiles (hnamed : t.IsNamed) (htree : t.IsTree) (hkeys : t.keys.Nodup)
    (hread : t.Readable dir) : (t.yamlFiles skip fuel dir).Nodup := by
  induction fuel generalizing dir with
  | zero => exact List.nodup_nil
  | succ fuel ih =>
    rw [yamlFiles_succ (isDirectory_of_list hread.here), List.nodup_flatMap]
    have hname : ∀ {s}, s ∈ t.children (t.spelled dir) → IsName s := fun hs =>
      hnamed.entry _ (mem_children_iff.1 hs) _ (by simp)
    constructor
    · intro s hs
      unfold yamlFilesAt
      split
      · exact List.nodup_nil
      · split
        · next hdir => exact ih (hread.join (hname hs) ((hread.isDirectory_join (hname hs)).1 hdir))
        · split
          · exact List.nodup_singleton _
          · exact List.nodup_nil
    · refine (nodup_children hkeys _).pairwise_of_forall_ne fun a ha b hb hab => ?_
      have hfound : ∀ {s p}, s ∈ t.children (t.spelled dir) →
          p ∈ t.yamlFilesAt skip fuel (Path.join dir s) s →
            ∃ rs, t.Browsed skip dir (s :: rs) ∧ p = below dir (s :: rs) := by
        intro s p hs hp
        obtain ⟨rs, hrs, -, rfl⟩ := (mem_yamlFilesAt htree hread (hname hs) (mem_children_iff.1 hs)
          (mem_yamlFiles hnamed htree)).1 hp
        exact ⟨rs, hrs, rfl⟩
      intro p hpa hpb
      obtain ⟨rs, hrs, rfl⟩ := hfound ha hpa
      obtain ⟨rs', hrs', heq⟩ := hfound hb hpb
      exact hab (List.cons.inj (Path.below_inj (hrs.isName hnamed) (hrs'.isName hnamed) heq)).1

/-- No entry lies deeper than there are entries. -/
theorem length_le_of_there (htree : t.IsTree) {n : Names} (h : t.at? (n ++ rs) ≠ none) :
    rs.length ≤ t.entries.length := by
  let ways := (List.range rs.length).map fun k => n ++ rs.take (k + 1)
  have hnodup : ways.Nodup := by
    refine List.nodup_range.map_on fun i hi j hj heq => ?_
    have hlen := congrArg List.length heq
    simp only [List.length_append, List.length_take] at hlen
    have hi := List.mem_range.1 hi
    have hj := List.mem_range.1 hj
    omega
  have hkeys : ways ⊆ t.keys := by
    intro way hway
    obtain ⟨k, hk, rfl⟩ := List.mem_map.1 hway
    have hk := List.mem_range.1 hk
    have hne : n ++ rs.take (k + 1) ≠ [] := by
      intro hnil
      have hlen := congrArg List.length hnil
      simp only [List.length_append, List.length_take, List.length_nil] at hlen
      omega
    refine (mem_keys_iff hne).2 fun hnone => h ?_
    have hbelow := htree.nothing_below hnone (rs.drop (k + 1))
    rwa [List.append_assoc, List.take_append_drop] at hbelow
  simpa [ways, keys] using (hnodup.subperm hkeys).length_le

end FileTree

namespace Workspace

open FileTree (Browsed)

variable {w : Workspace} {t : FileTree} {ns rs : List Text} {r : Text}

theorem root_ne_nil (hread : t.Readable w.root) : w.root ≠ [] :=
  (FileTree.stat_eq_ok
    (FileTree.isDirectory_iff.1 (FileTree.isDirectory_of_list hread.here))).1.fits.2.1

/-- The browser shows the relative paths of the files that the walk comes to. -/
theorem mem_browserEntries (hnamed : t.IsNamed) (htree : t.IsTree) (hread : t.Readable w.root) :
    r ∈ w.browserEntries t ↔
      ∃ rs, t.Browsed w.snapshots.directory w.root rs ∧ r = Text.joinWith "/" rs := by
  have hroot := root_ne_nil hread
  rw [browserEntries, FileTree.sortNames, List.mem_mergeSort, List.mem_filterMap]
  constructor
  · rintro ⟨p, hp, hr⟩
    obtain ⟨rs, hrs, -, rfl⟩ := (FileTree.mem_yamlFiles hnamed htree hread).1 hp
    rw [Path.relative?_below hroot (hrs.isName hnamed) hrs.ne_nil] at hr
    exact ⟨rs, hrs, (Option.some.inj hr).symm⟩
  · rintro ⟨rs, hrs, rfl⟩
    obtain ⟨c, hc⟩ := hrs.file
    have hdeep : rs.length ≤ t.entries.length + 1 :=
      Nat.le_succ_of_le
        (FileTree.length_le_of_there htree (by rw [hc]; exact Option.some_ne_none _))
    exact ⟨below w.root rs, (FileTree.mem_yamlFiles hnamed htree hread).2 ⟨rs, hrs, hdeep, rfl⟩,
      Path.relative?_below hroot (hrs.isName hnamed) hrs.ne_nil⟩

/-- The browser shows no path twice. -/
theorem ascending_browserEntries (hnamed : t.IsNamed) (htree : t.IsTree) (hkeys : t.keys.Nodup)
    (hread : t.Readable w.root) : (w.browserEntries t).Pairwise (· < ·) := by
  have hroot := root_ne_nil hread
  refine FileTree.ascending_sortNames (List.pairwise_filterMap.2 ?_)
  refine (FileTree.nodup_yamlFiles hnamed htree hkeys hread).imp_of_mem ?_
  intro p q hp hq hpq a ha b hb hab
  obtain ⟨rs, hrs, -, rfl⟩ := (FileTree.mem_yamlFiles hnamed htree hread).1 hp
  obtain ⟨rs', hrs', -, rfl⟩ := (FileTree.mem_yamlFiles hnamed htree hread).1 hq
  rw [Path.relative?_below hroot (hrs.isName hnamed) hrs.ne_nil] at ha
  rw [Path.relative?_below hroot (hrs'.isName hnamed) hrs'.ne_nil] at hb
  have hplain : ∀ {names : List Text}, (∀ s ∈ names, IsName s) → ∀ s ∈ names, s ≠ [] ∧ '/' ∉ s :=
    fun h s hs => ⟨(h s hs).ne_nil, (h s hs).noSlash⟩
  have hnames : rs = rs' :=
    Text.joinWith_inj (hplain (hrs.isName hnamed)) (hplain (hrs'.isName hnamed))
    ((Option.some.inj ha).trans (hab.trans (Option.some.inj hb).symm))
  exact hpq (by rw [hnames])

/-- Names pass the backup directory if they begin with its names. -/
theorem passes_backups (hread : t.Readable w.root)
    (hdir : names? w.settings.backups.dirName = some ns) (hrs : ∀ s ∈ rs, IsName s) :
    (∀ front, front <+: rs → front ≠ [] →
      Path.same (below w.root front) w.snapshots.directory = false) ↔ ¬ ns <+: rs := by
  have hsame : ∀ front, front <+: rs →
      (Path.same (below w.root front) w.snapshots.directory = true ↔ front = ns) :=
    fun front hfront =>
    Path.same_below_join (root_ne_nil hread) (fun s hs => hrs s (hfront.subset hs)) hdir
  constructor
  · intro h hns
    have hapart := h ns hns (Path.names?_eq_some hdir).2
    rw [(hsame ns hns).2 rfl] at hapart
    cases hapart
  · intro h front hfront _
    rw [Bool.eq_false_iff, Ne, hsame front hfront]
    rintro rfl
    exact h hfront

/-- **The browser shows the YAML files of the tree**, each once and in the order of their relative
paths: those without a hidden name on the way, but for what lies at or below the backup
directory. -/
theorem browserEntries_exact (hnamed : t.IsNamed) (htree : t.IsTree) (hkeys : t.keys.Nodup)
    (hread : t.Readable w.root) (hdir : names? w.settings.backups.dirName = some ns) :
    (w.browserEntries t).Pairwise (· < ·) ∧
    ∀ r, r ∈ w.browserEntries t ↔ ∃ rs c, rs ≠ [] ∧ r = Text.joinWith "/" rs ∧
      t.at? (t.spelled w.root ++ rs) = some (.file c) ∧
      (Path.extension? r = some "yaml".toList ∨ Path.extension? r = some "yml".toList) ∧
      (∀ s ∈ rs, s.head? ≠ some '.') ∧ ¬ ns <+: rs := by
  have hroot := root_ne_nil hread
  refine ⟨ascending_browserEntries hnamed htree hkeys hread, fun r => ?_⟩
  rw [mem_browserEntries hnamed htree hread]
  have hextension : ∀ {rs}, (∀ s ∈ rs, IsName s) → rs ≠ [] →
      (Path.isYaml (below w.root rs) = true ↔
        Path.extension? (Text.joinWith "/" rs) = some "yaml".toList ∨
        Path.extension? (Text.joinWith "/" rs) = some "yml".toList) := by
    intro rs hrs hne
    rw [Path.isYaml, decide_eq_true_eq, Path.extension?_below hroot hrs hne]
  constructor
  · rintro ⟨rs, hrs, rfl⟩
    obtain ⟨c, hc⟩ := hrs.file
    have hnames := hrs.isName hnamed
    exact ⟨rs, c, hrs.ne_nil, rfl, hc, (hextension hnames hrs.ne_nil).1 hrs.yaml,
      fun s hs => of_decide_eq_false (hrs.shown s hs),
      (passes_backups hread hdir hnames).1 hrs.apart⟩
  · rintro ⟨rs, c, hne, rfl, hc, hyaml, hshown, hapart⟩
    have hnames : ∀ s ∈ rs, IsName s := fun s hs =>
      hnamed.entry _ (by rw [hc]; exact Option.some_ne_none _) s (List.mem_append_right _ hs)
    exact ⟨rs, ⟨hne, ⟨c, hc⟩, (hextension hnames hne).2 hyaml,
      fun s hs => decide_eq_false (hshown s hs), (passes_backups hread hdir hnames).2 hapart⟩, rfl⟩

namespace Browsing

def workspace : Workspace :=
  { root := "/r", selected := none,
    settings :=
      { Settings.standard with backups := { Settings.standardBackups with dirName := "./x/b" } } }

def tree : FileTree where
  entries :=
    [(["r"].map String.toList, .directory),
      (["r", "x"].map String.toList, .directory),
      (["r", "x", "b"].map String.toList, .directory),
      (["r", "x", "b", "old.yaml"].map String.toList, .file (.text "")),
      (["r", "x", "c.yml"].map String.toList, .file (.text "")),
      (["r", "a.yaml"].map String.toList, .file (.text "")),
      (["r", "a.txt"].map String.toList, .file (.text "")),
      (["r", ".a.yaml"].map String.toList, .file (.text ""))]
  workingDirectory := []

end Browsing

open Browsing in
theorem browserEntries_exact_nested :
    (workspace.browserEntries tree).Pairwise (· < ·) ∧
    "x/c.yml".toList ∈ workspace.browserEntries tree ∧
    ∀ r, r ∈ workspace.browserEntries tree ↔ ∃ rs c, rs ≠ [] ∧ r = Text.joinWith "/" rs ∧
      tree.at? (tree.spelled workspace.root ++ rs) = some (.file c) ∧
      (Path.extension? r = some "yaml".toList ∨ Path.extension? r = some "yml".toList) ∧
      (∀ s ∈ rs, s.head? ≠ some '.') ∧ ¬ ["x", "b"].map String.toList <+: rs := by
  have hexact := browserEntries_exact (w := workspace) (t := tree)
    (FileTree.isNamed_of_entries (by decide +kernel) (by decide +kernel))
    (FileTree.isTree_of_entries (by decide +kernel)) (by decide +kernel)
    (FileTree.readable_of_entries (by decide +kernel) (by decide +kernel))
    (show names? workspace.settings.backups.dirName = some (["x", "b"].map String.toList) by
      decide +kernel)
  exact ⟨hexact.1, (hexact.2 _).2 ⟨["x", "c.yml"].map String.toList, .text "", by decide +kernel⟩,
    hexact.2⟩

end Workspace
end LayeredConfig
