import LayeredConfig.Proofs.Files.Relative

/-!
# Relative paths below a root

A relative path is joined to a root by the names among its segments. It has a place below the root
if it is not absolute, has a name and does not hold `..`. The relative path of that place spells the
names, and leads to the place again. In the same way every path below a root comes back from its
relative path, component by component, unless it holds `..` there.
-/
namespace LayeredConfig.Path

open Text (splitAll joinWith)

/-- The names among the segments of a path, in order. -/
def ordinary (p : Path) : List Text := (splitAll '/' p).filter fun s => IsName s

variable {root p rel : Path} {ns : List Text}

theorem segment?_eq_parent {s : Text} : segment? s = some .parent ↔ s = "..".toList := by
  constructor
  · intro h
    unfold segment? at h
    split at h
    · cases h
    · split at h
      · next hparent => exact hparent
      · cases h
  · rintro rfl
    rfl

/-- A segment that is no name and not `..` has no component. -/
theorem segment?_of_not_isName {s : Text} (hslash : '/' ∉ s) (hname : ¬ IsName s)
    (hparent : s ≠ "..".toList) : segment? s = none := by
  rw [segment?_eq_none]
  by_cases hnil : s = []
  · exact Or.inl hnil
  · by_cases hcurrent : s = ".".toList
    · exact Or.inr hcurrent
    · exact absurd ⟨hnil, hslash, hcurrent, hparent⟩ hname

theorem parent_mem_steps : .parent ∈ steps p ↔ "..".toList ∈ splitAll '/' p := by
  rw [steps, List.mem_filterMap]
  constructor
  · rintro ⟨s, hs, hparent⟩
    rwa [← segment?_eq_parent.1 hparent]
  · intro h
    exact ⟨_, h, rfl⟩

/-- Without `..`, the steps of a path are its names. -/
theorem steps_eq_ordinary (h : "..".toList ∉ splitAll '/' p) :
    steps p = (ordinary p).map .name := by
  have hslash : ∀ s ∈ splitAll '/' p, '/' ∉ s := fun s hs => Text.not_mem_of_mem_splitAll hs
  unfold steps ordinary
  generalize splitAll '/' p = segments at h hslash
  induction segments with
  | nil => rfl
  | cons s segments ih =>
    obtain ⟨hs, hrest⟩ := not_or.1 (mt List.mem_cons.2 h)
    obtain ⟨hsslash, hslash⟩ := List.forall_mem_cons.1 hslash
    by_cases hname : IsName s
    · rw [List.filterMap_cons_some hname.segment?, List.filter_cons_of_pos (by simpa using hname),
        ih hrest hslash, List.map_cons]
    · rw [List.filterMap_cons_none (segment?_of_not_isName hsslash hname (Ne.symm hs)),
        List.filter_cons_of_neg (by simpa using hname), ih hrest hslash]

theorem plainNames?_map_name (ns : List Text) : plainNames? (ns.map .name) = some ns := by
  induction ns with
  | nil => rfl
  | cons s ns ih => rw [List.map_cons, plainNames?, ih, Option.map_some]

/-- A relative path whose steps are names has these names. -/
theorem names?_of_steps (hrel : isAbsolute rel = false) (hsteps : steps rel = ns.map .name)
    (hne : ns ≠ []) :
    names? rel = some ns := by
  have hplain : plainNames? (components rel) = some ns := by
    obtain ⟨lead, hcomponents, hlead, habs⟩ := components_eq rel
    rw [hcomponents, hsteps]
    rcases hlead with rfl | rfl | rfl
    · exact plainNames?_map_name ns
    · exact absurd (habs.1 List.mem_cons_self) (by simp [hrel])
    · exact plainNames?_map_name ns
  rw [names?, hplain]
  simp [hne]

/-- **The names of a path are those among its segments**, if it is relative, has one and does not
hold `..`. -/
theorem names?_eq_some_iff : names? rel = some ns ↔
    isAbsolute rel = false ∧ "..".toList ∉ splitAll '/' rel ∧ ordinary rel ≠ [] ∧
    ns = ordinary rel := by
  constructor
  · intro h
    obtain ⟨hrel, hsteps⟩ := steps_of_names? h
    have hparent : "..".toList ∉ splitAll '/' rel := by
      rw [← parent_mem_steps, hsteps]
      simp
    rw [steps_eq_ordinary hparent, map_name_inj] at hsteps
    rw [hsteps]
    exact ⟨hrel, hparent, (names?_eq_some h).2, rfl⟩
  · rintro ⟨hrel, hparent, hne, rfl⟩
    exact names?_of_steps hrel (steps_eq_ordinary hparent) hne

theorem names?_joinWith (hns : ∀ s ∈ ns, IsName s) (hne : ns ≠ []) :
    names? (joinWith "/" ns) = some ns := by
  have hcomponents := components_joinWith_names hns hne
  rw [names?, hcomponents, plainNames?_map_name]
  simp [hne]

theorem confine?_isSome : (confine? root rel).isSome = true ↔
    isAbsolute rel = false ∧ "..".toList ∉ splitAll '/' rel ∧ ordinary rel ≠ [] := by
  rw [Option.isSome_iff_exists]
  constructor
  · rintro ⟨p, hp⟩
    obtain ⟨ns, hns, -⟩ := confine?_eq_some.1 hp
    obtain ⟨hrel, hparent, hne, -⟩ := names?_eq_some_iff.1 hns
    exact ⟨hrel, hparent, hne⟩
  · rintro ⟨hrel, hparent, hne⟩
    exact ⟨_, confine?_eq_some.2 ⟨_, names?_eq_some_iff.2 ⟨hrel, hparent, hne, rfl⟩, rfl⟩⟩

/-- What is below an absolute path are names, if it does not hold `..`. -/
theorem names_of_below? {cs : List Component} (hroot : isAbsolute root = true)
    (h : below? root p = some cs)
    (hparent : .parent ∉ cs) : ∃ ns : List Text, cs = ns.map .name ∧ ∀ s ∈ ns, IsName s := by
  have hcomponents := below?_eq_some.1 h
  obtain ⟨front, rest, hfront⟩ := List.append_of_mem ((isAbsolute_iff_root_mem root).1 hroot)
  rw [hfront, List.append_assoc, List.cons_append] at hcomponents
  have hstep : ∀ c ∈ cs, IsStep c :=
    fun c hc => isStep_of_mem_rest hcomponents c (List.mem_append_right _ hc)
  clear h hcomponents
  induction cs with
  | nil => exact ⟨[], rfl, by simp⟩
  | cons c cs ih =>
    obtain ⟨hc, hcs⟩ := List.forall_mem_cons.1 hstep
    obtain ⟨hne, hrest⟩ := not_or.1 (mt List.mem_cons.2 hparent)
    obtain ⟨ns, rfl, hns⟩ := ih hrest hcs
    cases c with
    | root => exact hc.elim
    | current => exact hc.elim
    | parent => exact absurd rfl hne
    | name s => exact ⟨s :: ns, rfl, List.forall_mem_cons.2 ⟨hc, hns⟩⟩

/-- **A path below an absolute root and its relative path determine each other.** A relative path
has a place below the root exactly if it is not absolute, does not hold `..` and has a name. The
components of the place are those of the root and then these names, its relative path is the names
joined by slashes, and that path has the same place. The other way round, a path below the root that
holds no `..` there is found at its relative path again. -/
theorem confine?_relative? (hroot : isAbsolute root = true) :
    (∀ rel, (confine? root rel).isSome = true ↔
      isAbsolute rel = false ∧ "..".toList ∉ splitAll '/' rel ∧ ordinary rel ≠ []) ∧
    (∀ rel p, confine? root rel = some p →
      components p = components root ++ (ordinary rel).map .name ∧
      relative? root p = some (joinWith "/" (ordinary rel)) ∧
      confine? root (joinWith "/" (ordinary rel)) = some p) ∧
    ∀ p cs, below? root p = some cs → cs ≠ [] → .parent ∉ cs →
      ∃ rel q, relative? root p = some rel ∧ confine? root rel = some q ∧
        components q = components p := by
  have hne : root ≠ [] := by
    rintro rfl
    cases hroot
  refine ⟨fun rel => confine?_isSome, fun rel p hp => ?_, fun p cs hbelow hcs hparent => ?_⟩
  · obtain ⟨ns, hns, rfl⟩ := confine?_eq_some.1 hp
    have hnames := isName_of_names? hns
    obtain ⟨-, -, hsome, rfl⟩ := names?_eq_some_iff.1 hns
    exact ⟨components_below hne hnames, relative?_below hne hnames hsome,
      confine?_eq_some.2 ⟨_, names?_joinWith hnames hsome, rfl⟩⟩
  · obtain ⟨ns, rfl, hnames⟩ := names_of_below? hroot hbelow hparent
    have hsome : ns ≠ [] := by simpa using hcs
    have hcomponents := below?_eq_some.1 hbelow
    have hagain : components (below root ns) = components p := by
      rw [components_below hne hnames, hcomponents]
    have hrelative : relative? root p = some (joinWith "/" ns) := by
      rw [← relative?_below hne hnames hsome, relative?, relative?, hbelow,
        below?_eq_some.2 (hagain.trans hcomponents)]
    exact ⟨_, _, hrelative, confine?_eq_some.2 ⟨ns, names?_joinWith hnames hsome, rfl⟩, hagain⟩

/-- A path with doubled slashes and dots below a root that has them too. -/
theorem confine?_relative?_untidy :
    let root : Path := "//conf/./x/"
    let rel : Path := "./db//./...//my sql/"
    let names : List Text := ["db", "...", "my sql"]
    isAbsolute root = true ∧ isAbsolute rel = false ∧ ordinary rel = names ∧
    ∃ p, confine? root rel = some p ∧ components p = components root ++ names.map .name ∧
      relative? root p = some "db/.../my sql".toList ∧ confine? root "db/.../my sql" = some p ∧
      confine? root "db/../x" = none ∧ confine? root "./." = none := by
  intro root rel names
  have hroot : isAbsolute root = true := rfl
  have hrel : isAbsolute rel = false := rfl
  have hnames : ordinary rel = names := by decide +kernel
  have hjoined : joinWith "/" names = "db/.../my sql".toList := by decide +kernel
  obtain ⟨hplace, hexact, -⟩ := confine?_relative? hroot
  obtain ⟨p, hp⟩ :=
    Option.isSome_iff_exists.1 ((hplace rel).2 ⟨hrel, by decide +kernel, by rw [hnames]; simp⟩)
  obtain ⟨hcomponents, hrelative, hagain⟩ := hexact rel p hp
  rw [hnames, hjoined] at hrelative hagain
  rw [hnames] at hcomponents
  have hparent : confine? root "db/../x" = none :=
    Option.not_isSome_iff_eq_none.1 (mt (hplace _).1 fun h => h.2.1 (by decide +kernel))
  have hnone : confine? root "./." = none :=
    Option.not_isSome_iff_eq_none.1 (mt (hplace _).1 fun h => h.2.2 (by decide +kernel))
  exact ⟨hroot, hrel, hnames, p, hp, hcomponents, hrelative, hagain, hparent, hnone⟩

end LayeredConfig.Path
