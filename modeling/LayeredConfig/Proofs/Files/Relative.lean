import LayeredConfig.Proofs.Files.Path

/-!
# Relative paths

A relative path that is joined adds its steps to the components of its base, and so do names. A path
with names below a base is the base only if there are no names, its relative path spells them, and
its extension is that of the relative path.
-/
namespace LayeredConfig.Path

variable {base p q : Path} {ns ms : List Text}

/-- A relative path that is joined comes after the segments of its base. -/
theorem splitAll_join_of_relative (hp : p ≠ []) (hq : isAbsolute q = false) :
    ∃ first rest, Text.splitAll '/' (join p q) = first :: rest ++ Text.splitAll '/' q ∧
      (Text.splitAll '/' p = first :: rest ∨ Text.splitAll '/' p = first :: rest ++ [[]]) := by
  rw [join, if_neg (by simp [hq])]
  split
  · next hend =>
    obtain ⟨front, c, rfl⟩ := (List.eq_nil_or_concat p).resolve_left hp
    obtain rfl : c = '/' := by simpa using hend
    obtain ⟨first, rest, hfront⟩ := List.exists_cons_of_ne_nil (Text.splitAll_ne_nil '/' front)
    rw [List.concat_eq_append, List.append_assoc, List.singleton_append, Text.splitAll_append,
      Text.splitAll_append, hfront]
    exact ⟨first, rest, rfl, Or.inr rfl⟩
  · obtain ⟨first, rest, hfirst⟩ := List.exists_cons_of_ne_nil (Text.splitAll_ne_nil '/' p)
    rw [Text.splitAll_append, hfirst]
    exact ⟨first, rest, rfl, Or.inl rfl⟩

theorem isAbsolute_join_of_relative (hp : p ≠ []) (hq : isAbsolute q = false) :
    isAbsolute (join p q) = isAbsolute p := by
  rw [join, if_neg (by simp [hq])]
  obtain ⟨c, p, rfl⟩ := List.exists_cons_of_ne_nil hp
  split <;> rfl

/-- A relative path that is joined adds its steps. -/
theorem components_join (hp : p ≠ []) (hq : isAbsolute q = false) :
    components (join p q) = components p ++ steps q := by
  obtain ⟨first, rest, hjoin, hsplit⟩ := splitAll_join_of_relative hp hq
  have hrest : ∀ more, more.filterMap segment? = [] → Text.splitAll '/' p = first :: rest ++ more →
      components (join p q) = components p ++ steps q := by
    intro more hmore hp'
    rw [components, components, hjoin, hp', isAbsolute_join_of_relative hp hq]
    simp only [List.cons_append, List.filterMap_append, hmore, List.append_nil,
      List.append_assoc, steps]
  rcases hsplit with hsplit | hsplit
  · exact hrest [] rfl (by rw [hsplit, List.append_nil])
  · exact hrest [[]] rfl hsplit

/-- Names below a base are components after those of the base. -/
theorem components_below (hbase : base ≠ []) (hns : ∀ s ∈ ns, IsName s) :
    components (below base ns) = components base ++ ns.map .name := by
  induction ns generalizing base with
  | nil => rw [List.map_nil, List.append_nil]; rfl
  | cons s ns ih =>
    obtain ⟨hs, hns⟩ := List.forall_mem_cons.1 hns
    have hstep : steps s = [.name s] := by
      rw [steps, Text.splitAll_of_not_mem hs.noSlash, List.filterMap_cons_some hs.segment?]
      rfl
    have hb : below base (s :: ns) = below (join base s) ns := rfl
    rw [hb, ih (join_ne_nil base hs) hns, components_join hbase (isAbsolute_of_isName hs), hstep,
      List.append_assoc, List.map_cons, List.singleton_append]

theorem map_name_inj : ns.map Component.name = ms.map .name ↔ ns = ms :=
  List.map_inj_right fun _ _ h => Component.name.inj h

/-- Different names lie at different paths. -/
theorem below_inj (hns : ∀ s ∈ ns, IsName s) (hms : ∀ s ∈ ms, IsName s)
    (h : below base ns = below base ms) : ns = ms := by
  have hsteps := congrArg steps h
  rw [steps_below base hns, steps_below base hms] at hsteps
  exact map_name_inj.1 (List.append_cancel_left hsteps)

/-- A path with names is relative and takes these names as its steps. -/
theorem steps_of_names? {rel : Text} (h : names? rel = some ns) :
    isAbsolute rel = false ∧ steps rel = ns.map .name := by
  obtain ⟨hplain, -⟩ := names?_eq_some h
  obtain ⟨hfilter, hroot⟩ := plainNames?_eq_some hplain
  refine ⟨?_, by rw [steps_eq_filter, hfilter]⟩
  rw [Bool.eq_false_iff, Ne, isAbsolute_iff_root_mem]
  exact hroot

/-- Names below a base are a relative path joined to it if they are the names of that path. -/
theorem same_below_join (hbase : base ≠ []) {rel : Text} (hns : ∀ s ∈ ns, IsName s)
    (hms : names? rel = some ms) : same (below base ns) (join base rel) = true ↔ ns = ms := by
  obtain ⟨hrel, hsteps⟩ := steps_of_names? hms
  rw [same, decide_eq_true_eq, components_below hbase hns, components_join hbase hrel, hsteps,
    List.append_cancel_left_eq, map_name_inj]

/-- The relative path of names below a base. -/
theorem relative?_below (hbase : base ≠ []) (hns : ∀ s ∈ ns, IsName s) (hne : ns ≠ []) :
    relative? base (below base ns) = some (Text.joinWith "/" ns) := by
  have hbelow : below? base (below base ns) = some (ns.map .name) :=
    below?_eq_some.2 (components_below hbase hns)
  have htext : (ns.map Component.name).map Component.text = ns := by
    rw [List.map_map]
    exact List.map_id ns
  obtain ⟨s, ns, rfl⟩ := List.exists_cons_of_ne_nil hne
  rw [relative?, hbelow]
  simp only [List.map_cons] at htext ⊢
  rw [htext]

theorem components_joinWith_names (hns : ∀ s ∈ ns, IsName s) (hne : ns ≠ []) :
    components (Text.joinWith "/" ns) = ns.map .name := by
  obtain ⟨s, ns, rfl⟩ := List.exists_cons_of_ne_nil hne
  obtain ⟨hs, hns⟩ := List.forall_mem_cons.1 hns
  have hstep : ∀ c ∈ ns.map Component.name, IsStep c := List.forall_mem_map.2 hns
  have h := components_joinWith (c := .name s) (Or.inr hs) hstep
  rw [List.map_cons, List.map_map] at h
  simpa [Function.comp_def, Component.text] using h

/-- The last name decides the extension. -/
theorem extension?_congr (h : (components p).getLast? = (components q).getLast?) :
    extension? p = extension? q := by
  rw [extension?, extension?, fileName?, fileName?, h]

theorem extension?_below (hbase : base ≠ []) (hns : ∀ s ∈ ns, IsName s) (hne : ns ≠ []) :
    extension? (below base ns) = extension? (Text.joinWith "/" ns) := by
  refine extension?_congr ?_
  obtain ⟨front, s, rfl⟩ := (List.eq_nil_or_concat ns).resolve_left hne
  rw [components_below hbase hns, components_joinWith_names hns hne, List.concat_eq_append,
    List.map_append, List.map_singleton, ← List.append_assoc, List.getLast?_concat,
    List.getLast?_concat]

end LayeredConfig.Path
