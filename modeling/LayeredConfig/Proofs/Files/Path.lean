import LayeredConfig.Files.Path
import LayeredConfig.Proofs.Text.Segments

/-!
# Paths by their steps

A path takes a step for each of its names and each `..`. Joining a name adds one step. The paths
that `confine?` gives are the base with the names of a relative path below it, and `relative?`
finds these names again.
-/
namespace LayeredConfig

namespace Path

/-- A text that stands for one name in a path. -/
structure IsName (s : Text) : Prop where
  ne_nil : s ≠ []
  noSlash : '/' ∉ s
  ne_current : s ≠ ".".toList
  ne_parent : s ≠ "..".toList

instance (s : Text) : Decidable (IsName s) :=
  decidable_of_iff (s ≠ [] ∧ '/' ∉ s ∧ s ≠ ".".toList ∧ s ≠ "..".toList)
    ⟨fun h => ⟨h.1, h.2.1, h.2.2.1, h.2.2.2⟩, fun h => ⟨h.1, h.2, h.3, h.4⟩⟩

/-- The names and the `..` of a path, in order. -/
def steps (p : Path) : List Component := (Text.splitAll '/' p).filterMap segment?

/-- A component that takes a step. -/
def IsStep : Component → Prop
  | .parent => True
  | .name s => IsName s
  | _ => False

theorem IsName.segment? {s : Text} (h : IsName s) : segment? s = some (.name s) := by
  unfold Path.segment?
  have hblank : ¬ (s.isEmpty = true ∨ s = ".".toList) :=
    not_or.2 ⟨fun he => h.ne_nil (List.isEmpty_iff.1 he), h.ne_current⟩
  rw [if_neg hblank, if_neg h.ne_parent]

theorem segment?_nil : segment? [] = none := rfl

theorem segment?_eq_none {s : Text} : segment? s = none ↔ s = [] ∨ s = ".".toList := by
  unfold segment?
  split
  · next h => simpa only [List.isEmpty_iff, true_iff] using h
  · next h =>
    rw [List.isEmpty_iff] at h
    split <;> simp only [h, reduceCtorEq]

theorem isStep_of_segment? {s : Text} {c : Component} (hs : '/' ∉ s) (h : segment? s = some c) :
    IsStep c := by
  unfold Path.segment? at h
  split at h
  · cases h
  next hblank =>
    split at h
    · cases h
      trivial
    next hparent =>
      cases h
      exact ⟨by simpa using fun he => hblank (Or.inl (by simp [he])), hs,
        fun he => hblank (Or.inr he), hparent⟩

theorem isStep_of_mem_steps {p : Path} {c : Component} (h : c ∈ steps p) : IsStep c := by
  obtain ⟨s, hs, hc⟩ := List.mem_filterMap.1 h
  exact isStep_of_segment? (Text.not_mem_of_mem_splitAll hs) hc

/-- The components of a path are its steps, after a root or a leading `.`. -/
theorem components_eq (p : Path) : ∃ lead, components p = lead ++ steps p ∧
    (lead = [] ∨ lead = [.root] ∨ lead = [.current]) ∧ (.root ∈ lead ↔ isAbsolute p = true) := by
  obtain ⟨first, rest, hp⟩ := List.exists_cons_of_ne_nil (Text.splitAll_ne_nil '/' p)
  have hcomp : components p = (if isAbsolute p then [.root]
      else if first = ".".toList then [.current] else (segment? first).toList) ++
        rest.filterMap segment? := by
    unfold components
    rw [hp]
  have hsteps : steps p = (segment? first).toList ++ rest.filterMap segment? := by
    rw [steps, hp, List.filterMap_cons]
    cases segment? first <;> rfl
  rw [hcomp, hsteps]
  by_cases ha : isAbsolute p = true
  · have hfirst : first = [] := by
      cases p with
      | nil => cases ha
      | cons c s =>
        obtain rfl : c = '/' := by simpa [isAbsolute] using ha
        rw [Text.splitAll_sep_cons] at hp
        exact (List.cons.inj hp).1.symm
    refine ⟨[.root], ?_, Or.inr (Or.inl rfl), by simp [ha]⟩
    rw [if_pos ha, hfirst]
    rfl
  · by_cases hd : first = ".".toList
    · refine ⟨[.current], ?_, Or.inr (Or.inr rfl), by simp [ha]⟩
      rw [if_neg ha, if_pos hd, hd]
      rfl
    · refine ⟨[], ?_, Or.inl rfl, by simp [ha]⟩
      rw [if_neg ha, if_neg hd, List.nil_append]

/-- Whether a component is a name or a `..`. -/
def takesStep : Component → Bool
  | .parent | .name _ => true
  | .root | .current => false

theorem takesStep_of_isStep {c : Component} (h : IsStep c) : takesStep c = true := by
  cases c with
  | root => exact h.elim
  | current => exact h.elim
  | parent => rfl
  | name s => rfl

theorem steps_eq_filter (p : Path) : steps p = (components p).filter takesStep := by
  obtain ⟨lead, hp, hlead, -⟩ := components_eq p
  have hs : (steps p).filter takesStep = steps p :=
    List.filter_eq_self.2 fun c hc => takesStep_of_isStep (isStep_of_mem_steps hc)
  rw [hp, List.filter_append, hs]
  rcases hlead with rfl | rfl | rfl <;> rfl

theorem isAbsolute_iff_root_mem (p : Path) : isAbsolute p = true ↔ .root ∈ components p := by
  obtain ⟨lead, hp, -, habs⟩ := components_eq p
  have hs : .root ∉ steps p := fun h => isStep_of_mem_steps h
  rw [hp, List.mem_append, ← habs]
  exact (or_iff_left hs).symm

theorem isAbsolute_of_isName {s : Text} (h : IsName s) : isAbsolute s = false := by
  cases s with
  | nil => rfl
  | cons c s =>
    have hc : c ≠ '/' := fun he => h.noSlash (by simp [he])
    simp [isAbsolute, hc]

/-- A name that is joined becomes the last segment. -/
theorem splitAll_join (p : Path) {s : Text} (hs : IsName s) :
    ∃ front, Text.splitAll '/' (join p s) = front ++ [s] ∧
      (Text.splitAll '/' p = front ∨ Text.splitAll '/' p = front ++ [[]]) := by
  have hself : Text.splitAll '/' s = [s] := Text.splitAll_of_not_mem hs.noSlash
  unfold join
  rw [if_neg (by simp [isAbsolute_of_isName hs])]
  split
  · next hend =>
    rcases List.eq_nil_or_concat p with rfl | ⟨front, c, rfl⟩
    · exact ⟨[], by simpa using hself, Or.inr rfl⟩
    · obtain rfl : c = '/' := by simpa using hend
      refine ⟨Text.splitAll '/' front, ?_, Or.inr ?_⟩
      · rw [List.concat_eq_append, List.append_assoc, List.singleton_append,
          Text.splitAll_append, hself]
      · rw [List.concat_eq_append, Text.splitAll_append]
        rfl
  · exact ⟨Text.splitAll '/' p, by rw [Text.splitAll_append, hself], Or.inl rfl⟩

theorem steps_join (p : Path) {s : Text} (hs : IsName s) :
    steps (join p s) = steps p ++ [.name s] := by
  obtain ⟨front, hj, hp | hp⟩ := splitAll_join p hs
  · rw [steps, hj, List.filterMap_append, steps, hp]
    simp [hs.segment?]
  · rw [steps, hj, List.filterMap_append, steps, hp, List.filterMap_append]
    simp [hs.segment?, segment?_nil]

theorem isAbsolute_join (p : Path) {s : Text} (hs : IsName s) :
    isAbsolute (join p s) = isAbsolute p := by
  unfold join
  rw [if_neg (by simp [isAbsolute_of_isName hs])]
  cases p with
  | nil => simpa [isAbsolute] using isAbsolute_of_isName hs
  | cons c p => split <;> rfl

theorem join_ne_nil (p : Path) {s : Text} (hs : IsName s) : join p s ≠ [] := by
  unfold join
  rw [if_neg (by simp [isAbsolute_of_isName hs])]
  split <;> simp [hs.ne_nil]

/-- A path that ends in a name does not end in a slash. -/
theorem getLast?_join (p : Path) {s : Text} (hs : IsName s) :
    (join p s).getLast? = s.getLast? := by
  have habs := isAbsolute_of_isName hs
  obtain ⟨front, c, rfl⟩ := (List.eq_nil_or_concat s).resolve_left hs.ne_nil
  unfold join
  rw [if_neg (by simp only [habs, Bool.false_eq_true, not_false_eq_true])]
  split <;> simp [List.getLast?_append, List.getLast?_cons]

theorem getLast?_join_ne_slash (p : Path) {s : Text} (hs : IsName s) :
    (join p s).getLast? ≠ some '/' := by
  rw [getLast?_join p hs]
  exact fun h => hs.noSlash (List.mem_of_getLast? h)

/-- The names among components, if there is nothing else but `.`. -/
def plainNames? : List Component → Option (List Text)
  | [] => some []
  | .name s :: cs => (plainNames? cs).map (s :: ·)
  | .current :: cs => plainNames? cs
  | _ => none

/-- The names of a path that stays below its base; nothing for other paths. -/
def names? (rel : Text) : Option (List Text) :=
  (plainNames? (components rel)).filter fun ns => ¬ ns.isEmpty

/-- The path of names below a base. -/
def below (base : Path) (ns : List Text) : Path := ns.foldl join base

theorem confine?_go_eq (named : Bool) (p : Path) (cs : List Component) :
    confine?.go named p cs = (plainNames? cs).bind fun ns =>
      if named || ¬ ns.isEmpty then some (below p ns) else none := by
  induction cs generalizing named p with
  | nil =>
    cases named <;> rfl
  | cons c cs ih =>
    cases c with
    | root => rfl
    | current => rw [confine?.go, ih, plainNames?]
    | parent => rfl
    | name s =>
      rw [confine?.go, ih, plainNames?]
      cases plainNames? cs with
      | none => rfl
      | some ns =>
        have hns : (s :: ns).isEmpty = false := rfl
        simp only [Option.map_some, Option.bind_some, hns, Bool.true_or, if_true]
        rw [if_pos (by simp)]
        rfl

theorem confine?_eq_some {base : Path} {rel : Text} {q : Path} :
    confine? base rel = some q ↔ ∃ ns, names? rel = some ns ∧ q = below base ns := by
  unfold confine? names?
  rw [confine?_go_eq]
  cases plainNames? (components rel) with
  | none => simp
  | some ns =>
    cases ns with
    | nil => simp
    | cons s ns =>
      constructor
      · intro h
        exact ⟨s :: ns, rfl, (Option.some.inj h).symm⟩
      · rintro ⟨ms, hms, rfl⟩
        cases hms
        rfl

theorem plainNames?_eq_some {cs : List Component} {ns : List Text}
    (h : plainNames? cs = some ns) :
    cs.filter takesStep = ns.map .name ∧ .root ∉ cs := by
  induction cs generalizing ns with
  | nil =>
    cases h
    simp
  | cons c cs ih =>
    cases c with
    | root => cases h
    | current =>
      obtain ⟨hf, hr⟩ := ih h
      exact ⟨by rw [List.filter_cons_of_neg (by simp [takesStep]), hf], by simp [hr]⟩
    | parent => cases h
    | name s =>
      obtain ⟨ms, hms, rfl⟩ := Option.map_eq_some_iff.1 h
      obtain ⟨hf, hr⟩ := ih hms
      exact ⟨by rw [List.filter_cons_of_pos (by simp [takesStep]), hf, List.map_cons],
        by simp [hr]⟩

theorem names?_eq_some {rel : Text} {ns : List Text} (h : names? rel = some ns) :
    plainNames? (components rel) = some ns ∧ ns ≠ [] := by
  obtain ⟨hn, hne⟩ := Option.filter_eq_some_iff.1 h
  exact ⟨hn, by simpa using hne⟩

theorem isName_of_names? {rel : Text} {ns : List Text} (h : names? rel = some ns) :
    ∀ s ∈ ns, IsName s := by
  intro s hs
  have hmem : Component.name s ∈ steps rel := by
    rw [steps_eq_filter, (plainNames?_eq_some (names?_eq_some h).1).1]
    exact List.mem_map_of_mem hs
  exact isStep_of_mem_steps hmem

theorem steps_below (base : Path) {ns : List Text} (hns : ∀ s ∈ ns, IsName s) :
    steps (below base ns) = steps base ++ ns.map .name := by
  induction ns generalizing base with
  | nil => simp [below]
  | cons s ns ih =>
    obtain ⟨hs, hns⟩ := List.forall_mem_cons.1 hns
    have hb : below base (s :: ns) = below (join base s) ns := rfl
    rw [hb, ih _ hns, steps_join base hs]
    simp

theorem isAbsolute_below (base : Path) {ns : List Text} (hns : ∀ s ∈ ns, IsName s) :
    isAbsolute (below base ns) = isAbsolute base := by
  induction ns generalizing base with
  | nil => rfl
  | cons s ns ih =>
    obtain ⟨hs, hns⟩ := List.forall_mem_cons.1 hns
    exact (ih _ hns).trans (isAbsolute_join base hs)

/-- The last name below a base. -/
theorem below_concat (base : Path) (ns : List Text) (s : Text) :
    below base (ns ++ [s]) = join (below base ns) s := by
  simp [below]

/-- A path that ends in a name. -/
def Named (p : Path) : Prop := ∃ q s, IsName s ∧ p = join q s

theorem named_join (q : Path) {s : Text} (hs : IsName s) : Named (join q s) := ⟨q, s, hs, rfl⟩

theorem named_below (base : Path) {ns : List Text} (hns : ∀ s ∈ ns, IsName s) (hne : ns ≠ []) :
    Named (below base ns) := by
  obtain ⟨front, s, rfl⟩ := (List.eq_nil_or_concat ns).resolve_left hne
  rw [List.concat_eq_append] at hns ⊢
  exact ⟨below base front, s, hns s (by simp), below_concat base front s⟩

theorem Named.ne_nil {p : Path} (hp : Named p) : p ≠ [] := by
  obtain ⟨q, s, hs, rfl⟩ := hp
  exact join_ne_nil q hs

theorem Named.below {base : Path} (hbase : Named base) {ns : List Text}
    (hns : ∀ s ∈ ns, IsName s) : Named (below base ns) := by
  by_cases hne : ns = []
  · subst hne
    exact hbase
  · exact named_below base hns hne

/-- A path that ends in a name has that name as its last segment. -/
theorem Named.splitAll {p : Path} (hp : Named p) :
    ∃ front s, IsName s ∧ Text.splitAll '/' p = front ++ [s] := by
  obtain ⟨q, s, hs, rfl⟩ := hp
  obtain ⟨front, hj, -⟩ := splitAll_join q hs
  exact ⟨front, s, hs, hj⟩

theorem dropBlankEnd_concat (front : List Text) {s : Text} (hs : IsName s) :
    dropBlankEnd (front ++ [s]) = front ++ [s] := by
  cases front with
  | nil => rfl
  | cons a front =>
    have hlast : (segment? s).isNone = false := by rw [hs.segment?]; rfl
    simp only [List.cons_append, dropBlankEnd, List.reverse_append, List.reverse_cons,
      List.reverse_nil, List.nil_append, List.dropWhile_cons, hlast, Bool.false_eq_true, if_false,
      List.reverse_reverse]

/-- A name that is joined to another one is one more segment. -/
theorem Named.splitAll_join {p : Path} (hp : Named p) {s : Text} (hs : IsName s) :
    Text.splitAll '/' (join p s) = Text.splitAll '/' p ++ [s] := by
  obtain ⟨front, s', hs', hsplit⟩ := hp.splitAll
  obtain ⟨front', hj, hp' | hp'⟩ := Path.splitAll_join p hs
  · rw [hj, hp']
  · have hlast := congrArg List.getLast? (hsplit.symm.trans hp')
    simp only [List.getLast?_append, List.getLast?_singleton, Option.some_or,
      Option.some.injEq] at hlast
    exact absurd hlast hs'.ne_nil

theorem Named.splitAll_below {base : Path} (hbase : Named base) {ns : List Text}
    (hns : ∀ s ∈ ns, IsName s) :
    Text.splitAll '/' (Path.below base ns) = Text.splitAll '/' base ++ ns := by
  induction ns generalizing base with
  | nil => rw [List.append_nil]; rfl
  | cons s ns ih =>
    obtain ⟨hs, hns⟩ := List.forall_mem_cons.1 hns
    have hrest := ih (named_join base hs) hns
    rwa [hbase.splitAll_join hs, List.append_assoc] at hrest

/-- The parent of a path with a name joined is that path, if it ends in a name itself. -/
theorem parent?_join {p : Path} (hp : Named p) {s : Text} (hs : IsName s) :
    parent? (join p s) = some p := by
  obtain ⟨front, s', hs', hsplit⟩ := hp.splitAll
  have hjoin := hp.splitAll_join hs
  have hlast : (components (join p s)).getLast? = some (.name s) := by
    obtain ⟨lead, hc, -⟩ := components_eq (join p s)
    rw [hc, steps_join p hs, ← List.append_assoc, List.getLast?_concat]
  have hkept : dropBlankEnd (Text.splitAll '/' p) = Text.splitAll '/' p := by
    rw [hsplit, dropBlankEnd_concat front hs']
  have hroot : Text.splitAll '/' p ≠ [[]] := by
    intro h
    have hlast := congrArg List.getLast? (hsplit.symm.trans h)
    simp only [List.getLast?_append, List.getLast?_singleton, Option.some_or,
      Option.some.injEq] at hlast
    exact hs'.ne_nil hlast
  have hempty : (Text.splitAll '/' p).isEmpty = false := by
    rw [hsplit]
    simp
  have hwhole : ofSegments (Text.splitAll '/' p) = p := by
    rw [ofSegments, if_neg hroot]
    exact Text.joinWith_splitAll p
  unfold parent?
  simp only [hlast, hjoin, dropBlankEnd_concat _ hs, List.dropLast_concat, hempty, hkept, hwhole,
    Bool.false_eq_true, if_false]

theorem below?_eq_some {base p : Path} {cs : List Component} :
    below? base p = some cs ↔ components p = components base ++ cs := by
  have hgo : ∀ bs ps, below?.go bs ps = some cs ↔ ps = bs ++ cs := by
    intro bs
    induction bs with
    | nil => simp [below?.go]
    | cons b bs ih =>
      intro ps
      cases ps with
      | nil => simp [below?.go]
      | cons c ps =>
        by_cases hbc : b = c
        · simp [below?.go, hbc, ih]
        · simp [below?.go, hbc, Ne.symm hbc]
  exact hgo _ _

theorem text_noSlash {c : Component} (h : c = .current ∨ IsStep c) : '/' ∉ c.text := by
  cases c with
  | root => simp [IsStep] at h
  | current => decide
  | parent => decide
  | name s =>
    rcases h with h | h
    · cases h
    · exact h.noSlash

theorem segment?_text {c : Component} (h : IsStep c) : segment? c.text = some c := by
  cases c with
  | root => exact h.elim
  | current => exact h.elim
  | parent => rfl
  | name s => exact h.segment?

/-- Steps that are written one after the other are the components of what is written. -/
theorem components_joinWith {c : Component} {cs : List Component}
    (hc : c = .current ∨ IsStep c) (hcs : ∀ x ∈ cs, IsStep x) :
    components (Text.joinWith ['/'] ((c :: cs).map Component.text)) = c :: cs := by
  have hslash : ∀ part ∈ (c :: cs).map Component.text, '/' ∉ part := by
    rw [List.map_cons, List.forall_mem_cons]
    refine ⟨text_noSlash hc, fun part hpart => ?_⟩
    obtain ⟨x, hx, rfl⟩ := List.mem_map.1 hpart
    exact text_noSlash (Or.inr (hcs x hx))
  have hsplit := Text.splitAll_joinWith (by simp) hslash
  have habs : isAbsolute (Text.joinWith ['/'] ((c :: cs).map Component.text)) = false := by
    rw [Bool.eq_false_iff]
    intro ha
    -- An absolute path has an empty first segment.
    cases hj : Text.joinWith ['/'] ((c :: cs).map Component.text) with
    | nil =>
      rw [hj] at ha
      cases ha
    | cons a s =>
      rw [hj] at ha hsplit
      obtain rfl : a = '/' := by simpa [isAbsolute] using ha
      rw [Text.splitAll_sep_cons, List.map_cons] at hsplit
      have hnil := (List.cons.inj hsplit).1
      rcases hc with rfl | hc
      · cases hnil
      · have hseg := segment?_text hc
        rw [← hnil] at hseg
        cases hseg
  have hrest : (cs.map Component.text).filterMap segment? = cs := by
    clear hsplit hslash habs
    induction cs with
    | nil => rfl
    | cons x cs ih =>
      obtain ⟨hx, hcs⟩ := List.forall_mem_cons.1 hcs
      rw [List.map_cons, List.filterMap_cons, segment?_text hx, ih hcs]
  generalize Text.joinWith ['/'] ((c :: cs).map Component.text) = p at hsplit habs ⊢
  rw [List.map_cons] at hsplit
  unfold components
  simp only [hsplit, habs, hrest]
  rcases hc with rfl | hc
  · rfl
  · have hne : c.text ≠ ".".toList := by
      intro he
      have hseg := segment?_text hc
      rw [he] at hseg
      cases hseg
    rw [if_neg (by simp), if_neg hne, segment?_text hc]
    rfl

/-- What comes after the first component of a path takes a step. -/
theorem isStep_of_mem_rest {p : Path} {before after : List Component} {c : Component}
    (h : components p = before ++ c :: after) : ∀ x ∈ after, IsStep x := by
  obtain ⟨lead, hp, hlead, -⟩ := components_eq p
  have htail : ∀ x ∈ (components p).tail, IsStep x := by
    intro x hx
    rw [hp] at hx
    rcases hlead with rfl | rfl | rfl
    · exact isStep_of_mem_steps (List.mem_of_mem_tail hx)
    · exact isStep_of_mem_steps hx
    · exact isStep_of_mem_steps hx
  intro x hx
  refine htail x ?_
  rw [h]
  cases before with
  | nil => exact hx
  | cons b before => exact List.mem_append_right _ (List.mem_cons_of_mem _ hx)

/-- A path whose relative path has names is the base with these names below it. -/
theorem steps_of_relative? {root p : Path} {rel : Text} {ns : List Text}
    (h : relative? root p = some rel) (hns : names? rel = some ns) :
    steps p = steps root ++ ns.map .name ∧ isAbsolute p = isAbsolute root := by
  unfold relative? at h
  cases hb : below? root p with
  | none => simp [hb] at h
  | some cs =>
    have hcomp := below?_eq_some.1 hb
    cases cs with
    | nil => simp [hb] at h
    | cons c cs =>
      simp only [hb, Option.some.injEq] at h
      have hrest := isStep_of_mem_rest hcomp
      obtain ⟨hplain, -⟩ := names?_eq_some hns
      have hroot : c ≠ .root := by
        rintro rfl
        -- A relative path that begins with the root is absolute.
        have habs : isAbsolute rel = true := by
          rw [← h]
          cases cs <;> rfl
        exact (plainNames?_eq_some hplain).2 ((isAbsolute_iff_root_mem rel).1 habs)
      have hc : c = .current ∨ IsStep c := by
        have hmem : c ∈ components p := by rw [hcomp]; simp
        obtain ⟨lead, hp, hlead, -⟩ := components_eq p
        rw [hp, List.mem_append] at hmem
        rcases hmem with hmem | hmem
        · rcases hlead with rfl | rfl | rfl
          · cases hmem
          · exact absurd (List.mem_singleton.1 hmem) hroot
          · exact Or.inl (List.mem_singleton.1 hmem)
        · exact Or.inr (isStep_of_mem_steps hmem)
      have hrel : components rel = c :: cs := by
        rw [← h]
        exact components_joinWith hc hrest
      rw [hrel] at hplain
      obtain ⟨hfilter, hnoroot⟩ := plainNames?_eq_some hplain
      constructor
      · rw [steps_eq_filter p, hcomp, List.filter_append, hfilter, ← steps_eq_filter]
      · rw [Bool.eq_iff_iff, isAbsolute_iff_root_mem, isAbsolute_iff_root_mem, hcomp,
          List.mem_append]
        exact or_iff_left hnoroot

end Path
end LayeredConfig
