import LayeredConfig.Proofs.Document.Keys

/-!
# Layers, path by path

What a stack of layers holds at a path of keys. Of the layers that touch the path only the last
one counts, unless what it has there is a mapping, into which earlier and later layers go on
merging.
-/
namespace LayeredConfig.Value

/-- Whether a value is a mapping without a tag, the only kind that is merged key by key. -/
def isMapping : Value → Bool
  | .mapping _ => true
  | _ => false

/-- The value at a path of keys, which leads through mappings only. -/
def atKeys? (v : Value) : (keys : List Value) → Option Value
  | [] => some v
  | k :: keys =>
    match v with
    | .mapping es => (Entries.find? es k).bind fun c => c.atKeys? keys
    | _ => none

/-- A value touches a path if it has a value there, or one that is no mapping on the way. -/
def Touches (v : Value) (keys : List Value) : Prop :=
  (v.atKeys? keys).isSome ∨
    ∃ before x, before <+: keys ∧ before ≠ keys ∧ v.atKeys? before = some x ∧ x.isMapping = false

theorem isMapping_eq_true {v : Value} (h : v.isMapping = true) : ∃ es, v = .mapping es := by
  cases v with
  | mapping es => exact ⟨es, rfl⟩
  | _ => cases h

theorem sizeOf_of_find? {es : Entries} {k c : Value} (h : Entries.find? es k = some c) :
    sizeOf c < sizeOf (mapping es) := by
  obtain ⟨⟨l, c⟩, hmem, rfl⟩ := Entries.mem_of_find? h
  have hlt := List.sizeOf_lt_of_mem hmem
  rw [Prod.mk.sizeOf_spec] at hlt
  rw [mapping.sizeOf_spec]
  dsimp only
  omega

/-- Induction on a value, down through what the keys of mappings lead to. -/
@[elab_as_elim]
theorem lookup_induction {motive : Value → Prop} (other : ∀ v, v.isMapping = false → motive v)
    (mapping : ∀ es, (∀ k c, Entries.find? es k = some c → motive c) → motive (.mapping es)) :
    (v : Value) → motive v
  | .mapping es => mapping es fun _ c _ => lookup_induction other mapping c
  | .null | .bool _ | .number _ | .string _ | .sequence _ | .tagged .. => other _ rfl
termination_by v => v
decreasing_by exact sizeOf_of_find? ‹_›

theorem atKeys?_cons_of_not_mapping {v : Value} (h : v.isMapping = false) (k : Value)
    (keys : List Value) : v.atKeys? (k :: keys) = none := by
  cases v with
  | mapping es => cases h
  | _ => rfl

theorem touches_nil (v : Value) : v.Touches [] := Or.inl rfl

theorem touches_of_not_mapping {v : Value} (h : v.isMapping = false) (keys : List Value) :
    v.Touches keys := by
  cases keys with
  | nil => exact touches_nil v
  | cons k keys => exact Or.inr ⟨[], v, List.nil_prefix, by simp, rfl, h⟩

/-- A mapping touches a path through the value of its first key. -/
theorem mapping_touches_cons {es : Entries} {k : Value} {keys : List Value} :
    (mapping es).Touches (k :: keys) ↔ ∃ c, Entries.find? es k = some c ∧ c.Touches keys := by
  constructor
  · rintro (h | ⟨before, x, hpre, hne, hx, hm⟩)
    · cases hc : Entries.find? es k with
      | none => simp [atKeys?, hc] at h
      | some c =>
        rw [atKeys?, hc] at h
        exact ⟨c, rfl, Or.inl h⟩
    · cases before with
      | nil =>
        cases hx
        cases hm
      | cons l before =>
        obtain ⟨rfl, htail⟩ := List.cons_prefix_cons.1 hpre
        rw [atKeys?, Option.bind_eq_some_iff] at hx
        obtain ⟨c, hc, hx⟩ := hx
        exact ⟨c, hc, Or.inr ⟨before, x, htail, fun h => hne (by rw [h]), hx, hm⟩⟩
  · rintro ⟨c, hc, h | ⟨before, x, hpre, hne, hx, hm⟩⟩
    · left
      rw [atKeys?, hc]
      exact h
    · refine Or.inr ⟨k :: before, x, List.cons_prefix_cons.2 ⟨rfl, hpre⟩, ?_, ?_, hm⟩
      · exact fun h => hne (List.cons.inj h).2
      · rw [atKeys?, hc]
        exact hx

theorem merge_of_not_mapping {o : Value} (h : o.isMapping = false) (b : Value) :
    b.merge o = o := by
  unfold merge
  cases o with
  | mapping os => cases h
  | null => rw [mergeWith]; rfl
  | _ => rw [mergeWith] <;> simp

theorem merge_mapping_of_not_mapping {b : Value} (h : b.isMapping = false) (os : Entries) :
    b.merge (.mapping os) = .mapping os := by
  unfold merge
  cases b with
  | mapping bs => cases h
  | _ => rw [mergeWith]; simp

theorem merge_mapping_mapping (bs os : Entries) :
    (mapping bs).merge (.mapping os) = .mapping (mergeEntries .replace bs os) := by
  unfold merge
  rw [mergeWith]

/-- A merge is the overlay, unless both values are mappings. -/
theorem merge_cases (b o : Value) :
    b.merge o = o ∧ (o.isMapping = false ∨ b.isMapping = false) ∨
      ∃ bs os, b = .mapping bs ∧ o = .mapping os ∧
        b.merge o = .mapping (mergeEntries .replace bs os) := by
  cases hm : o.isMapping with
  | false => exact Or.inl ⟨merge_of_not_mapping hm b, Or.inl rfl⟩
  | true =>
    obtain ⟨os, rfl⟩ := isMapping_eq_true hm
    cases hb : b.isMapping with
    | false => exact Or.inl ⟨merge_mapping_of_not_mapping hb os, Or.inr rfl⟩
    | true =>
      obtain ⟨bs, rfl⟩ := isMapping_eq_true hb
      exact Or.inr ⟨bs, os, rfl, rfl, merge_mapping_mapping bs os⟩

theorem merge_of_base_not_mapping {b : Value} (h : b.isMapping = false) (o : Value) :
    b.merge o = o := by
  rcases merge_cases b o with ⟨hmerge, -⟩ | ⟨bs, os, rfl, -⟩
  · exact hmerge
  · cases h

theorem overlaid_replace (below : Option Value) (v : Value) :
    overlaid .replace below v = some ((below.map (·.merge v)).getD v) := by
  cases below <;> simp [overlaid, merge]

/-- An overlay of new keys is put behind the base. -/
theorem mergeEntries_of_distinct (bs : Entries) {os : Entries} (h : Entries.Distinct (bs ++ os)) :
    mergeEntries .replace bs os = bs ++ os := by
  induction os generalizing bs with
  | nil => rw [mergeEntries, List.append_nil]
  | cons e os ih =>
    obtain ⟨k, v⟩ := e
    have hnew : Entries.find? bs k = none := by
      simp only [Entries.find?, Option.map_eq_none_iff, List.find?_eq_none]
      intro f hf hs
      have hd := (List.pairwise_append.1 h).2.2 f hf (k, v) List.mem_cons_self
      rw [hd] at hs
      cases hs
    have happ : (bs ++ [(k, v)]) ++ os = bs ++ (k, v) :: os := by simp
    rw [mergeEntries_cons, hnew, overlaid_replace]
    simp only [Option.map_none, Option.getD_none, Entries.insert_of_find?_none hnew]
    rw [ih _ (by rw [happ]; exact h), happ]

/-- A layer over nothing is the layer. -/
theorem empty_merge {es : Entries} (h : Entries.Distinct es) :
    (mapping []).merge (.mapping es) = .mapping es := by
  rw [merge_mapping_mapping, mergeEntries_of_distinct [] h, List.nil_append]

theorem atKeys?_of_not_touches {v : Value} {keys : List Value} (h : ¬ v.Touches keys) :
    v.atKeys? keys = none := by
  cases hv : v.atKeys? keys with
  | none => rfl
  | some x => exact absurd (Or.inl (by rw [hv]; rfl)) h

theorem atKeys?_mergeEntries (bs : Entries) {os : Entries} (ho : Entries.Distinct os) (k : Value)
    (keys : List Value) :
    (mapping (mergeEntries .replace bs os)).atKeys? (k :: keys) =
      match Entries.find? os k with
      | some c => (((Entries.find? bs k).map (·.merge c)).getD c).atKeys? keys
      | none => (mapping bs).atKeys? (k :: keys) := by
  rw [atKeys?, atKeys?, find?_mergeEntries .replace ho]
  cases Entries.find? os k with
  | none => rfl
  | some c => simp only [overlaid_replace, Option.bind_some]

/-- What the overlay has at a path lies over what the base has there. -/
theorem atKeys?_merge_of_some {o : Value} (ho : o.Keyed) {keys : List Value} {x : Value}
    (hx : o.atKeys? keys = some x) (b : Value) :
    (b.merge o).atKeys? keys = some (((b.atKeys? keys).map (·.merge x)).getD x) := by
  induction keys generalizing b o with
  | nil =>
    cases hx
    rfl
  | cons k keys ih =>
    rcases merge_cases b o with ⟨hmerge, hm | hb⟩ | ⟨bs, os, rfl, rfl, hmerge⟩
    · rw [atKeys?_cons_of_not_mapping hm] at hx
      cases hx
    · rw [hmerge, hx, atKeys?_cons_of_not_mapping hb]
      rfl
    · obtain ⟨c, hc, hx⟩ := Option.bind_eq_some_iff.1 hx
      rw [hmerge, atKeys?_mergeEntries bs (keyed_mapping.1 ho).1, hc, atKeys?]
      cases Entries.find? bs k with
      | none => exact hx
      | some z => exact ih (ho.of_find? hc) hx z

/-- Where the overlay touches a path and has nothing there, nothing is left. -/
theorem atKeys?_merge_of_touches {o : Value} (ho : o.Keyed) {keys : List Value} (h : o.Touches keys)
    (hnone : o.atKeys? keys = none) (b : Value) : (b.merge o).atKeys? keys = none := by
  induction keys generalizing b o with
  | nil => cases hnone
  | cons k keys ih =>
    rcases merge_cases b o with ⟨hmerge, -⟩ | ⟨bs, os, rfl, rfl, hmerge⟩
    · rw [hmerge, hnone]
    · obtain ⟨c, hc, htouch⟩ := mapping_touches_cons.1 h
      rw [atKeys?, hc] at hnone
      rw [hmerge, atKeys?_mergeEntries bs (keyed_mapping.1 ho).1, hc]
      cases Entries.find? bs k with
      | none => exact hnone
      | some z => exact ih (ho.of_find? hc) htouch hnone z

/-- Where the overlay does not touch a path, the base is left as it is. -/
theorem atKeys?_merge_of_not_touches {o : Value} (ho : o.Keyed) {keys : List Value}
    (h : ¬ o.Touches keys) (b : Value) : (b.merge o).atKeys? keys = b.atKeys? keys := by
  induction keys generalizing b o with
  | nil => exact absurd (touches_nil o) h
  | cons k keys ih =>
    rcases merge_cases b o with ⟨hmerge, hm | hb⟩ | ⟨bs, os, rfl, rfl, hmerge⟩
    · exact absurd (touches_of_not_mapping hm _) h
    · rw [hmerge, atKeys?_of_not_touches h, atKeys?_cons_of_not_mapping hb]
    · rw [mapping_touches_cons] at h
      rw [hmerge, atKeys?_mergeEntries bs (keyed_mapping.1 ho).1]
      cases hc : Entries.find? os k with
      | none => rfl
      | some c =>
        have hnot : ¬ c.Touches keys := fun ht => h ⟨c, hc, ht⟩
        rw [atKeys?]
        cases Entries.find? bs k with
        | none => exact atKeys?_of_not_touches hnot
        | some z => exact ih (ho.of_find? hc) hnot z

theorem merge_eq_iff {x : Value} (hx : x.isMapping = false) (b o : Value) :
    b.merge o = x ↔ o = x := by
  rcases merge_cases b o with ⟨hmerge, -⟩ | ⟨bs, os, rfl, rfl, hmerge⟩
  · rw [hmerge]
  · have hne : ∀ es, mapping es ≠ x := by
      rintro es rfl
      cases hx
    rw [hmerge]
    exact iff_of_false (hne _) (hne _)

/-- A value that is no mapping comes from the overlay, or from the base where the overlay does
not touch the path. -/
theorem atKeys?_merge_eq_some {b o : Value} (ho : o.Keyed) {keys : List Value} {x : Value}
    (hx : x.isMapping = false) :
    (b.merge o).atKeys? keys = some x ↔
      o.atKeys? keys = some x ∨ b.atKeys? keys = some x ∧ ¬ o.Touches keys := by
  cases hy : o.atKeys? keys with
  | some y =>
    have htouch : o.Touches keys := Or.inl (by rw [hy]; rfl)
    have hright : ¬ (b.atKeys? keys = some x ∧ ¬ o.Touches keys) := fun h => h.2 htouch
    rw [atKeys?_merge_of_some ho hy, or_iff_left hright, Option.some.injEq, Option.some.injEq]
    cases b.atKeys? keys with
    | none => rfl
    | some z => exact merge_eq_iff hx z y
  | none =>
    by_cases htouch : o.Touches keys
    · rw [atKeys?_merge_of_touches ho htouch hy]
      simp [htouch]
    · rw [atKeys?_merge_of_not_touches ho htouch]
      simp [htouch]

/-- What a whole stack of layers holds at a path: the value of the last layer that touches the
path, or that of the base if none does. -/
theorem atKeys?_foldl_merge {layers : List Value} (hl : ∀ c ∈ layers, c.Keyed) (base : Value)
    {keys : List Value} {x : Value} (hx : x.isMapping = false) :
    (layers.foldl merge base).atKeys? keys = some x ↔
      (∃ before c after, layers = before ++ c :: after ∧ c.atKeys? keys = some x ∧
        ∀ d ∈ after, ¬ d.Touches keys) ∨
      base.atKeys? keys = some x ∧ ∀ d ∈ layers, ¬ d.Touches keys := by
  induction layers generalizing base with
  | nil => simp
  | cons c layers ih =>
    obtain ⟨hc, hl⟩ := List.forall_mem_cons.1 hl
    rw [List.foldl_cons, ih hl, atKeys?_merge_eq_some hc hx, List.forall_mem_cons]
    constructor
    · rintro (⟨before, d, after, rfl, hd, ha⟩ | ⟨hc' | ⟨hb, hn⟩, ha⟩)
      · exact Or.inl ⟨c :: before, d, after, rfl, hd, ha⟩
      · exact Or.inl ⟨[], c, layers, rfl, hc', ha⟩
      · exact Or.inr ⟨hb, hn, ha⟩
    · rintro (⟨before, d, after, he, hd, ha⟩ | ⟨hb, hn, ha⟩)
      · cases before with
        | nil =>
          obtain ⟨rfl, rfl⟩ := List.cons.inj he
          exact Or.inr ⟨Or.inl hd, ha⟩
        | cons e before =>
          obtain ⟨rfl, rfl⟩ := List.cons.inj he
          exact Or.inl ⟨before, d, after, rfl, hd, ha⟩
      · exact Or.inr ⟨Or.inr ⟨hb, hn⟩, ha⟩

/-- What a value holds at a path of keys, if it is no mapping, is what the last of the layers
that touch the path has there. -/
def StackedBy (v : Value) (layers : List Value) : Prop :=
  ∀ keys x, keys ≠ [] → x.isMapping = false →
    (v.atKeys? keys = some x ↔
      ∃ before c after, layers = before ++ c :: after ∧ c.atKeys? keys = some x ∧
        ∀ d ∈ after, ¬ d.Touches keys)

theorem stackedBy_foldl_merge {layers : List Value} (hl : ∀ c ∈ layers, c.Keyed) :
    (layers.foldl merge (.mapping [])).StackedBy layers := by
  intro keys x hne hx
  rw [atKeys?_foldl_merge hl _ hx]
  -- The empty mapping below all layers has nothing at a path of keys.
  have hbase : (mapping []).atKeys? keys ≠ some x := by
    cases keys with
    | nil => exact absurd rfl hne
    | cons k keys => simp [atKeys?]
  exact or_iff_left fun hb => hbase hb.1

end LayeredConfig.Value
