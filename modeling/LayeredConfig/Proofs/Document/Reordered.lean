import LayeredConfig.Proofs.Document.Shown

/-!
# The order of keys

Two values can be equal but for the order in which their mappings list the keys. They then show the
same at every path, and the other way round. Layers that set no common key can be merged in either
order, and more layers over them keep the difference to the order of keys.
-/
namespace LayeredConfig.Value

mutual
/-- Equal up to the order of keys in mappings. A key counts by its identity. -/
inductive Reordered : Value → Value → Prop
  | same (v : Value) : Reordered v v
  | mapping {es fs : Entries} : ReorderedEntries es fs → Reordered (.mapping es) (.mapping fs)

/-- One by one the entries of a list are those of another, wherever they stand there. -/
inductive ReorderedEntries : Entries → Entries → Prop
  | nil : ReorderedEntries [] []
  | cons {k l v w : Value} {es front back : Entries} : k.sameKey l = true → Reordered v w →
    ReorderedEntries es (front ++ back) → ReorderedEntries ((k, v) :: es) (front ++ (l, w) :: back)
end

theorem distinct_between {front back : Entries} {e : Value × Value} :
    Entries.Distinct (front ++ e :: back) ↔
      Entries.find? (front ++ back) e.1 = none ∧ Entries.Distinct (front ++ back) :=
  (List.pairwise_middle fun h => (sameKey_comm _ _).trans h).trans Entries.distinct_cons

/-- An entry between others is found by its key only. -/
theorem find?_between {front back : Entries} {l w : Value}
    (h : Entries.Distinct (front ++ (l, w) :: back)) (k : Value) :
    Entries.find? (front ++ (l, w) :: back) k =
      if l.sameKey k then some w else Entries.find? (front ++ back) k := by
  induction front with
  | nil => exact Entries.find?_cons ..
  | cons e front ih =>
    obtain ⟨he, hd⟩ := List.pairwise_cons.1 h
    rw [List.cons_append, List.cons_append, Entries.find?_cons, Entries.find?_cons, ih hd]
    have hel : e.1.sameKey l = false := he (l, w) (List.mem_append_right _ List.mem_cons_self)
    by_cases hek : e.1.sameKey k = true
    · have hlk : ¬ l.sameKey k = true := by
        rw [sameKey_comm, ← sameKey_left hek, hel]
        exact Bool.false_ne_true
      rw [if_pos hek, if_neg hlk, if_pos hek]
    · rw [if_neg hek, if_neg hek]

/-- Reordered entries have under each key values that are reordered. -/
theorem ReorderedEntries.find? {es fs : Entries} (h : ReorderedEntries es fs)
    (hf : Entries.Distinct fs) (k : Value) :
    Option.Rel Reordered (Entries.find? es k) (Entries.find? fs k) := by
  induction es generalizing fs with
  | nil =>
    cases h
    exact .none
  | cons e es ih =>
    cases h with
    | cons hkl hvw hrest =>
      rw [Entries.find?_cons, find?_between hf, sameKey_left hkl]
      split
      · exact .some hvw
      · exact ih hrest (distinct_between.1 hf).2

theorem reorderedEntries_of_find? {es fs : Entries} (he : Entries.Distinct es)
    (hf : Entries.Distinct fs)
    (h : ∀ k, Option.Rel Reordered (Entries.find? es k) (Entries.find? fs k)) :
    ReorderedEntries es fs := by
  induction es generalizing fs with
  | nil =>
    cases fs with
    | nil => exact .nil
    | cons e fs =>
      have hrel := h e.1
      rw [Entries.find?_cons, if_pos (sameKey_refl _)] at hrel
      cases hrel
  | cons e es ih =>
    obtain ⟨k, v⟩ := e
    obtain ⟨hk, he⟩ := Entries.distinct_cons.1 he
    have hcons : ∀ m, Entries.find? ((k, v) :: es) m =
        if k.sameKey m then some v else Entries.find? es m := fun m => Entries.find?_cons ..
    obtain ⟨w, hvw, hw⟩ : ∃ w, Reordered v w ∧ Entries.find? fs k = some w := by
      have hrel := h k
      rw [hcons, if_pos (sameKey_refl k)] at hrel
      cases hw : Entries.find? fs k with
      | none => rw [hw] at hrel; cases hrel
      | some w =>
        rw [hw] at hrel
        cases hrel with
        | some hvw => exact ⟨w, hvw, rfl⟩
    obtain ⟨⟨l, w⟩, hfind, rfl⟩ := Option.map_eq_some_iff.1 hw
    obtain ⟨hlk, front, back, rfl, -⟩ := List.find?_eq_some_iff_append.1 hfind
    have hkl : k.sameKey l = true := sameKey_symm hlk
    obtain ⟨hl, hrest⟩ := distinct_between.1 hf
    refine .cons hkl hvw (ih he hrest fun m => ?_)
    have hrel := h m
    rw [hcons, find?_between hf, sameKey_left hkl] at hrel
    by_cases hlm : l.sameKey m = true
    · -- Neither list has this key any more.
      rw [← Entries.find?_congr (sameKey_trans hkl hlm), hk, ← Entries.find?_congr hlm, hl]
      exact .none
    · rwa [if_neg hlm, if_neg hlm] at hrel

theorem Reordered.shownAt? {u v : Value} (h : Reordered u v) (hv : v.Keyed) (keys : List Value) :
    u.shownAt? keys = v.shownAt? keys := by
  induction keys generalizing u v with
  | nil => cases h <;> rfl
  | cons k keys ih =>
    cases h with
    | same => rfl
    | @mapping es fs h =>
      have hrel := h.find? (keyed_mapping.1 hv).1 k
      rw [shownAt?_mapping_cons, shownAt?_mapping_cons]
      cases hc : Entries.find? es k <;> cases hd : Entries.find? fs k <;>
        rw [hc, hd] at hrel <;> cases hrel
      next hcd => exact ih hcd (hv.of_find? hd)

theorem shown_of_not_mapping {v : Value} (h : v.isMapping = false) : v.shown = v := by
  rw [shown, h, if_neg Bool.false_ne_true]

theorem reordered_of_shownAt? {u v : Value} (hu : u.Keyed) (hv : v.Keyed)
    (h : ∀ keys, u.shownAt? keys = v.shownAt? keys) : Reordered u v := by
  induction u using lookup_induction generalizing v with
  | other u hm =>
    have hroot : u.shown = v.shown := Option.some.inj (h [])
    rw [shown_of_not_mapping hm] at hroot
    cases hmv : v.isMapping with
    | true =>
      obtain ⟨fs, rfl⟩ := isMapping_eq_true hmv
      subst hroot
      cases hm
    | false =>
      rw [shown_of_not_mapping hmv] at hroot
      subst hroot
      exact .same u
  | mapping es ih =>
    have hroot : Value.mapping [] = v.shown := Option.some.inj (h [])
    cases hmv : v.isMapping with
    | false =>
      rw [shown_of_not_mapping hmv] at hroot
      subst hroot
      cases hmv
    | true =>
      obtain ⟨fs, rfl⟩ := isMapping_eq_true hmv
      refine .mapping (reorderedEntries_of_find? (keyed_mapping.1 hu).1 (keyed_mapping.1 hv).1
        fun k => ?_)
      have hk : ∀ keys, (Entries.find? es k).bind (Value.shownAt? · keys) =
          (Entries.find? fs k).bind (Value.shownAt? · keys) := by
        intro keys
        rw [← shownAt?_mapping_cons, ← shownAt?_mapping_cons]
        exact h (k :: keys)
      cases hc : Entries.find? es k with
      | none =>
        cases hd : Entries.find? fs k with
        | none => exact .none
        | some d =>
          rw [hc, hd] at hk
          cases hk []
      | some c =>
        cases hd : Entries.find? fs k with
        | none =>
          rw [hc, hd] at hk
          cases hk []
        | some d =>
          rw [hc, hd] at hk
          exact .some (ih k c hc (hu.of_find? hc) (hv.of_find? hd) hk)

/-- **Equal up to the order of keys** is showing the same at every path. -/
theorem reordered_iff_shownAt? {u v : Value} (hu : u.Keyed) (hv : v.Keyed) :
    Reordered u v ↔ ∀ keys, u.shownAt? keys = v.shownAt? keys :=
  ⟨fun h => h.shownAt? hv, reordered_of_shownAt? hu hv⟩

/-- Wherever both have a value, both have mappings. -/
def Independent (b c : Value) : Prop :=
  ∀ keys x y, b.atKeys? keys = some x → c.atKeys? keys = some y →
    x.isMapping = true ∧ y.isMapping = true

theorem Independent.of_find? {bs cs : Entries} (h : Independent (.mapping bs) (.mapping cs))
    {k x y : Value} (hx : Entries.find? bs k = some x) (hy : Entries.find? cs k = some y) :
    Independent x y := by
  intro keys v w hv hw
  refine h (k :: keys) v w ?_ ?_
  · rw [atKeys?, hx]
    exact hv
  · rw [atKeys?, hy]
    exact hw

/-- To see that mappings are independent, the keys of one are enough. -/
theorem independent_mapping {bs cs : Entries}
    (h : ∀ e ∈ bs, ∀ y, Entries.find? cs e.1 = some y → Independent e.2 y) :
    Independent (.mapping bs) (.mapping cs) := by
  intro keys x y hx hy
  cases keys with
  | nil =>
    cases hx
    cases hy
    exact ⟨rfl, rfl⟩
  | cons k keys =>
    obtain ⟨c, hc, hx⟩ := Option.bind_eq_some_iff.1 hx
    obtain ⟨d, hd, hy⟩ := Option.bind_eq_some_iff.1 hy
    obtain ⟨e, he, rfl⟩ := Option.map_eq_some_iff.1 hc
    have hsame : e.1.sameKey k = true := by simpa using List.find?_some he
    rw [← Entries.find?_congr hsame] at hd
    exact h e (List.mem_of_find?_eq_some he) d hd keys x y hx hy

/-- A path that both touch is one at which both have mappings. -/
theorem Independent.shownAt? {b c : Value} (h : Independent b c) {keys : List Value}
    (hb : b.Touches keys) (hc : c.Touches keys) : b.shownAt? keys = c.shownAt? keys := by
  induction keys generalizing b c with
  | nil =>
    obtain ⟨hmb, hmc⟩ := h [] b c rfl rfl
    obtain ⟨bs, rfl⟩ := isMapping_eq_true hmb
    obtain ⟨cs, rfl⟩ := isMapping_eq_true hmc
    rfl
  | cons k keys ih =>
    obtain ⟨hmb, hmc⟩ := h [] b c rfl rfl
    obtain ⟨bs, rfl⟩ := isMapping_eq_true hmb
    obtain ⟨cs, rfl⟩ := isMapping_eq_true hmc
    obtain ⟨x, hx, hxt⟩ := mapping_touches_cons.1 hb
    obtain ⟨y, hy, hyt⟩ := mapping_touches_cons.1 hc
    rw [shownAt?_mapping_cons, shownAt?_mapping_cons, hx, hy]
    exact ih (h.of_find? hx hy) hxt hyt

/-- **Independent layers commute**, up to the order of keys. -/
theorem Independent.merge_merge {a b c : Value} (h : Independent b c) (ha : a.Keyed) (hb : b.Keyed)
    (hc : c.Keyed) : Reordered ((a.merge b).merge c) ((a.merge c).merge b) := by
  refine reordered_of_shownAt? ((ha.merge hb).merge hc) ((ha.merge hc).merge hb) fun keys => ?_
  by_cases hbt : b.Touches keys
  · rw [shownAt?_merge_of_touches hb hbt]
    by_cases hct : c.Touches keys
    · rw [shownAt?_merge_of_touches hc hct, h.shownAt? hbt hct]
    · rw [shownAt?_merge_of_not_touches hc hct, shownAt?_merge_of_touches hb hbt]
  · rw [shownAt?_merge_of_not_touches hb hbt]
    by_cases hct : c.Touches keys
    · rw [shownAt?_merge_of_touches hc hct, shownAt?_merge_of_touches hc hct]
    · rw [shownAt?_merge_of_not_touches hc hct, shownAt?_merge_of_not_touches hc hct,
        shownAt?_merge_of_not_touches hb hbt]

/-- The same layer over both keeps the difference to the order of keys. -/
theorem Reordered.merge {u v w : Value} (h : Reordered u v) (hu : u.Keyed) (hv : v.Keyed)
    (hw : w.Keyed) : Reordered (u.merge w) (v.merge w) :=
  reordered_of_shownAt? (hu.merge hw) (hv.merge hw) fun keys =>
    ((AlikeAt.refl keys w).shownAt?_merge hw hw u v).2 (Or.inr (h.shownAt? hv keys))

theorem Reordered.foldl_merge {layers : List Value} (hl : ∀ c ∈ layers, c.Keyed) {u v : Value}
    (h : Reordered u v) (hu : u.Keyed) (hv : v.Keyed) :
    Reordered (layers.foldl Value.merge u) (layers.foldl Value.merge v) := by
  induction layers generalizing u v with
  | nil => exact h
  | cons c layers ih =>
    obtain ⟨hc, hl⟩ := List.forall_mem_cons.1 hl
    exact ih hl (h.merge hu hv hc) (hu.merge hc) (hv.merge hc)

end LayeredConfig.Value
