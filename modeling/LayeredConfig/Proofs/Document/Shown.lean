import LayeredConfig.Proofs.Document.Lookup

/-!
# What a layer shows, and what it leaves as it is

At each path a layer either decides what is shown there, whatever lies below it, or it leaves that
to the layers below. A layer that holds one value below a package decides all paths that lead to the
package; what it does at and below the package is up to the value, so that null decides all of it
and an empty mapping only what the package itself is.
-/
namespace LayeredConfig.Value

/-- A mapping without its entries; any other value as it is. -/
def shown (v : Value) : Value := if v.isMapping then .mapping [] else v

/-- What a value shows at a path of keys. -/
def shownAt? (v : Value) (keys : List Value) : Option Value := (v.atKeys? keys).map shown

@[simp] theorem shown_mapping (es : Entries) : (mapping es).shown = .mapping [] := rfl

theorem shown_merge (b o : Value) : (b.merge o).shown = o.shown := by
  rcases merge_cases b o with ⟨hmerge, -⟩ | ⟨bs, os, rfl, rfl, hmerge⟩
  · rw [hmerge]
  · rw [hmerge, shown_mapping, shown_mapping]

theorem shownAt?_mapping_cons (es : Entries) (k : Value) (keys : List Value) :
    (mapping es).shownAt? (k :: keys) = (Entries.find? es k).bind (shownAt? · keys) := by
  unfold shownAt?
  rw [atKeys?]
  cases Entries.find? es k <;> rfl

/-- Where the overlay touches a path, it alone decides what is shown there. -/
theorem shownAt?_merge_of_touches {o : Value} (ho : o.Keyed) {keys : List Value}
    (h : o.Touches keys) (b : Value) : (b.merge o).shownAt? keys = o.shownAt? keys := by
  unfold shownAt?
  cases hx : o.atKeys? keys with
  | none => rw [atKeys?_merge_of_touches ho h hx]
  | some x =>
    rw [atKeys?_merge_of_some ho hx]
    cases b.atKeys? keys with
    | none => rfl
    | some y => exact congrArg some (shown_merge y x)

/-- Where it does not, what is shown is that of the base. -/
theorem shownAt?_merge_of_not_touches {o : Value} (ho : o.Keyed) {keys : List Value}
    (h : ¬ o.Touches keys) (b : Value) : (b.merge o).shownAt? keys = b.shownAt? keys := by
  rw [shownAt?, atKeys?_merge_of_not_touches ho h, shownAt?]

/-- Two layers touch a path both or neither, and show the same there. -/
structure AlikeAt (keys : List Value) (c c' : Value) : Prop where
  touches : c.Touches keys ↔ c'.Touches keys
  shown : c.shownAt? keys = c'.shownAt? keys

theorem AlikeAt.refl (keys : List Value) (c : Value) : AlikeAt keys c c := ⟨Iff.rfl, rfl⟩

/-- Over two values, layers that are alike show the same if they touch the path, or if the values
show the same. -/
theorem AlikeAt.shownAt?_merge {keys : List Value} {c c' : Value} (h : AlikeAt keys c c')
    (hc : c.Keyed) (hc' : c'.Keyed) (b b' : Value) :
    (b.merge c).shownAt? keys = (b'.merge c').shownAt? keys ↔
      c.Touches keys ∨ b.shownAt? keys = b'.shownAt? keys := by
  by_cases ht : c.Touches keys
  · rw [shownAt?_merge_of_touches hc ht, shownAt?_merge_of_touches hc' (h.touches.1 ht)]
    exact iff_of_true h.shown (Or.inl ht)
  · rw [shownAt?_merge_of_not_touches hc ht,
      shownAt?_merge_of_not_touches hc' (fun ht' => ht (h.touches.2 ht'))]
    exact (or_iff_right ht).symm

theorem touches_nest_cons {s : Text} {package : List Text} {v k : Value} {keys : List Value} :
    (nest (s :: package) v).Touches (k :: keys) ↔
      k = .string s ∧ (nest package v).Touches keys := by
  refine mapping_touches_cons.trans ?_
  rw [find?_single]
  by_cases hk : k = .string s
  · simp only [hk, if_true, true_and, Option.some.injEq, exists_eq_left']
    rfl
  · simp [hk]

theorem shownAt?_nest_cons (s : Text) (package : List Text) (v k : Value) (keys : List Value) :
    (nest (s :: package) v).shownAt? (k :: keys) =
      if k = .string s then (nest package v).shownAt? keys else none := by
  refine (shownAt?_mapping_cons _ k keys).trans ?_
  rw [find?_single]
  split <;> rfl

/-- What lies below a package does not count outside of it. -/
theorem alikeAt_nest {package : List Text} {keys : List Value}
    (h : ¬ stringKeys package <+: keys) (v w : Value) :
    AlikeAt keys (nest package v) (nest package w) := by
  induction package generalizing keys with
  | nil => exact absurd List.nil_prefix h
  | cons s package ih =>
    cases keys with
    | nil => exact ⟨iff_of_true (touches_nil _) (touches_nil _), rfl⟩
    | cons k keys =>
      have hrest : k = .string s → AlikeAt keys (nest package v) (nest package w) := by
        rintro rfl
        exact ih fun hp => h (List.cons_prefix_cons.2 ⟨rfl, hp⟩)
      constructor
      · rw [touches_nest_cons, touches_nest_cons]
        exact and_congr_right fun hk => (hrest hk).touches
      · rw [shownAt?_nest_cons, shownAt?_nest_cons]
        split
        · next hk => exact (hrest hk).shown
        · rfl

theorem touches_nest_append {package : List Text} {v : Value} {keys : List Value} :
    (nest package v).Touches (stringKeys package ++ keys) ↔ v.Touches keys := by
  induction package with
  | nil => rfl
  | cons s package ih => exact touches_nest_cons.trans ((and_iff_right rfl).trans ih)

theorem shownAt?_nest_append (package : List Text) (v : Value) (keys : List Value) :
    (nest package v).shownAt? (stringKeys package ++ keys) = v.shownAt? keys := by
  rw [shownAt?, atKeys?_nest_append, shownAt?]

theorem touches_nest_null {package : List Text} {keys : List Value}
    (h : stringKeys package <+: keys) : (nest package .null).Touches keys := by
  obtain ⟨keys, rfl⟩ := h
  exact touches_nest_append.2 (touches_of_not_mapping rfl keys)

/-- Null decides what is shown at and below a package, and shows nothing below it. -/
theorem shownAt?_merge_nest_null (package : List Text) (keys : List Value) (b : Value) :
    (b.merge (nest package .null)).shownAt? (stringKeys package ++ keys) =
      if keys = [] then some .null else none := by
  have hkeyed : (nest package null).Keyed := nest_keyed (show Keyed null from trivial) package
  rw [shownAt?_merge_of_touches hkeyed (touches_nest_null (List.prefix_append _ _)),
    shownAt?_nest_append]
  cases keys <;> rfl

/-- An empty mapping makes the package a mapping and leaves what lies below it. -/
theorem shownAt?_merge_nest_empty (package : List Text) (keys : List Value) (b : Value) :
    (b.merge (nest package (.mapping []))).shownAt? (stringKeys package ++ keys) =
      if keys = [] then some (.mapping []) else b.shownAt? (stringKeys package ++ keys) := by
  have hkeyed : (nest package (mapping [])).Keyed := nest_keyed keyed_empty package
  cases keys with
  | nil =>
    rw [shownAt?_merge_of_touches hkeyed (touches_nest_append.2 (touches_nil _)),
      shownAt?_nest_append]
    rfl
  | cons k keys =>
    have hnot : ¬ (nest package (mapping [])).Touches (stringKeys package ++ k :: keys) := by
      rw [touches_nest_append, mapping_touches_cons]
      rintro ⟨c, hc, -⟩
      cases hc
    rw [shownAt?_merge_of_not_touches hkeyed hnot, if_neg (by simp)]

/-- **What null loses.** Below a package, null shows the same as an empty mapping outside of the
package, and inside of it where there is nothing to lose. -/
theorem shownAt?_merge_null_eq_empty {package : List Text} {keys : List Value} {b b' : Value}
    (h : stringKeys package <+: keys) :
    (b.merge (nest package .null)).shownAt? keys =
        (b'.merge (nest package (.mapping []))).shownAt? keys ↔
      keys ≠ stringKeys package ∧ b'.atKeys? keys = none := by
  obtain ⟨keys, rfl⟩ := h
  rw [shownAt?_merge_nest_null, shownAt?_merge_nest_empty]
  cases keys with
  | nil => simp
  | cons k keys => simp [shownAt?, eq_comm (a := none)]

end LayeredConfig.Value
