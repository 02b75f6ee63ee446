import LayeredConfig.Proofs.Document.Places

/-!
# Removing a path

What can be read at a path can be removed there: one entry of a mapping, or one item of a sequence,
whose followers move up. An entry is taken out by its key, so this is said of documents without a
key twice.
-/
namespace LayeredConfig

/-- The entry of a key is erased from where it stands. -/
theorem Entries.erase_append {front back : Entries} {k l c : Value}
    (hfront : ∀ e ∈ front, ¬ e.1.sameKey k = true) (hk : l.sameKey k = true) :
    Entries.erase (front ++ (l, c) :: back) k = front ++ back := by
  rw [Entries.erase, List.eraseP_append_right _ hfront]
  exact congrArg (front ++ ·) (List.eraseP_cons_of_pos hk)

namespace Value

variable {v w c : Value} {path front : List Text} {s last : Text}

/-- The node `after` is the node `before` without the child that a segment names. -/
inductive Dropped (s : Text) (c : Value) : (before after : Value) → Prop
  | entry {front back : Entries} {k : Value} :
    (∀ e ∈ front, e.1.matchesSegment s = false) → k.matchesSegment s = true →
    Dropped s c (.mapping (front ++ (k, c) :: back)) (.mapping (front ++ back))
  | item {front back : List Value} : Text.index? s = some front.length →
    Dropped s c (.sequence (front ++ c :: back)) (.sequence (front ++ back))

/-- The document `after` is the document `before` without the node `gone` at a path. -/
inductive RemovedAt (gone : Value) : (path : List Text) → (before after : Value) → Prop
  | here {s : Text} {before after : Value} : Dropped s gone before after →
    RemovedAt gone [s] before after
  | inside {s : Text} {path : List Text} {c c' before after : Value} :
    Swapped s c c' before after → RemovedAt gone path c c' →
    RemovedAt gone (s :: path) before after

theorem Dropped.keyed (h : Dropped s c v w) (hv : v.Keyed) : w.Keyed := by
  cases h with
  | @entry front back k _ _ =>
    obtain ⟨hd, hall⟩ := keyed_mapping.1 hv
    have hsub : List.Sublist (front ++ back) (front ++ (k, c) :: back) :=
      (List.sublist_cons_self _ _).append_left front
    exact keyed_mapping.2 ⟨hd.sublist hsub, fun e he => hall e (hsub.subset he)⟩
  | @item front back _ =>
    have hsub : List.Sublist (front ++ back) (front ++ c :: back) :=
      (List.sublist_cons_self _ _).append_left front
    exact keyedItems_iff.2 fun x hx => keyedItems_iff.1 hv x (hsub.subset hx)

theorem RemovedAt.keyed {gone : Value} (h : RemovedAt gone path v w) (hv : v.Keyed) : w.Keyed := by
  induction h with
  | here hd => exact hd.keyed hv
  | inside hs _ ih => exact hs.keyed hv (ih (hs.child_keyed hv))

/-- The last segment takes a child out of its node. -/
theorem remove?_last (hv : v.Keyed) (h : v.child? s = some c) :
    ∃ w, remove? [s] v = some (c, w) ∧ Dropped s c v w := by
  obtain ⟨w, hw⟩ := exists_swapped h c
  cases hw with
  | @entry front back k hfront hk =>
    have he : entryNamed? (front ++ (k, c) :: back) s = some (k, c) :=
      entryNamed?_eq_some.2 ⟨front, back, rfl, hk, hfront⟩
    -- The entry that the segment names is the only one with its key.
    have hothers : ∀ e ∈ front, ¬ e.1.sameKey k = true := by
      intro e hmem
      have hd :=
        (List.pairwise_append.1 (keyed_mapping.1 hv).1).2.2 e hmem (k, c) List.mem_cons_self
      simp [hd]
    refine ⟨_, ?_, .entry hfront hk⟩
    rw [remove?, he]
    simp only [Option.bind_eq_bind, Option.bind_some, List.isEmpty_nil, if_true,
      Entries.erase_append hothers (sameKey_refl k)]
  | @item front back hi =>
    have hget : (front ++ c :: back)[front.length]? = some c := by simp
    refine ⟨_, ?_, .item hi⟩
    rw [remove?, hi]
    simp only [Option.bind_eq_bind, Option.bind_some, hget, List.isEmpty_nil, if_true]
    rw [List.eraseIdx_append_of_length_le (Nat.le_refl _), Nat.sub_self, List.eraseIdx_cons_zero]

/-- An earlier segment leads on to the child. -/
theorem remove?_cons (hne : path ≠ []) (s : Text) (v : Value) :
    remove? (s :: path) v =
      (v.slot? s).bind fun p => (remove? path p.1).map fun q => (q.1, p.2 q.2) := by
  have hempty : path.isEmpty = false := by simpa using hne
  cases v with
  | mapping es =>
    rw [remove?, slot?]
    cases entryNamed? es s with
    | none => rfl
    | some e =>
      simp only [Option.bind_eq_bind, Option.bind_some, Option.map_some, hempty, Bool.false_eq_true,
        if_false]
      cases remove? path e.2 <;> rfl
  | sequence items =>
    rw [remove?, slot?]
    cases Text.index? s with
    | none => rfl
    | some i =>
      simp only [Option.bind_eq_bind, Option.bind_some]
      cases items[i]? with
      | none => rfl
      | some item =>
        simp only [Option.bind_some, hempty, Bool.false_eq_true, if_false]
        cases remove? path item <;> rfl
  | _ => rfl

/-- **What can be read can be removed.** -/
theorem remove?_found (hv : v.Keyed) (hne : path ≠ []) (h : v.get? path = some c) :
    ∃ w, remove? path v = some (c, w) ∧ RemovedAt c path v w := by
  induction path generalizing v with
  | nil => exact absurd rfl hne
  | cons s path ih =>
    obtain ⟨d, hd, h⟩ := Option.bind_eq_some_iff.1 h
    by_cases hpath : path = []
    · subst hpath
      cases h
      obtain ⟨w, hw, hdrop⟩ := remove?_last hv hd
      exact ⟨w, hw, .here hdrop⟩
    · rw [child?_eq_slot?] at hd
      obtain ⟨⟨_, put⟩, hput, rfl⟩ := Option.map_eq_some_iff.1 hd
      obtain ⟨w, hw, hrem⟩ := ih ((swapped_of_slot? hput .null).child_keyed hv) hpath h
      refine ⟨put w, ?_, .inside (swapped_of_slot? hput w) hrem⟩
      rw [remove?_cons hpath, hput, Option.bind_some, hw, Option.map_some]

/-- What cannot be read cannot be removed. -/
theorem remove?_missing (h : v.get? path = none) : remove? path v = none := by
  induction path generalizing v with
  | nil => cases h
  | cons s path ih =>
    by_cases hpath : path = []
    · subst hpath
      have hs : v.child? s = none := by
        simpa [get?] using h
      cases v with
      | mapping es => rw [remove?, Option.map_eq_none_iff.1 hs]; rfl
      | sequence items =>
        rw [child?] at hs
        rw [remove?]
        cases hi : Text.index? s with
        | none => rfl
        | some i =>
          rw [hi, Option.bind_some] at hs
          simp only [Option.bind_eq_bind, Option.bind_some, hs, Option.bind_none]
      | _ => rfl
    · rw [remove?_cons hpath]
      rw [get?, child?_eq_slot?] at h
      cases hput : v.slot? s with
      | none => rfl
      | some p =>
        rw [hput] at h
        rw [Option.bind_some, ih h, Option.map_none]

/-- Removing a path does not give a mapping a key twice. -/
theorem remove?_keyed {gone : Value} (hv : v.Keyed) (h : remove? path v = some (gone, w)) :
    w.Keyed := by
  cases hget : v.get? path with
  | none =>
    rw [remove?_missing hget] at h
    cases h
  | some c =>
    have hne : path ≠ [] := by
      rintro rfl
      cases h
    obtain ⟨w', hw', hrem⟩ := remove?_found hv hne hget
    rw [hw'] at h
    cases h
    exact hrem.keyed hv

/-- A new last entry is removed without a trace. -/
theorem remove?_added {es : Entries} {x : Value}
    (h : ReplacedAt (.mapping es) (.mapping (es ++ [(.string last, x)])) front v w)
    (hs : entryNamed? es last = none) : remove? (front ++ [last]) w = some (x, v) := by
  induction h with
  | here =>
    have hnot : ∀ e ∈ es, e.1.matchesSegment last = false := by
      simpa using List.find?_eq_none.1 hs
    have he : entryNamed? (es ++ [(.string last, x)]) last = some (.string last, x) :=
      entryNamed?_eq_some.2 ⟨es, [], rfl, matchesSegment_string.2 rfl, hnot⟩
    have hothers : ∀ e ∈ es, ¬ e.1.sameKey (.string last) = true :=
      fun e hmem => not_sameKey_of_not_matches (by simp [hnot e hmem])
    rw [List.nil_append, remove?, he]
    simp only [Option.bind_eq_bind, Option.bind_some, List.isEmpty_nil, if_true,
      Entries.erase_append hothers (sameKey_refl _), List.append_nil]
  | inside hswap _ ih =>
    obtain ⟨put, hput, hv⟩ := hswap.symm.slot?
    rw [List.cons_append, remove?_cons (by simp), hput, Option.bind_some, ih, Option.map_some, hv]

end Value
end LayeredConfig
