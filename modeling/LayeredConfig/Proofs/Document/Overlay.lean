import LayeredConfig.Proofs.Document.Layers

/-!
# Overlays, path by path

A merge at a path of keys is fixed by what the overlay has there. A value of the overlay lies over
that of the base, and nothing is left below a value that is no mapping; elsewhere the base is as it
was. A mapping that is merged keeps the keys of the base in their order, and the new ones follow in
the order of the overlay.
-/
namespace LayeredConfig

namespace Entries

theorem has_insert (es : Entries) (k v l : Value) :
    has (insert es k v) l = (k.sameKey l || has es l) := by
  rw [has_eq_isSome, has_eq_isSome, find?_insert]
  cases k.sameKey l <;> rfl

/-- A new key comes behind the others. -/
theorem keys_insert (es : Entries) (k v : Value) :
    (insert es k v).map Prod.fst =
      if has es k then es.map Prod.fst else es.map Prod.fst ++ [k] := by
  induction es with
  | nil => rfl
  | cons e es ih =>
    have hhas : has (e :: es) k = (e.1.sameKey k || has es k) := List.any_cons
    rw [insert, hhas]
    cases hk : e.1.sameKey k with
    | true => rfl
    | false =>
      rw [if_neg Bool.false_ne_true, List.map_cons, ih, Bool.false_or, List.map_cons]
      split <;> rfl

end Entries

namespace Value

/-- A merged mapping has the keys of the base, then those of the overlay that the base does not
have. -/
theorem keys_mergeEntries (bs : Entries) {os : Entries} (ho : Entries.Distinct os) :
    (mergeEntries .replace bs os).map Prod.fst =
      bs.map Prod.fst ++ (os.map Prod.fst).filter fun k => ¬ Entries.has bs k := by
  induction os generalizing bs with
  | nil =>
    rw [mergeEntries]
    exact (List.append_nil _).symm
  | cons e os ih =>
    obtain ⟨k, v⟩ := e
    obtain ⟨hk, ho⟩ := List.pairwise_cons.1 ho
    -- The rest of the overlay does not have the key, and so has the same keys that are new.
    have hrest : ∀ w, ((os.map Prod.fst).filter fun l => ¬ Entries.has (Entries.insert bs k w) l) =
        (os.map Prod.fst).filter fun l => ¬ Entries.has bs l := by
      refine fun w => List.filter_congr fun l hl => ?_
      obtain ⟨f, hf, rfl⟩ := List.mem_map.1 hl
      rw [Entries.has_insert, hk f hf, Bool.false_or]
    rw [mergeEntries_cons, overlaid_replace]
    dsimp only
    rw [ih _ ho, hrest, Entries.keys_insert, List.map_cons, List.filter_cons]
    cases Entries.has bs k <;> simp

theorem atKeys?_append (v : Value) (front back : List Value) :
    v.atKeys? (front ++ back) = (v.atKeys? front).bind (·.atKeys? back) := by
  induction front generalizing v with
  | nil => rfl
  | cons k front ih =>
    cases v with
    | mapping es =>
      rw [List.cons_append, atKeys?, atKeys?]
      cases Entries.find? es k with
      | none => rfl
      | some c => exact ih c
    | _ => rfl

theorem Keyed.of_atKeys? {v x : Value} (hv : v.Keyed) {keys : List Value}
    (h : v.atKeys? keys = some x) : x.Keyed := by
  induction keys generalizing v with
  | nil =>
    cases h
    exact hv
  | cons k keys ih =>
    cases v with
    | mapping es =>
      obtain ⟨c, hc, h⟩ := Option.bind_eq_some_iff.1 h
      exact ih (hv.of_find? hc) h
    | _ => cases h

/-- There is nothing below a value that is no mapping. -/
theorem atKeys?_of_blocked {v x : Value} {before keys : List Value} (hbefore : before <+: keys)
    (hne : before ≠ keys) (hx : v.atKeys? before = some x) (hm : x.isMapping = false) :
    v.atKeys? keys = none := by
  obtain ⟨rest, rfl⟩ := hbefore
  cases rest with
  | nil => simp at hne
  | cons k rest =>
    rw [atKeys?_append, hx]
    exact atKeys?_cons_of_not_mapping hm k rest

/-- **What a merge has at a path.** The value of the overlay, if that is no mapping; nothing, if
such a value is on the way; what the base has, if the overlay has nothing there but mappings on the
way. Where the overlay has a mapping, it is the merge's too, unless the base has a mapping there:
then the keys are those of the base in their order and the new ones behind them in the order of the
overlay. -/
theorem atKeys?_merge {o : Value} (ho : o.Keyed) (b : Value) (keys : List Value) :
    (∀ x, o.atKeys? keys = some x → x.isMapping = false → (b.merge o).atKeys? keys = some x) ∧
    (∀ before x, before <+: keys → before ≠ keys → o.atKeys? before = some x → x.isMapping = false →
      (b.merge o).atKeys? keys = none) ∧
    (o.atKeys? keys = none →
      (∀ before x, before <+: keys → o.atKeys? before = some x → x.isMapping = true) →
      (b.merge o).atKeys? keys = b.atKeys? keys) ∧
    ∀ os, o.atKeys? keys = some (.mapping os) →
      (∀ bs, b.atKeys? keys = some (.mapping bs) →
        ∃ ms, (b.merge o).atKeys? keys = some (.mapping ms) ∧
          ms.map Prod.fst =
            bs.map Prod.fst ++ (os.map Prod.fst).filter fun k => ¬ Entries.has bs k) ∧
      ((∀ bs, b.atKeys? keys ≠ some (.mapping bs)) →
        (b.merge o).atKeys? keys = some (.mapping os)) := by
  refine ⟨fun x hx hm => ?_, fun before x hbefore hne hx hm => ?_, fun hnone hway => ?_,
    fun os hos => ⟨?_, ?_⟩⟩
  · exact (atKeys?_merge_eq_some ho hm).2 (Or.inl hx)
  · have htouch : o.Touches keys := Or.inr ⟨before, x, hbefore, hne, hx, hm⟩
    exact atKeys?_merge_of_touches ho htouch (atKeys?_of_blocked hbefore hne hx hm) b
  · refine atKeys?_merge_of_not_touches ho ?_ b
    rintro (hsome | ⟨before, x, hbefore, -, hx, hm⟩)
    · rw [hnone] at hsome
      cases hsome
    · rw [hway before x hbefore hx] at hm
      cases hm
  · intro bs hbs
    have hkeyed : (mapping os).Keyed := ho.of_atKeys? hos
    refine ⟨mergeEntries .replace bs os, ?_, keys_mergeEntries bs (keyed_mapping.1 hkeyed).1⟩
    rw [atKeys?_merge_of_some ho hos, hbs, Option.map_some, merge_mapping_mapping]
    rfl
  · intro hbase
    rw [atKeys?_merge_of_some ho hos]
    cases hy : b.atKeys? keys with
    | none => rfl
    | some y =>
      have hm : y.isMapping = false := by
        cases y with
        | mapping bs => exact absurd hy (hbase bs)
        | _ => rfl
      exact congrArg some (merge_mapping_of_not_mapping hm os)

/-- A mapping over a mapping with a null for one of its keys, a mapping over a number, and a
sequence. -/
theorem atKeys?_merge_clashing :
    let b : Value := .mapping [(.string "z", .number (.int 1)),
      (.string "db",
        .mapping [(.string "port", .number (.int 5432)), (.string "host", .string "old")]),
      (.string "log", .number (.int 2))]
    let o : Value := .mapping [(.string "tags", .sequence [.string "x"]),
      (.string "db", .mapping [(.string "user", .string "me"), (.string "port", .null)]),
      (.string "log", .mapping [(.string "level", .string "info")])]
    o.Keyed ∧
    (b.merge o).atKeys? [.string "db", .string "port"] = some .null ∧
    (b.merge o).atKeys? [.string "tags", .string "x"] = none ∧
    (b.merge o).atKeys? [.string "db", .string "host"] = some (.string "old") ∧
    (∃ ms, (b.merge o).atKeys? [.string "db"] = some (.mapping ms) ∧
      ms.map Prod.fst = [.string "port", .string "host", .string "user"]) ∧
    (b.merge o).atKeys? [.string "log"] = some (.mapping [(.string "level", .string "info")]) := by
  intro b o
  have ho : o.Keyed := by decide
  refine ⟨ho, ?_, ?_, ?_, ?_, ?_⟩
  · exact (atKeys?_merge ho b _).1 _ rfl rfl
  · exact (atKeys?_merge ho b _).2.1 [.string "tags"] _ (List.prefix_append [_] [_]) (by decide)
      rfl rfl
  · refine (atKeys?_merge ho b _).2.2.1 rfl fun before x hbefore hx => ?_
    simp only [List.prefix_cons_iff, List.prefix_nil] at hbefore
    rcases hbefore with rfl | ⟨_, rfl, rfl | ⟨_, rfl, rfl⟩⟩ <;> cases hx <;> rfl
  · obtain ⟨ms, hms, hkeys⟩ := ((atKeys?_merge ho b [.string "db"]).2.2.2 _ rfl).1 _ rfl
    exact ⟨ms, hms, hkeys.trans (by decide)⟩
  · exact ((atKeys?_merge ho b _).2.2.2 _ rfl).2 (by rintro bs ⟨⟩)

end Value
end LayeredConfig
