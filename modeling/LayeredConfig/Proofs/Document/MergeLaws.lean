import LayeredConfig.Proofs.Document.Layers

/-!
# Laws of merging

Three layers can be merged from either end, with the same result in the same order of keys, unless
the layer in the middle has a value that is no mapping where the two others have mappings. Merged
from the left, it wipes out the mapping of the first layer. Merged from the right, it is gone before
it meets that mapping. A layer that is merged again changes nothing, whatever a null means.
-/
namespace LayeredConfig

namespace Entries

/-- A value merged over the value under a key, if there is one. -/
def mergedAt (es : Entries) (k v : Value) : Value := ((find? es k).map (·.merge v)).getD v

theorem mergedAt_of_some {es : Entries} {k c : Value} (h : find? es k = some c) (v : Value) :
    mergedAt es k v = c.merge v := by
  rw [mergedAt, h]
  rfl

theorem mergedAt_of_none {es : Entries} {k : Value} (h : find? es k = none) (v : Value) :
    mergedAt es k v = v := by
  rw [mergedAt, h]
  rfl

/-- What lies under another key does not count. -/
theorem mergedAt_insert_of_not {k l : Value} (h : ¬ k.sameKey l = true) (es : Entries)
    (v w : Value) :
    mergedAt (insert es k v) l w = mergedAt es l w := by
  rw [mergedAt, find?_insert, if_neg h, mergedAt]

theorem mergedAt_congr {k l : Value} (h : k.sameKey l = true) (es : Entries) (v : Value) :
    mergedAt es k v = mergedAt es l v := by
  rw [mergedAt, find?_congr h, mergedAt]

theorem insert_cons_of_same {k l : Value} (h : l.sameKey k = true) (u : Value) (es : Entries)
    (v : Value) : insert ((l, u) :: es) k v = (l, v) :: es := if_pos h

theorem insert_cons_of_not {k l : Value} (h : ¬ l.sameKey k = true) (u : Value) (es : Entries)
    (v : Value) : insert ((l, u) :: es) k v = (l, u) :: insert es k v := if_neg h

theorem insert_of_find?_some {es : Entries} {k v : Value} (h : find? es k = some v) :
    insert es k v = es := by
  induction es with
  | nil => cases h
  | cons e es ih =>
    obtain ⟨l, u⟩ := e
    rw [find?_cons] at h
    by_cases hlk : l.sameKey k = true
    · rw [if_pos hlk] at h
      cases h
      exact insert_cons_of_same hlk _ es _
    · rw [if_neg hlk] at h
      rw [insert_cons_of_not hlk, ih h]

theorem Distinct.find?_of_mem {es : Entries} (hd : Distinct es) {k v : Value} (h : (k, v) ∈ es) :
    find? es k = some v := by
  induction es with
  | nil => cases h
  | cons e es ih =>
    obtain ⟨he, hd⟩ := List.pairwise_cons.1 hd
    rw [find?_cons]
    rcases List.mem_cons.1 h with rfl | h
    · exact if_pos (Value.sameKey_refl k)
    · rw [he (k, v) h]
      exact ih hd h

/-- Of two insertions under one key the later counts, in the place of the earlier. -/
theorem insert_insert_same {k l : Value} (h : k.sameKey l = true) (es : Entries) (v w : Value) :
    insert (insert es k v) l w = insert es k w := by
  induction es with
  | nil => exact insert_cons_of_same h v [] w
  | cons e es ih =>
    obtain ⟨m, u⟩ := e
    by_cases hk : m.sameKey k = true
    · have hl := Value.sameKey_trans hk h
      rw [insert_cons_of_same hk, insert_cons_of_same hk, insert_cons_of_same hl]
    · have hl : ¬ m.sameKey l = true :=
        fun hl => hk (Value.sameKey_trans hl (Value.sameKey_symm h))
      rw [insert_cons_of_not hk, insert_cons_of_not hk, insert_cons_of_not hl, ih]

/-- Insertions under two keys commute if the first key is there already. -/
theorem insert_insert_of_has {es : Entries} {k l : Value} (hk : (find? es k).isSome)
    (h : k.sameKey l = false) (v w : Value) :
    insert (insert es k v) l w = insert (insert es l w) k v := by
  induction es with
  | nil => cases hk
  | cons e es ih =>
    obtain ⟨m, u⟩ := e
    by_cases hmk : m.sameKey k = true
    · have hml : ¬ m.sameKey l = true := by
        rw [Value.sameKey_left hmk, h]
        exact Bool.false_ne_true
      rw [insert_cons_of_same hmk, insert_cons_of_not hml, insert_cons_of_not hml,
        insert_cons_of_same hmk]
    · rw [find?_cons, if_neg hmk] at hk
      by_cases hml : m.sameKey l = true
      · rw [insert_cons_of_not hmk, insert_cons_of_same hml, insert_cons_of_same hml,
          insert_cons_of_not hmk]
      · rw [insert_cons_of_not hmk, insert_cons_of_not hml, insert_cons_of_not hml,
          insert_cons_of_not hmk, ih hk]

end Entries

namespace Value

open Entries (mergedAt mergedAt_of_some mergedAt_of_none mergedAt_insert_of_not mergedAt_congr)

theorem mergeEntries_replace_cons (bs os : Entries) (k v : Value) :
    mergeEntries .replace bs ((k, v) :: os) =
      mergeEntries .replace (Entries.insert bs k (mergedAt bs k v)) os := by
  rw [mergeEntries_cons, overlaid_replace, mergedAt]

/-- An entry that is there already can be given its value before or after an overlay without its
key. -/
theorem mergeEntries_insert_of_has {as os : Entries} {k : Value} (hk : (Entries.find? as k).isSome)
    (hos : Entries.find? os k = none) (v : Value) :
    mergeEntries .replace (Entries.insert as k v) os =
      Entries.insert (mergeEntries .replace as os) k v := by
  induction os generalizing as with
  | nil => rw [mergeEntries, mergeEntries]
  | cons e os ih =>
    obtain ⟨l, u⟩ := e
    rw [Entries.find?_cons] at hos
    split at hos
    · cases hos
    next hlk =>
    have hkl : k.sameKey l = false := by
      rw [sameKey_comm]
      simpa using hlk
    have hover : mergedAt (Entries.insert as k v) l u = mergedAt as l u :=
      mergedAt_insert_of_not (by simp [hkl]) as v u
    have hhas : (Entries.find? (Entries.insert as l (mergedAt as l u)) k).isSome := by
      rw [Entries.find?_insert, if_neg hlk]
      exact hk
    rw [mergeEntries_replace_cons, mergeEntries_replace_cons, hover,
      Entries.insert_insert_of_has hk hkl, ih hhas hos]

/-- One more entry of an overlay comes over what the others have made of the base. -/
theorem mergeEntries_insert {bs : Entries} (hb : Entries.Distinct bs) (as : Entries) (k w : Value) :
    mergeEntries .replace as (Entries.insert bs k w) =
      Entries.insert (mergeEntries .replace as bs) k (mergedAt as k w) := by
  induction bs generalizing as with
  | nil => rw [Entries.insert, mergeEntries_replace_cons, mergeEntries, mergeEntries]
  | cons e bs ih =>
    obtain ⟨l, u⟩ := e
    obtain ⟨hl, hb⟩ := Entries.distinct_cons.1 hb
    by_cases hlk : l.sameKey k = true
    · have hover : mergedAt as l w = mergedAt as k w := mergedAt_congr hlk as w
      have hhas : (Entries.find? (Entries.insert as l (mergedAt as l u)) k).isSome := by
        rw [Entries.find?_insert, if_pos hlk]
        rfl
      have hbk : Entries.find? bs k = none := by rw [← Entries.find?_congr hlk, hl]
      rw [Entries.insert_cons_of_same hlk, mergeEntries_replace_cons, mergeEntries_replace_cons,
        ← mergeEntries_insert_of_has hhas hbk, Entries.insert_insert_same hlk, hover]
    · have hover : mergedAt (Entries.insert as l (mergedAt as l u)) k w = mergedAt as k w :=
        mergedAt_insert_of_not hlk as _ w
      rw [Entries.insert_cons_of_not hlk, mergeEntries_replace_cons,
        mergeEntries_replace_cons, ih hb, hover]

theorem find?_mergeEntries_replace {os : Entries} (ho : Entries.Distinct os) (bs : Entries)
    (k : Value) :
    Entries.find? (mergeEntries .replace bs os) k =
      match Entries.find? os k with
      | some v => some (mergedAt bs k v)
      | none => Entries.find? bs k := by
  rw [find?_mergeEntries .replace ho]
  cases Entries.find? os k with
  | none => rfl
  | some v => exact overlaid_replace _ v

/-- Under one key it makes no difference which layers are merged first, if it makes none for the
values that the first two layers have there. -/
theorem mergedAt_mergeEntries {bs : Entries} (hb : Entries.Distinct bs) (as : Entries) (k c : Value)
    (h : ∀ z y, Entries.find? as k = some z → Entries.find? bs k = some y →
      (z.merge y).merge c = z.merge (y.merge c)) :
    mergedAt (mergeEntries .replace as bs) k c = mergedAt as k (mergedAt bs k c) := by
  have hfind := find?_mergeEntries_replace hb as k
  cases hy : Entries.find? bs k with
  | none =>
    rw [hy] at hfind
    rw [mergedAt_of_none hy, mergedAt, hfind, mergedAt]
  | some y =>
    rw [hy] at hfind
    rw [mergedAt_of_some hy, mergedAt_of_some hfind]
    cases hz : Entries.find? as k with
    | none => rw [mergedAt_of_none hz, mergedAt_of_none hz]
    | some z =>
      rw [mergedAt_of_some hz, mergedAt_of_some hz]
      exact h z y hz hy

/-- If it makes no difference under any key of the third layer, it makes none at all. -/
theorem mergeEntries_mergeEntries {as bs cs : Entries} (hb : Entries.Distinct bs)
    (hc : Entries.Distinct cs)
    (h : ∀ k c, Entries.find? cs k = some c →
      mergedAt (mergeEntries .replace as bs) k c = mergedAt as k (mergedAt bs k c)) :
    mergeEntries .replace (mergeEntries .replace as bs) cs =
      mergeEntries .replace as (mergeEntries .replace bs cs) := by
  -- One entry of the third layer after the other is brought into the second.
  induction cs generalizing bs with
  | nil => rw [mergeEntries, mergeEntries]
  | cons e cs ih =>
    obtain ⟨k, v⟩ := e
    obtain ⟨hk, hc⟩ := Entries.distinct_cons.1 hc
    have hhead := h k v ((Entries.find?_cons ..).trans (if_pos (sameKey_refl k)))
    rw [mergeEntries_replace_cons, mergeEntries_replace_cons, hhead, ← mergeEntries_insert hb]
    refine ih (hb.insert k _) hc fun l c hl => ?_
    have hkl : ¬ k.sameKey l = true := by
      intro hsame
      rw [← Entries.find?_congr hsame, hk] at hl
      cases hl
    have hrest := h l c ((Entries.find?_cons ..).trans ((if_neg hkl).trans hl))
    rw [mergeEntries_insert hb, mergedAt_insert_of_not hkl, mergedAt_insert_of_not hkl, hrest]

/-- Of three layers the middle one has a value that is no mapping at a path, and the others have
mappings. -/
def ClobberedAt (a b c : Value) (keys : List Value) : Prop :=
  ∃ as x cs, a.atKeys? keys = some (.mapping as) ∧ b.atKeys? keys = some x ∧ x.isMapping = false ∧
    c.atKeys? keys = some (.mapping cs)

theorem clobberedAt_cons {as bs cs : Entries} {k x y z : Value} (hx : Entries.find? as k = some x)
    (hy : Entries.find? bs k = some y) (hz : Entries.find? cs k = some z) (keys : List Value) :
    ClobberedAt (.mapping as) (.mapping bs) (.mapping cs) (k :: keys) ↔ ClobberedAt x y z keys := by
  simp only [ClobberedAt, atKeys?, hx, hy, hz, Option.bind_some]

/-- **Merging is associative, unless the middle layer clobbers.** Where no path has a mapping in the
first and the last of three layers and another value in the middle one, it makes no difference, in
content or in the order of keys, which two neighbours are merged first. -/
theorem merge_assoc {a b c : Value} (hb : b.Keyed) (hc : c.Keyed)
    (h : ∀ keys, ¬ ClobberedAt a b c keys) : (a.merge b).merge c = a.merge (b.merge c) := by
  induction c using lookup_induction generalizing a b with
  | other c hm => rw [merge_of_not_mapping hm, merge_of_not_mapping hm, merge_of_not_mapping hm]
  | mapping cs ih =>
    rcases merge_cases a b with ⟨hab, hm | hm⟩ | ⟨as, bs, rfl, rfl, hab⟩
    · -- The middle layer is no mapping, so that the first is none either.
      have ha : a.isMapping = false := by
        cases a with
        | mapping as => exact absurd ⟨as, b, cs, rfl, rfl, hm, rfl⟩ (h [])
        | _ => rfl
      rw [hab, merge_mapping_of_not_mapping hm, merge_mapping_of_not_mapping ha]
    · rw [hab, merge_of_base_not_mapping hm]
    · have hdb := (keyed_mapping.1 hb).1
      rw [hab, merge_mapping_mapping, merge_mapping_mapping, merge_mapping_mapping]
      congr 1
      refine mergeEntries_mergeEntries hdb (keyed_mapping.1 hc).1 fun k z hz => ?_
      refine mergedAt_mergeEntries hdb as k z fun x y hx hy => ?_
      refine ih k z hz (hb.of_find? hy) (hc.of_find? hz) fun keys hclobbered => ?_
      exact h (k :: keys) ((clobberedAt_cons hx hy hz keys).2 hclobbered)

theorem not_clobberedAt_of_not_mapping {a : Value} (h : a.isMapping = false) (b c : Value)
    (keys : List Value) : ¬ ClobberedAt a b c keys := by
  rintro ⟨as, -, -, ha, -⟩
  cases keys with
  | nil =>
    cases ha
    cases h
  | cons k keys =>
    rw [atKeys?_cons_of_not_mapping h] at ha
    cases ha

/-- To see that a middle layer does not clobber, its own keys are enough. -/
theorem not_clobberedAt_mapping {as bs cs : Entries}
    (h : ∀ e ∈ bs, ∀ x z, Entries.find? as e.1 = some x → Entries.find? cs e.1 = some z →
      ∀ keys, ¬ ClobberedAt x e.2 z keys) (keys : List Value) :
    ¬ ClobberedAt (.mapping as) (.mapping bs) (.mapping cs) keys := by
  cases keys with
  | nil =>
    rintro ⟨-, -, -, -, ⟨⟩, hm, -⟩
    cases hm
  | cons k keys =>
    intro hclobbered
    have habove := hclobbered
    obtain ⟨_, _, _, ha, hb, -, hc⟩ := hclobbered
    obtain ⟨x, hx, -⟩ := Option.bind_eq_some_iff.1 ha
    obtain ⟨y, hy, -⟩ := Option.bind_eq_some_iff.1 hb
    obtain ⟨z, hz, -⟩ := Option.bind_eq_some_iff.1 hc
    have hbelow := (clobberedAt_cons hx hy hz keys).1 habove
    obtain ⟨e, he, rfl⟩ := Option.map_eq_some_iff.1 hy
    have hsame : e.1.sameKey k = true := by simpa using List.find?_some he
    rw [← Entries.find?_congr hsame] at hx hz
    exact h e (List.mem_of_find?_eq_some he) x z hx hz keys hbelow

/-- The middle layer puts a mapping over a number, a null where the first layer has nothing, and a
port over a port. -/
theorem merge_assoc_layered :
    let a : Value := .mapping [(.string "db", .mapping [(.string "port", .number (.int 1))]),
      (.string "log", .number (.int 3))]
    let b : Value := .mapping [(.string "cache", .null),
      (.string "log", .mapping [(.string "level", .string "info")]),
      (.string "db", .mapping [(.string "port", .number (.int 2))])]
    let c : Value := .mapping [(.string "log", .mapping [(.string "file", .string "f")]),
      (.string "cache", .mapping [(.string "size", .number (.int 4))]),
      (.string "db", .mapping [(.string "host", .string "h")])]
    b.Keyed ∧ c.Keyed ∧ (∀ keys, ¬ ClobberedAt a b c keys) ∧
    (a.merge b).merge c = a.merge (b.merge c) ∧
    a.merge (b.merge c) = .mapping [
      (.string "db", .mapping [(.string "port", .number (.int 2)), (.string "host", .string "h")]),
      (.string "log", .mapping [(.string "level", .string "info"), (.string "file", .string "f")]),
      (.string "cache", .mapping [(.string "size", .number (.int 4))])] := by
  intro a b c
  have hb : b.Keyed := by decide
  have hc : c.Keyed := by decide
  have h : ∀ keys, ¬ ClobberedAt a b c keys := by
    refine not_clobberedAt_mapping ?_
    simp only [List.forall_mem_cons]
    refine ⟨?_, ?_, ?_, by simp⟩
    · rintro x z ⟨⟩
    · rintro x z ⟨⟩ - keys
      exact not_clobberedAt_of_not_mapping rfl _ _ keys
    · rintro x z ⟨⟩ ⟨⟩ keys
      refine not_clobberedAt_mapping ?_ keys
      simp only [List.forall_mem_cons]
      exact ⟨by rintro x z - ⟨⟩, by simp⟩
  exact ⟨hb, hc, h, merge_assoc hb hc h, by decide +kernel⟩

/-- An overlay that says nothing new about any of its keys changes nothing. -/
theorem mergeEntries_of_absorbed {nulls : NullPolicy} {bs os : Entries}
    (h : ∀ k v, (k, v) ∈ os → overlaid nulls (Entries.find? bs k) v = Entries.find? bs k) :
    mergeEntries nulls bs os = bs := by
  induction os with
  | nil => rw [mergeEntries]
  | cons e os ih =>
    obtain ⟨k, v⟩ := e
    rw [mergeEntries_cons, h k v List.mem_cons_self]
    cases hk : Entries.find? bs k with
    | none => exact ih fun l w hl => h l w (List.mem_cons_of_mem _ hl)
    | some w =>
      dsimp only
      rw [Entries.insert_of_find?_some hk]
      exact ih fun l w hl => h l w (List.mem_cons_of_mem _ hl)

theorem mergeWith_mapping (nulls : NullPolicy) (bs os : Entries) :
    mergeWith nulls (mapping bs) (.mapping os) = .mapping (mergeEntries nulls bs os) := by
  rw [mergeWith]

/-- A merge is the overlay, unless both values are mappings or the overlay is a null that is left
out. -/
theorem mergeWith_cases (nulls : NullPolicy) (b o : Value) :
    mergeWith nulls b o = o ∨ (o = .null ∧ mergeWith nulls b o = b) ∨
      ∃ bs os, b = .mapping bs ∧ o = .mapping os := by
  cases o with
  | mapping os =>
    cases b with
    | mapping bs => exact Or.inr (Or.inr ⟨bs, os, rfl, rfl⟩)
    | _ => exact Or.inl (by rw [mergeWith]; simp)
  | null =>
    rw [mergeWith]
    split
    · exact Or.inr (Or.inl ⟨rfl, rfl⟩)
    · exact Or.inl rfl
  | _ => exact Or.inl (by rw [mergeWith] <;> simp)

/-- A value over itself is the value. -/
theorem mergeWith_self (nulls : NullPolicy) {v : Value} (hv : v.Keyed) :
    mergeWith nulls v v = v := by
  induction v using lookup_induction with
  | other v hm =>
    rcases mergeWith_cases nulls v v with h | ⟨-, h⟩ | ⟨bs, -, rfl, -⟩
    · exact h
    · exact h
    · cases hm
  | mapping es ih =>
    rw [mergeWith_mapping]
    congr 1
    refine mergeEntries_of_absorbed fun k v hmem => ?_
    have hfind := (keyed_mapping.1 hv).1.find?_of_mem hmem
    rw [hfind, overlaid, ih k v hfind (hv.of_find? hfind)]

/-- What an overlay's value has made of the one below it, it leaves as it is. -/
theorem overlaid_overlaid {nulls : NullPolicy} {below : Option Value} {v : Value}
    (hself : mergeWith nulls v v = v)
    (h : ∀ w, mergeWith nulls (mergeWith nulls w v) v = mergeWith nulls w v) :
    overlaid nulls (overlaid nulls below v) v = overlaid nulls below v := by
  cases below with
  | some w => rw [overlaid, overlaid, h]
  | none =>
    by_cases hn : nulls = .keepBase ∧ v.isNull = true
    · simp only [overlaid, hn, and_self, if_true]
    · simp only [overlaid, if_neg hn, hself]

/-- **A layer that is merged again changes nothing.** For both meanings of a null, a layer over what
it has been laid over before leaves all as it is, the order of the keys included, and so does a
layer over itself. -/
theorem mergeWith_absorbs (nulls : NullPolicy) (a : Value) {b : Value} (hb : b.Keyed) :
    mergeWith nulls (mergeWith nulls a b) b = mergeWith nulls a b ∧ mergeWith nulls b b = b := by
  refine ⟨?_, mergeWith_self nulls hb⟩
  induction b using lookup_induction generalizing a with
  | other b hm =>
    rcases mergeWith_cases nulls a b with h | ⟨rfl, h⟩ | ⟨-, os, -, rfl⟩
    · rw [h, mergeWith_self nulls hb]
    · rw [h, h]
    · cases hm
  | mapping bs ih =>
    rcases mergeWith_cases nulls a (mapping bs) with h | ⟨h, -⟩ | ⟨as, -, rfl, -⟩
    · rw [h, mergeWith_self nulls hb]
    · cases h
    · rw [mergeWith_mapping, mergeWith_mapping]
      congr 1
      refine mergeEntries_of_absorbed fun k v hmem => ?_
      have hdistinct := (keyed_mapping.1 hb).1
      have hfind := hdistinct.find?_of_mem hmem
      have hv := hb.of_find? hfind
      rw [find?_mergeEntries nulls hdistinct, hfind]
      exact overlaid_overlaid (mergeWith_self nulls hv) fun w => ih k v hfind w hv

/-- Nulls where the first layer has a value, a mapping or nothing, tagged and untagged, and a
mapping over a number. -/
theorem mergeWith_absorbs_nulls :
    let a : Value := .mapping [(.string "port", .number (.int 1)),
      (.string "db", .mapping [(.string "host", .string "h")]), (.string "log", .number (.int 3))]
    let b : Value := .mapping [(.string "log", .mapping [(.string "level", .null)]),
      (.string "port", .null), (.string "cache", .null), (.string "tag", .tagged "t" .null),
      (.string "db", .mapping [(.string "host", .tagged "t" .null), (.string "user", .null)])]
    b.Keyed ∧
    (mergeWith .keepBase (mergeWith .keepBase a b) b = mergeWith .keepBase a b ∧
      mergeWith .keepBase b b = b) ∧
    (mergeWith .replace (mergeWith .replace a b) b = mergeWith .replace a b ∧
      mergeWith .replace b b = b) ∧
    mergeWith .keepBase a b = .mapping [(.string "port", .number (.int 1)),
      (.string "db", .mapping [(.string "host", .tagged "t" .null)]),
      (.string "log", .mapping [(.string "level", .null)])] := by
  intro a b
  have hb : b.Keyed := by decide
  exact ⟨hb, mergeWith_absorbs .keepBase a hb, mergeWith_absorbs .replace a hb, by decide +kernel⟩

end Value
end LayeredConfig
