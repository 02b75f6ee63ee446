import LayeredConfig.Document.Merge

/-!
# Mappings by their keys

What `find?` answers after an entry has been inserted, erased or merged, and the values in which
no mapping has a key twice. Only in these does an overlay say one thing about each of its keys.
-/
namespace LayeredConfig

namespace Value

theorem sameKey_left {a b : Value} (h : a.sameKey b = true) (c : Value) :
    a.sameKey c = b.sameKey c := by
  rw [Bool.eq_iff_iff]
  exact ⟨fun hc => sameKey_trans (sameKey_symm h) hc, fun hc => sameKey_trans h hc⟩

theorem sameKey_comm (a b : Value) : a.sameKey b = b.sameKey a := by
  rw [Bool.eq_iff_iff]
  exact ⟨sameKey_symm, sameKey_symm⟩

theorem sameKey_right {a b : Value} (h : a.sameKey b = true) (c : Value) :
    c.sameKey a = c.sameKey b := by
  rw [sameKey_comm c a, sameKey_comm c b, sameKey_left h]

end Value

namespace Entries

@[simp] theorem find?_nil (k : Value) : find? [] k = none := rfl

theorem find?_cons (e : Value × Value) (es : Entries) (k : Value) :
    find? (e :: es) k = if e.1.sameKey k then some e.2 else find? es k := by
  cases h : e.1.sameKey k <;> simp [find?, h]

/-- A key that is the same finds the same value. -/
theorem find?_congr {k l : Value} (h : k.sameKey l = true) (es : Entries) :
    find? es k = find? es l := by
  induction es with
  | nil => rfl
  | cons e es ih => rw [find?_cons, find?_cons, Value.sameKey_right h, ih]

theorem mem_of_find? {es : Entries} {k v : Value} (h : find? es k = some v) :
    ∃ e ∈ es, e.2 = v := by
  obtain ⟨e, he, rfl⟩ := Option.map_eq_some_iff.1 h
  exact ⟨e, List.mem_of_find?_eq_some he, rfl⟩

/-- Insertion changes what is found under one key. -/
theorem find?_insert (es : Entries) (k v l : Value) :
    find? (insert es k v) l = if k.sameKey l then some v else find? es l := by
  induction es with
  | nil => rw [insert, find?_cons]
  | cons e es ih =>
    rw [insert]
    by_cases hek : e.1.sameKey k = true
    · rw [if_pos hek, find?_cons, find?_cons, ← Value.sameKey_left hek l]
      split <;> rfl
    · rw [if_neg hek, find?_cons, find?_cons, ih]
      by_cases hel : e.1.sameKey l = true
      · have hkl : ¬ k.sameKey l = true :=
          fun hkl => hek (Value.sameKey_trans hel (Value.sameKey_symm hkl))
        rw [if_pos hel, if_neg hkl, if_pos hel]
      · rw [if_neg hel, if_neg hel]

theorem has_eq_isSome (es : Entries) (k : Value) : has es k = (find? es k).isSome := by
  induction es with
  | nil => rfl
  | cons e es ih =>
    have hc : has (e :: es) k = (e.1.sameKey k || has es k) := List.any_cons
    rw [hc, ih, find?_cons]
    cases e.1.sameKey k <;> rfl

/-- No two entries have the same key. -/
def Distinct (es : Entries) : Prop := es.Pairwise fun a b => a.1.sameKey b.1 = false

theorem distinct_cons {e : Value × Value} {es : Entries} :
    Distinct (e :: es) ↔ find? es e.1 = none ∧ Distinct es := by
  have hfind : find? es e.1 = none ↔ ∀ f ∈ es, e.1.sameKey f.1 = false := by
    simp only [find?, Option.map_eq_none_iff, List.find?_eq_none, Bool.not_eq_true,
      Value.sameKey_comm _ e.1]
  rw [hfind]
  exact List.pairwise_cons

theorem Distinct.erase {es : Entries} (h : Distinct es) (k : Value) : Distinct (erase es k) :=
  List.Pairwise.sublist (List.eraseP_sublist) h

theorem mem_of_mem_erase {es : Entries} {k : Value} {e : Value × Value} (h : e ∈ erase es k) :
    e ∈ es := List.mem_of_mem_eraseP h

/-- A key that is not there is erased by doing nothing. -/
theorem erase_of_find?_none {es : Entries} {k : Value} (h : find? es k = none) :
    erase es k = es := by
  simp only [find?, Option.map_eq_none_iff, List.find?_eq_none] at h
  exact List.eraseP_of_forall_not h

/-- A new key is inserted at the end. -/
theorem insert_of_find?_none {es : Entries} {k : Value} (h : find? es k = none) (v : Value) :
    insert es k v = es ++ [(k, v)] := by
  induction es with
  | nil => rfl
  | cons e es ih =>
    rw [find?_cons] at h
    split at h
    · simp at h
    · next hek => rw [insert, if_neg hek, ih h, List.cons_append]

theorem Distinct.insert {es : Entries} (h : Distinct es) (k v : Value) :
    Distinct (insert es k v) := by
  induction es with
  | nil => exact List.pairwise_singleton _ _
  | cons e es ih =>
    obtain ⟨he, h⟩ := distinct_cons.1 h
    rw [Entries.insert]
    split
    · exact distinct_cons.2 ⟨he, h⟩
    · next hek =>
      refine distinct_cons.2 ⟨?_, ih h⟩
      rw [find?_insert, Value.sameKey_comm, if_neg hek, he]

end Entries

namespace Value

mutual
/-- No mapping anywhere in a value has a key twice. -/
def Keyed : Value → Prop
  | .sequence items => KeyedItems items
  | .mapping es => Entries.Distinct es ∧ KeyedEntries es
  | .tagged _ v => Keyed v
  | _ => True

def KeyedItems : List Value → Prop
  | [] => True
  | v :: rest => Keyed v ∧ KeyedItems rest

def KeyedEntries : List (Value × Value) → Prop
  | [] => True
  | (k, v) :: rest => Keyed k ∧ Keyed v ∧ KeyedEntries rest
end

mutual
def decKeyed : (v : Value) → Decidable v.Keyed
  | .sequence items => decKeyedItems items
  | .mapping es =>
    @instDecidableAnd _ _ (inferInstanceAs (Decidable (List.Pairwise _ es))) (decKeyedEntries es)
  | .tagged _ v => decKeyed v
  | .null | .bool _ | .number _ | .string _ => .isTrue trivial

def decKeyedItems : (items : List Value) → Decidable (KeyedItems items)
  | [] => .isTrue trivial
  | v :: rest => @instDecidableAnd _ _ (decKeyed v) (decKeyedItems rest)

def decKeyedEntries : (es : List (Value × Value)) → Decidable (KeyedEntries es)
  | [] => .isTrue trivial
  | (k, v) :: rest =>
    @instDecidableAnd _ _ (decKeyed k) (@instDecidableAnd _ _ (decKeyed v) (decKeyedEntries rest))
end

instance (v : Value) : Decidable v.Keyed := v.decKeyed

theorem keyedItems_iff {items : List Value} : KeyedItems items ↔ ∀ v ∈ items, Keyed v := by
  induction items with
  | nil => simp [KeyedItems]
  | cons v rest ih => rw [KeyedItems, ih, List.forall_mem_cons]

theorem keyedEntries_iff {es : Entries} :
    KeyedEntries es ↔ ∀ e ∈ es, Keyed e.1 ∧ Keyed e.2 := by
  induction es with
  | nil => simp [KeyedEntries]
  | cons e rest ih => rw [KeyedEntries, ih, List.forall_mem_cons, and_assoc]

theorem keyed_mapping {es : Entries} :
    Keyed (.mapping es) ↔ Entries.Distinct es ∧ ∀ e ∈ es, Keyed e.1 ∧ Keyed e.2 := by
  rw [Keyed, keyedEntries_iff]

theorem keyed_empty : (mapping []).Keyed := keyed_mapping.2 ⟨List.Pairwise.nil, by simp⟩

theorem Keyed.of_find? {es : Entries} (h : Keyed (.mapping es)) {k v : Value}
    (hk : Entries.find? es k = some v) : Keyed v := by
  obtain ⟨e, he, rfl⟩ := Entries.mem_of_find? hk
  exact ((keyed_mapping.1 h).2 e he).2

theorem Keyed.erase {es : Entries} (h : Keyed (.mapping es)) (k : Value) :
    Keyed (.mapping (Entries.erase es k)) := by
  obtain ⟨hd, he⟩ := keyed_mapping.1 h
  exact keyed_mapping.2 ⟨hd.erase k, fun e hm => he e (Entries.mem_of_mem_erase hm)⟩

theorem keyed_single {key : Text} {v : Value} (h : Keyed v) : Keyed (single key v) := by
  refine keyed_mapping.2 ⟨List.pairwise_singleton _ _, fun e he => ?_⟩
  obtain rfl := List.mem_singleton.1 he
  exact ⟨trivial, h⟩

/-- What an overlay's value makes of the one below it, if there is one. -/
def overlaid (nulls : NullPolicy) (below : Option Value) (v : Value) : Option Value :=
  match below with
  | some b => some (mergeWith nulls b v)
  | none => if nulls = .keepBase ∧ v.isNull then none else some v

theorem overlaid_eq_none {nulls : NullPolicy} {below : Option Value} {v : Value}
    (h : overlaid nulls below v = none) : below = none := by
  cases below with
  | none => rfl
  | some b => simp [overlaid] at h

theorem mergeEntries_cons (nulls : NullPolicy) (bs os : Entries) (k v : Value) :
    mergeEntries nulls bs ((k, v) :: os) =
      mergeEntries nulls (match overlaid nulls (Entries.find? bs k) v with
        | some w => Entries.insert bs k w
        | none => bs) os := by
  rw [mergeEntries]
  cases hb : Entries.find? bs k with
  | some b => simp only [overlaid]
  | none =>
    simp only [overlaid]
    by_cases hn : nulls = .keepBase ∧ v.isNull = true
    · simp only [hn, and_self, if_true]
    · rw [if_neg hn, if_neg hn]

/-- A merged mapping has at each key what the overlay makes of the base's value there. -/
theorem find?_mergeEntries (nulls : NullPolicy) {os : Entries} (ho : Entries.Distinct os)
    (bs : Entries) (k : Value) :
    Entries.find? (mergeEntries nulls bs os) k =
      match Entries.find? os k with
      | some v => overlaid nulls (Entries.find? bs k) v
      | none => Entries.find? bs k := by
  induction os generalizing bs with
  | nil => rw [mergeEntries]; rfl
  | cons e os ih =>
    obtain ⟨l, v⟩ := e
    obtain ⟨hl, ho⟩ := Entries.distinct_cons.1 ho
    rw [mergeEntries_cons, ih ho, Entries.find?_cons]
    by_cases hlk : l.sameKey k = true
    · -- The rest of the overlay does not have the key again.
      rw [if_pos hlk, ← Entries.find?_congr hlk os, hl, ← Entries.find?_congr hlk bs]
      simp only [← Entries.find?_congr hlk]
      cases hw : overlaid nulls (Entries.find? bs l) v with
      | some w => simp only [Entries.find?_insert, sameKey_refl, if_true]
      | none => exact overlaid_eq_none hw
    · rw [if_neg hlk]
      have hkeep : ∀ w, Entries.find? (Entries.insert bs l w) k = Entries.find? bs k :=
        fun w => by rw [Entries.find?_insert, if_neg hlk]
      cases overlaid nulls (Entries.find? bs l) v with
      | some w => simp only [hkeep]
      | none => rfl

theorem Keyed.insert {es : Entries} (h : Keyed (.mapping es)) {k v : Value} (hk : Keyed k)
    (hv : Keyed v) : Keyed (.mapping (Entries.insert es k v)) := by
  obtain ⟨hd, he⟩ := keyed_mapping.1 h
  refine keyed_mapping.2 ⟨hd.insert k v, ?_⟩
  clear h hd
  induction es with
  | nil =>
    intro e hmem
    obtain rfl := List.mem_singleton.1 hmem
    exact ⟨hk, hv⟩
  | cons f es ih =>
    obtain ⟨hf, he⟩ := List.forall_mem_cons.1 he
    rw [Entries.insert]
    split
    · exact List.forall_mem_cons.2 ⟨⟨hf.1, hv⟩, he⟩
    · exact List.forall_mem_cons.2 ⟨hf, ih he⟩

mutual
/-- Layers without a key twice are merged into one without a key twice. -/
theorem mergeWith_keyed (nulls : NullPolicy) {b : Value} (hb : b.Keyed) :
    (o : Value) → o.Keyed → (mergeWith nulls b o).Keyed
  | .mapping os, ho => by
    rw [Keyed] at ho
    cases b with
    | mapping bs =>
      rw [mergeWith]
      exact mergeEntries_keyed nulls hb os ho.2
    | _ =>
      rw [mergeWith] <;> first | exact ho | simp
  | .null, _ => by
    rw [mergeWith]
    split
    · exact hb
    · trivial
  | .bool _, ho | .number _, ho | .string _, ho | .sequence _, ho | .tagged .., ho => by
    rw [mergeWith] <;> first | exact ho | simp

theorem mergeEntries_keyed (nulls : NullPolicy) {bs : Entries} (hb : Keyed (.mapping bs)) :
    (os : List (Value × Value)) → KeyedEntries os → Keyed (.mapping (mergeEntries nulls bs os))
  | [], _ => by rwa [mergeEntries]
  | (k, v) :: os, ho => by
    rw [KeyedEntries] at ho
    obtain ⟨hk, hv, ho⟩ := ho
    rw [mergeEntries]
    refine mergeEntries_keyed nulls ?_ os ho
    cases hf : Entries.find? bs k with
    | some w => exact hb.insert hk (mergeWith_keyed nulls (hb.of_find? hf) v hv)
    | none =>
      dsimp only
      split
      · exact hb
      · exact hb.insert hk hv
end

theorem Keyed.merge {b o : Value} (hb : b.Keyed) (ho : o.Keyed) : (b.merge o).Keyed :=
  mergeWith_keyed .replace hb o ho

end Value
end LayeredConfig
