import LayeredConfig.Proofs.Document.Lookup

/-!
# Places in a document

A path that can be read leads to one place, and a document can have another value there. What that
changes is said step by step: an entry of a mapping or an item of a sequence has another value, its
neighbours are the same and stand where they stood.
-/
namespace LayeredConfig

/-- Whether keys are distinct does not depend on their values. -/
theorem Entries.Distinct.of_keys {es fs : Entries} (h : es.Distinct)
    (hkeys : es.map Prod.fst = fs.map Prod.fst) : fs.Distinct := by
  have hd : (es.map Prod.fst).Pairwise fun a b => a.sameKey b = false := List.pairwise_map.2 h
  rw [hkeys] at hd
  exact List.pairwise_map.1 hd

namespace Value

variable {v w : Value} {s : Text}

/-- The node `after` is the node `before` with `c'` for the child `c` that a segment names. -/
inductive Swapped (s : Text) (c c' : Value) : (before after : Value) → Prop
  | entry {front back : Entries} {k : Value} :
    (∀ e ∈ front, e.1.matchesSegment s = false) → k.matchesSegment s = true →
    Swapped s c c' (.mapping (front ++ (k, c) :: back)) (.mapping (front ++ (k, c') :: back))
  | item {front back : List Value} : Text.index? s = some front.length →
    Swapped s c c' (.sequence (front ++ c :: back)) (.sequence (front ++ c' :: back))

/-- The document `after` is the document `before` with `new` for the node `old` at a path. -/
inductive ReplacedAt (old new : Value) : (path : List Text) → (before after : Value) → Prop
  | here : ReplacedAt old new [] old new
  | inside {s : Text} {path : List Text} {c c' before after : Value} :
    Swapped s c c' before after → ReplacedAt old new path c c' →
    ReplacedAt old new (s :: path) before after

theorem entryNamed?_eq_some {es : Entries} {e : Value × Value} :
    entryNamed? es s = some e ↔
      ∃ front back, es = front ++ e :: back ∧ e.1.matchesSegment s = true ∧
        ∀ f ∈ front, f.1.matchesSegment s = false := by
  rw [entryNamed?, List.find?_eq_some_iff_append]
  constructor
  · rintro ⟨hm, front, back, rfl, hfront⟩
    exact ⟨front, back, rfl, hm, fun f hf => by simpa using hfront f hf⟩
  · rintro ⟨front, back, rfl, hm, hfront⟩
    exact ⟨hm, front, back, rfl, fun f hf => by simpa using hfront f hf⟩

theorem replaceEntry_append {front back : Entries} {k c c' : Value}
    (hfront : ∀ e ∈ front, e.1.matchesSegment s = false) (hk : k.matchesSegment s = true) :
    replaceEntry s c' (front ++ (k, c) :: back) = front ++ (k, c') :: back := by
  induction front with
  | nil => exact if_pos hk
  | cons e front ih =>
    obtain ⟨he, hfront⟩ := List.forall_mem_cons.1 hfront
    have hne : ¬ e.1.matchesSegment s = true := by simp [he]
    rw [List.cons_append, replaceEntry, if_neg hne, ih hfront, List.cons_append]

theorem child?_eq_slot? (v : Value) (s : Text) : v.child? s = (v.slot? s).map (·.1) := by
  cases v with
  | mapping es => simp only [child?, slot?, Option.map_map]; rfl
  | sequence items =>
    simp only [child?, slot?, Option.bind_eq_bind]
    cases Text.index? s with
    | none => rfl
    | some i =>
      simp only [Option.bind_some]
      cases items[i]? <;> rfl
  | _ => rfl

/-- Whatever is put in the place that a segment names stands there instead of the child. -/
theorem swapped_of_slot? {c : Value} {put : Value → Value} (h : v.slot? s = some (c, put))
    (c' : Value) : Swapped s c c' v (put c') := by
  cases v with
  | mapping es =>
    obtain ⟨⟨k, x⟩, he, hput⟩ := Option.map_eq_some_iff.1 h
    cases hput
    obtain ⟨front, back, rfl, hk, hfront⟩ := entryNamed?_eq_some.1 he
    dsimp only
    rw [replaceEntry_append hfront hk]
    exact .entry hfront hk
  | sequence items =>
    obtain ⟨i, hi, h⟩ := Option.bind_eq_some_iff.1 h
    obtain ⟨x, hx, hput⟩ := Option.bind_eq_some_iff.1 h
    cases hput
    obtain ⟨hlt, rfl⟩ := List.getElem?_eq_some_iff.1 hx
    have hitems : items = items.take i ++ items[i] :: items.drop (i + 1) := by
      rw [← List.drop_eq_getElem_cons hlt, List.take_append_drop]
    have hset : items.set i c' = items.take i ++ c' :: items.drop (i + 1) :=
      List.set_eq_take_append_cons_drop.trans (if_pos hlt)
    have hlength : (items.take i).length = i := List.length_take_of_le (Nat.le_of_lt hlt)
    have hswap : Swapped s items[i] c' (.sequence (items.take i ++ items[i] :: items.drop (i + 1)))
        (.sequence (items.take i ++ c' :: items.drop (i + 1))) :=
      .item (by rw [hlength]; exact hi)
    dsimp only
    rwa [← hitems, ← hset] at hswap
  | _ => cases h

namespace Swapped

variable {c c' : Value}

theorem slot? (h : Swapped s c c' v w) : ∃ put, v.slot? s = some (c, put) ∧ w = put c' := by
  cases h with
  | @entry front back k hfront hk =>
    have he : entryNamed? (front ++ (k, c) :: back) s = some (k, c) :=
      entryNamed?_eq_some.2 ⟨front, back, rfl, hk, hfront⟩
    refine ⟨_, by rw [Value.slot?, he]; rfl, ?_⟩
    exact congrArg Value.mapping (replaceEntry_append hfront hk).symm
  | @item front back hi =>
    have hget : (front ++ c :: back)[front.length]? = some c := by simp
    refine ⟨fun x => .sequence ((front ++ c :: back).set front.length x), ?_, ?_⟩
    · rw [Value.slot?, hi]
      simp only [Option.bind_eq_bind, Option.bind_some, hget]
    · simp

theorem child? (h : Swapped s c c' v w) : v.child? s = some c := by
  obtain ⟨put, hput, -⟩ := h.slot?
  rw [child?_eq_slot?, hput, Option.map_some]

theorem symm (h : Swapped s c c' v w) : Swapped s c' c w v := by
  cases h with
  | entry hfront hk => exact .entry hfront hk
  | item hi => exact .item hi

theorem eq_of_same (h : Swapped s c c v w) : v = w := by
  cases h <;> rfl

theorem child_keyed (h : Swapped s c c' v w) (hv : v.Keyed) : c.Keyed := by
  cases h with
  | @entry front back k _ _ =>
    have hmem : (k, c) ∈ front ++ (k, c) :: back := by simp
    exact ((keyed_mapping.1 hv).2 _ hmem).2
  | item _ => exact keyedItems_iff.1 hv c (by simp)

/-- Another value leaves the keys as they are. -/
theorem keyed (h : Swapped s c c' v w) (hv : v.Keyed) (hc : c'.Keyed) : w.Keyed := by
  cases h with
  | @entry front back k _ _ =>
    obtain ⟨hd, hall⟩ := keyed_mapping.1 hv
    have hkeys : (front ++ (k, c) :: back).map Prod.fst =
        (front ++ (k, c') :: back).map Prod.fst := by
      simp
    refine keyed_mapping.2 ⟨hd.of_keys hkeys, fun e he => ?_⟩
    rcases List.mem_append.1 he with he | he
    · exact hall e (List.mem_append_left _ he)
    · rcases List.mem_cons.1 he with rfl | he
      · exact ⟨(hall (k, c) (by simp)).1, hc⟩
      · exact hall e (List.mem_append_right _ (List.mem_cons_of_mem _ he))
  | @item front back _ =>
    have hall := keyedItems_iff.1 hv
    refine keyedItems_iff.2 fun x hx => ?_
    rcases List.mem_append.1 hx with hx | hx
    · exact hall x (List.mem_append_left _ hx)
    · rcases List.mem_cons.1 hx with rfl | hx
      · exact hc
      · exact hall x (List.mem_append_right _ (List.mem_cons_of_mem _ hx))

end Swapped

/-- A child can be swapped for any other value. -/
theorem exists_swapped {c : Value} (h : v.child? s = some c) (c' : Value) :
    ∃ w, Swapped s c c' v w := by
  rw [child?_eq_slot?] at h
  obtain ⟨⟨_, put⟩, hput, rfl⟩ := Option.map_eq_some_iff.1 h
  exact ⟨put c', swapped_of_slot? hput c'⟩

theorem get?_append (v : Value) (front back : List Text) :
    v.get? (front ++ back) = (v.get? front).bind (·.get? back) := by
  induction front generalizing v with
  | nil => rfl
  | cons s front ih =>
    rw [List.cons_append, get?, get?]
    cases v.child? s with
    | none => rfl
    | some c => exact ih c

theorem get?_concat (v : Value) (front : List Text) (s : Text) :
    v.get? (front ++ [s]) = (v.get? front).bind (·.child? s) := by
  rw [get?_append]
  congr 1
  funext n
  exact Option.bind_fun_some (n.child? s)

namespace ReplacedAt

variable {old new : Value} {path : List Text}

theorem get?_before (h : ReplacedAt old new path v w) : v.get? path = some old := by
  induction h with
  | here => rfl
  | inside hs _ ih => rw [get?, hs.child?, Option.bind_some, ih]

theorem symm (h : ReplacedAt old new path v w) : ReplacedAt new old path w v := by
  induction h with
  | here => exact .here
  | inside hs _ ih => exact .inside hs.symm ih

theorem get?_after (h : ReplacedAt old new path v w) : w.get? path = some new := h.symm.get?_before

theorem eq_of_same (h : ReplacedAt old old path v w) : v = w := by
  induction h with
  | here => rfl
  | inside hs _ ih =>
    rw [← ih] at hs
    exact hs.eq_of_same

theorem keyed (h : ReplacedAt old new path v w) (hv : v.Keyed) (hn : old.Keyed → new.Keyed) :
    w.Keyed := by
  induction h with
  | here => exact hn hv
  | inside hs _ ih => exact hs.keyed hv (ih (hs.child_keyed hv))

end ReplacedAt

/-- A replacement within a node at a path replaces that node. -/
theorem ReplacedAt.within {old new n n' : Value} {front back : List Text}
    (h : ReplacedAt n n' front v w) (hn : ReplacedAt old new back n n') :
    ReplacedAt old new (front ++ back) v w := by
  induction h with
  | here => exact hn
  | inside hs _ ih => exact .inside hs ih

end Value
end LayeredConfig
