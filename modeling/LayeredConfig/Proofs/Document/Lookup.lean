import LayeredConfig.Document.Path
import LayeredConfig.Proofs.Document.Layers

/-!
# Reading past the string keys

A path of texts is read along the keys that have these texts, the first of them in each mapping.
Such a key can be a number or a boolean that stands in front of the string, and then the reading
goes on below another value than the one that lies along the string keys.
-/
namespace LayeredConfig.Value

/-- The segments of a path as keys. -/
def stringKeys (segments : List Text) : List Value := segments.map .string

/-- Where the reading of a path leaves the string keys: the value of the first number or boolean
that is taken for a segment, and the segments that are left below it. -/
def detour? (v : Value) : (segments : List Text) → Option (Value × List Text)
  | [] => none
  | s :: rest =>
    match v with
    | .mapping es =>
      match entryNamed? es s with
      | some (.string _, c) => c.detour? rest
      | some (_, c) => some (c, rest)
      | none => none
    | _ => none

theorem sameKey_string {k : Value} {s : Text} : k.sameKey (.string s) = true ↔ k = .string s := by
  simp only [sameKey, decide_eq_true_eq]
  cases k <;> simp [canonical]

theorem matchesSegment_string {s t : Text} : (string t).matchesSegment s = true ↔ t = s := by
  simp [matchesSegment]

theorem entryNamed?_cons (e : Value × Value) (es : Entries) (s : Text) :
    entryNamed? (e :: es) s = if e.1.matchesSegment s then some e else entryNamed? es s := by
  cases h : e.1.matchesSegment s <;> simp [entryNamed?, h]

theorem matchesSegment_of_entryNamed? {es : Entries} {s : Text} {e : Value × Value}
    (h : entryNamed? es s = some e) : e.1.matchesSegment s = true := by
  unfold entryNamed? at h
  have hm := List.find?_some h
  exact hm

/-- A key that does not have the text of a segment is not the string key. -/
theorem not_sameKey_of_not_matches {k : Value} {s : Text} (h : ¬ k.matchesSegment s = true) :
    ¬ k.sameKey (.string s) = true := by
  intro hk
  obtain rfl := sameKey_string.1 hk
  exact h (matchesSegment_string.2 rfl)

/-- Where a mapping has a string key, the text of the key names an entry: that one, or another one
with a number or a boolean for its key. -/
theorem entryNamed?_of_find? {es : Entries} {s : Text} {x : Value}
    (h : Entries.find? es (.string s) = some x) :
    ∃ e, entryNamed? es s = some e ∧ (e.1 = .string s → e.2 = x) := by
  induction es with
  | nil => cases h
  | cons e es ih =>
    rw [Entries.find?_cons] at h
    rw [entryNamed?_cons]
    by_cases hm : e.1.matchesSegment s = true
    · rw [if_pos hm]
      refine ⟨e, rfl, fun hk => ?_⟩
      rw [if_pos (sameKey_string.2 hk)] at h
      exact Option.some.inj h
    · rw [if_neg (not_sameKey_of_not_matches hm)] at h
      rw [if_neg hm]
      exact ih h

theorem find?_of_entryNamed? {es : Entries} {s : Text} {x : Value}
    (h : entryNamed? es s = some (.string s, x)) : Entries.find? es (.string s) = some x := by
  induction es with
  | nil => cases h
  | cons e es ih =>
    rw [entryNamed?_cons] at h
    rw [Entries.find?_cons]
    by_cases hm : e.1.matchesSegment s = true
    · rw [if_pos hm] at h
      cases h
      rw [if_pos (sameKey_refl _)]
    · rw [if_neg hm] at h
      rw [if_neg (not_sameKey_of_not_matches hm)]
      exact ih h

/-- What is read at a path is what lies along the string keys, or what is found on the detour. -/
theorem get?_eq_of_atKeys? {v x : Value} {segments : List Text}
    (h : v.atKeys? (stringKeys segments) = some x) :
    v.get? segments = match v.detour? segments with
      | some (n, rest) => n.get? rest
      | none => some x := by
  induction segments generalizing v with
  | nil => exact h
  | cons s segments ih =>
    cases v with
    | mapping es =>
      obtain ⟨c, hc, h⟩ := Option.bind_eq_some_iff.1 h
      obtain ⟨⟨k, d⟩, he, hd⟩ := entryNamed?_of_find? hc
      have hmatch := matchesSegment_of_entryNamed? he
      simp only [get?, child?, detour?, he, Option.map_some, Option.bind_some]
      cases k with
      | string t =>
        obtain rfl := matchesSegment_string.1 hmatch
        obtain rfl := hd rfl
        exact ih h
      | _ => rfl
    | _ => cases h

theorem get?_eq_some_iff {v x : Value} {segments : List Text}
    (h : v.atKeys? (stringKeys segments) = some x) :
    v.get? segments = some x ↔
      ∀ n rest, v.detour? segments = some (n, rest) → n.get? rest = some x := by
  rw [get?_eq_of_atKeys? h]
  cases v.detour? segments with
  | none => simp
  | some d =>
    obtain ⟨n, rest⟩ := d
    constructor
    · rintro hn _ _ ⟨⟩
      exact hn
    · exact fun hn => hn n rest rfl

/-- A detour begins in a mapping along the string keys, at a number or a boolean that has the text
of the next segment. -/
theorem detour?_eq_some {v n : Value} {segments rest : List Text}
    (h : v.detour? segments = some (n, rest)) :
    ∃ before s es k, segments = before ++ s :: rest ∧
      v.atKeys? (stringKeys before) = some (.mapping es) ∧ (k, n) ∈ es ∧
      k.matchesSegment s = true ∧ ∀ t, k ≠ .string t := by
  induction segments generalizing v with
  | nil => cases h
  | cons s segments ih =>
    cases v with
    | mapping es =>
      rw [detour?] at h
      split at h
      · next t c he =>
        obtain rfl := matchesSegment_string.1 (matchesSegment_of_entryNamed? he)
        obtain ⟨before, s, fs, k, rfl, hat, hk⟩ := ih h
        refine ⟨t :: before, s, fs, k, rfl, ?_, hk⟩
        exact (congrArg (Option.bind · _) (find?_of_entryNamed? he)).trans hat
      · next k c hk he =>
        cases h
        exact ⟨[], s, es, k, rfl, rfl, List.mem_of_find?_eq_some he,
          matchesSegment_of_entryNamed? he, fun t ht => hk t ht⟩
      · cases h
    | _ => cases h

theorem nest_keyed {v : Value} (h : v.Keyed) (segments : List Text) : (nest segments v).Keyed := by
  induction segments with
  | nil => exact h
  | cons s segments ih => exact keyed_single ih

theorem find?_single (s : Text) (v k : Value) :
    Entries.find? [(.string s, v)] k = if k = .string s then some v else none := by
  rw [Entries.find?_cons, sameKey_comm, Entries.find?_nil]
  by_cases h : k = .string s
  · rw [if_pos h, if_pos (sameKey_string.2 h)]
  · rw [if_neg h, if_neg fun hk => h (sameKey_string.1 hk)]

/-- At and below the segments, a nested value is what it is. -/
theorem atKeys?_nest_append (segments : List Text) (v : Value) (keys : List Value) :
    (nest segments v).atKeys? (stringKeys segments ++ keys) = v.atKeys? keys := by
  induction segments with
  | nil => rfl
  | cons s segments ih =>
    have hfind : Entries.find? [(.string s, nest segments v)] (.string s) =
        some (nest segments v) := by rw [find?_single, if_pos rfl]
    exact (congrArg (Option.bind · _) hfind).trans ih

theorem atKeys?_nest (segments : List Text) (v : Value) :
    (nest segments v).atKeys? (stringKeys segments) = some v := by
  have h := atKeys?_nest_append segments v []
  rwa [List.append_nil] at h

end LayeredConfig.Value
