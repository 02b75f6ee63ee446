import LayeredConfig.Proofs.Document.MergeLaws
import LayeredConfig.Proofs.Document.Setting

/-!
# Branches

A branch is a document that holds one value at the end of a path. Laying it over another document
sets the path there, where the way along the path is clear: it leads through mappings and nulls, and
nothing but the string keys is taken for its segments.
-/
namespace LayeredConfig

namespace Entries

/-- An entry of the key, behind entries of other keys, is the one that is found. -/
theorem find?_append {front back : Entries} {k l c : Value}
    (hfront : ∀ e ∈ front, ¬ e.1.sameKey k = true) (hk : l.sameKey k = true) :
    find? (front ++ (l, c) :: back) k = some c := by
  induction front with
  | nil => exact (find?_cons ..).trans (if_pos hk)
  | cons e front ih =>
    obtain ⟨he, hfront⟩ := List.forall_mem_cons.1 hfront
    rw [List.cons_append, find?_cons, if_neg he, ih hfront]

/-- It is given another value where it stands. -/
theorem insert_append {front back : Entries} {k l c : Value}
    (hfront : ∀ e ∈ front, ¬ e.1.sameKey k = true) (hk : l.sameKey k = true) (v : Value) :
    insert (front ++ (l, c) :: back) k v = front ++ (l, v) :: back := by
  induction front with
  | nil => exact insert_cons_of_same hk c back v
  | cons e front ih =>
    obtain ⟨he, hfront⟩ := List.forall_mem_cons.1 hfront
    rw [List.cons_append, insert_cons_of_not he, ih hfront, List.cons_append]

theorem mem_insert {es : Entries} {k v : Value} {e : Value × Value} (h : e ∈ insert es k v) :
    e.1 = k ∨ ∃ f ∈ es, e.1 = f.1 := by
  induction es with
  | nil =>
    obtain rfl := List.mem_singleton.1 h
    exact Or.inl rfl
  | cons f es ih =>
    rw [insert] at h
    split at h
    · rcases List.mem_cons.1 h with rfl | h
      · exact Or.inr ⟨f, List.mem_cons_self, rfl⟩
      · exact Or.inr ⟨e, List.mem_cons_of_mem _ h, rfl⟩
    · rcases List.mem_cons.1 h with rfl | h
      · exact Or.inr ⟨e, List.mem_cons_self, rfl⟩
      · rcases ih h with hk | ⟨g, hg, he⟩
        · exact Or.inl hk
        · exact Or.inr ⟨g, List.mem_cons_of_mem _ hg, he⟩

end Entries

namespace Value

open Entries (mergedAt mergedAt_of_some mergedAt_of_none)

variable {v n x y : Value} {path walked : List Text} {s : Text}

/-- A branch gives one key of a mapping another value. -/
theorem merge_single (es : Entries) (s : Text) (x : Value) :
    (mapping es).merge (single s x) =
      .mapping (Entries.insert es (.string s) (mergedAt es (.string s) x)) := by
  rw [single, merge_mapping_mapping, mergeEntries_replace_cons, mergeEntries]

/-- **A branch over two layers.** Merging the layers first makes no difference, if the middle one
has only mappings on the way to the end of the branch. -/
theorem merge_merge_nest {b : Value} (hb : b.Keyed) (hx : x.isMapping = false)
    (hway : ∀ front s back y, path = front ++ s :: back → b.atKeys? (stringKeys front) = some y →
      y.isMapping = true) (a : Value) :
    (a.merge b).merge (nest path x) = a.merge (b.merge (nest path x)) := by
  induction path generalizing a b with
  | nil =>
    have hx' : ∀ c : Value, c.merge (nest [] x) = x := fun c => merge_of_not_mapping hx c
    rw [hx', hx', merge_of_not_mapping hx]
  | cons s path ih =>
    obtain ⟨bs, rfl⟩ := isMapping_eq_true (hway [] s path b rfl rfl)
    show (a.merge (mapping bs)).merge (single s (nest path x)) =
      a.merge ((mapping bs).merge (single s (nest path x)))
    rw [merge_single]
    cases ha : a.isMapping with
    | false =>
      rw [merge_mapping_of_not_mapping ha, merge_mapping_of_not_mapping ha, merge_single]
    | true =>
      obtain ⟨as, rfl⟩ := isMapping_eq_true ha
      have hd := (keyed_mapping.1 hb).1
      rw [merge_mapping_mapping, merge_mapping_mapping, merge_single, mergeEntries_insert hd]
      congr 2
      -- Both sides are about the values under the first key of the branch.
      refine mergedAt_mergeEntries hd as _ _ fun z c _ hc => ?_
      refine ih (hb.of_find? hc) (fun front t back y hpath hy => ?_) z
      refine hway (s :: front) t back y (by rw [hpath]; rfl) ?_
      exact (congrArg (Option.bind · _) hc).trans hy

/-- What can be read of a path, its end apart, is a mapping or a null, and of the keys of such a
mapping none but a string has the text of the next segment. -/
def ClearWay (path : List Text) (v : Value) : Prop :=
  ∀ front s back n, path = front ++ s :: back → v.get? front = some n →
    n.isNull = true ∨ ∃ es, n = .mapping es ∧ ∀ e ∈ es, e.1.matchesSegment s = true →
      e.1 = .string s

theorem clearWay_nil (v : Value) : ClearWay [] v := by
  intro front s back n h
  simp at h

/-- There is nothing below a null. -/
theorem clearWay_of_null (h : v.isNull = true) (path : List Text) : ClearWay path v := by
  intro front s back n _ hn
  cases front with
  | nil =>
    cases hn
    exact Or.inl h
  | cons t front =>
    have hchild : v.child? t = none := by
      cases v with
      | mapping es => cases h
      | sequence items => cases h
      | _ => rfl
    rw [get?, hchild] at hn
    cases hn

/-- Where only the string key is taken for a segment, the segment leads to the value of that key. -/
theorem child?_of_strings {es : Entries}
    (h : ∀ e ∈ es, e.1.matchesSegment s = true → e.1 = .string s) :
    (mapping es).child? s = Entries.find? es (.string s) := by
  rw [child?]
  cases he : entryNamed? es s with
  | none => exact (find?_of_entryNamed?_none he).symm
  | some e =>
    obtain ⟨k, c⟩ := e
    obtain rfl := h (k, c) (List.mem_of_find?_eq_some he) (matchesSegment_of_entryNamed? he)
    exact (find?_of_entryNamed? he).symm

theorem clearWay_mapping {es : Entries} :
    ClearWay (s :: path) (.mapping es) ↔
      (∀ e ∈ es, e.1.matchesSegment s = true → e.1 = .string s) ∧
        ∀ c, Entries.find? es (.string s) = some c → ClearWay path c := by
  constructor
  · intro h
    have hstrings : ∀ e ∈ es, e.1.matchesSegment s = true → e.1 = .string s := by
      rcases h [] s path _ rfl rfl with hnull | ⟨fs, hfs, hall⟩
      · cases hnull
      · cases hfs
        exact hall
    refine ⟨hstrings, fun c hc front t back n hpath hn => ?_⟩
    refine h (s :: front) t back n (by rw [hpath]; rfl) ?_
    rw [get?, child?_of_strings hstrings, hc, Option.bind_some, hn]
  · rintro ⟨hstrings, hbelow⟩ front t back n hpath hn
    cases front with
    | nil =>
      obtain ⟨rfl, rfl⟩ := List.cons.inj hpath
      cases hn
      exact Or.inr ⟨es, rfl, hstrings⟩
    | cons u front =>
      rw [List.cons_append] at hpath
      obtain ⟨rfl, rfl⟩ := List.cons.inj hpath
      rw [get?, child?_of_strings hstrings] at hn
      obtain ⟨c, hc, hn⟩ := Option.bind_eq_some_iff.1 hn
      exact hbelow c hc front t back n rfl hn

theorem ClearWay.null_or_mapping (h : ClearWay (s :: path) v) :
    v.isNull = true ∨ ∃ es, v = .mapping es := by
  rcases h [] s path v rfl rfl with hnull | ⟨es, hes, -⟩
  · exact Or.inl hnull
  · exact Or.inr ⟨es, hes⟩

theorem merge_of_null (h : v.isNull = true) (o : Value) : v.merge o = o := by
  refine merge_of_base_not_mapping ?_ o
  cases v with
  | mapping es => cases h
  | _ => rfl

/-- Along a clear way, a swapped child is an entry laid over the mapping. -/
theorem merge_of_swapped {c w : Value} (hclear : ClearWay (s :: path) v)
    (h : Swapped s c (c.merge x) v w) : v.merge (single s x) = w := by
  cases h with
  | item _ =>
    rcases hclear.null_or_mapping with hnull | ⟨es, hes⟩
    · cases hnull
    · cases hes
  | @entry front back k hfront hk =>
    have hstrings := (clearWay_mapping.1 hclear).1
    obtain rfl := hstrings (k, c) (by simp) hk
    have hnot : ∀ e ∈ front, ¬ e.1.sameKey (.string s) = true :=
      fun e he => not_sameKey_of_not_matches (by simp [hfront e he])
    rw [merge_single, mergedAt_of_some (Entries.find?_append hnot (sameKey_refl _)),
      Entries.insert_append hnot (sameKey_refl _)]

/-- What a node on a clear way becomes with the rest of a branch over it, its document becomes with
the whole branch over it. -/
theorem merge_of_replacedAt {w : Value} {rest : List Text}
    (h : ReplacedAt n (n.merge (nest rest x)) walked v w) (hclear : ClearWay (walked ++ rest) v) :
    v.merge (nest (walked ++ rest) x) = w := by
  induction h with
  | here => rfl
  | inside hs hbelow ih =>
    have hc := hs.child?
    rcases hclear.null_or_mapping with hnull | ⟨es, rfl⟩
    · cases hs <;> cases hnull
    · obtain ⟨hstrings, hrest⟩ := clearWay_mapping.1 hclear
      rw [child?_of_strings hstrings] at hc
      rw [← ih (hrest _ hc)] at hs
      exact merge_of_swapped hclear hs

theorem merge_nest_opened {es : Entries} (h : n.opened = .mapping es) (hs : n.child? s = none)
    (path : List Text) (x : Value) :
    n.merge (nest (s :: path) x) = .mapping (es ++ [(.string s, nest path x)]) := by
  have hfind := find?_of_entryNamed?_none (entryNamed?_of_opened h hs)
  rcases opened_eq_mapping.1 h with rfl | ⟨hnull, rfl⟩
  · show (mapping es).merge (single s (nest path x)) = _
    rw [merge_single, mergedAt_of_none hfind, Entries.insert_of_find?_none hfind]
  · exact merge_of_null hnull _

/-- **Setting a path is laying a branch.** -/
theorem set_eq_merge (hclear : ClearWay path v) (hx : x.isMapping = false) :
    v.set path x = .ok (v.merge (nest path x)) := by
  rcases get?_cases v path with ⟨n, hn⟩ | ⟨walked, s, below, n, rfl, hn, hs⟩
  · obtain ⟨w, hset, hw⟩ := set_found hn x
    have hw' : ReplacedAt n (n.merge (nest [] x)) path v w := by
      rwa [show n.merge (nest [] x) = x from merge_of_not_mapping hx n]
    have hmerge := merge_of_replacedAt hw' (by rwa [List.append_nil])
    rw [hset, ← hmerge, List.append_nil]
  · have hopen : ∃ es, n.opened = .mapping es := by
      rcases hclear walked s below n rfl hn with hnull | ⟨es, rfl, -⟩
      · exact ⟨[], opened_eq_mapping.2 (Or.inr ⟨hnull, rfl⟩)⟩
      · exact ⟨es, rfl⟩
    obtain ⟨es, hes⟩ := hopen
    obtain ⟨w, hset, hw⟩ := set_fresh hn hs hes below x
    rw [← merge_nest_opened hes hs] at hw
    rw [hset, merge_of_replacedAt hw hclear]

/-- Over a null lies what lies over an empty mapping. -/
theorem exists_mapping_of_clearWay (hclear : ClearWay (s :: path) v) :
    ∃ es, ClearWay (s :: path) (.mapping es) ∧
      ∀ t N, v.merge (single t N) = (mapping es).merge (single t N) := by
  rcases hclear.null_or_mapping with hnull | ⟨es, rfl⟩
  · refine ⟨[], clearWay_mapping.2 ⟨by simp, by simp⟩, fun t N => ?_⟩
    exact (merge_of_null hnull _).trans (merge_single [] t N).symm
  · exact ⟨es, hclear, fun _ _ => rfl⟩

/-- A branch that does not end on a clear way leaves it clear. -/
theorem ClearWay.merge_nest {other : List Text} (hclear : ClearWay path v)
    (hends : other = path ∨ ¬ other <+: path) (x : Value) :
    ClearWay path (v.merge (nest other x)) := by
  induction path generalizing v other with
  | nil => exact clearWay_nil _
  | cons s path ih =>
    cases other with
    | nil => simp at hends
    | cons t other =>
      obtain ⟨es, hes, hmerge⟩ := exists_mapping_of_clearWay hclear
      obtain ⟨hstrings, hbelow⟩ := clearWay_mapping.1 hes
      show ClearWay (s :: path) (v.merge (single t (nest other x)))
      rw [hmerge, merge_single]
      refine clearWay_mapping.2 ⟨fun e he hmatch => ?_, fun c hc => ?_⟩
      · rcases Entries.mem_insert he with hk | ⟨f, hf, hk⟩
        · rw [hk] at hmatch ⊢
          rw [matchesSegment_string.1 hmatch]
        · rw [hk] at hmatch ⊢
          exact hstrings f hf hmatch
      · rw [Entries.find?_insert] at hc
        split at hc
        · next hsame =>
          obtain rfl : t = s := string.inj (sameKey_string.1 hsame)
          have hends' : other = path ∨ ¬ other <+: path :=
            hends.imp (fun heq => (List.cons.inj heq).2)
              fun hnot hpre => hnot (List.cons_prefix_cons.2 ⟨rfl, hpre⟩)
          obtain rfl := Option.some.inj hc
          cases hfind : Entries.find? es (.string t) with
          | none =>
            have hnull : isNull null = true := rfl
            have hfresh := ih (clearWay_of_null hnull path) hends'
            rwa [merge_of_null hnull, ← mergedAt_of_none hfind (nest other x)] at hfresh
          | some z =>
            rw [mergedAt_of_some hfind]
            exact ih (hbelow z hfind) hends'
        · exact hbelow c hc

end Value
end LayeredConfig
