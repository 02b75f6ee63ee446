import LayeredConfig.Proofs.Document.MergeLaws
import LayeredConfig.Proofs.Document.Overlay

/-!
# Nulls that say nothing

Where a null keeps what lies below it, an entry with a null in an overlay says nothing and could be
left out. That is so of the entries that meet a mapping of the base, at every depth. An entry that
meets none comes into the result with the mapping that it belongs to, which is taken over as a
whole, and its null with it.

A null with a tag is left out like any other where the base does not have the key. Where the base
has it, such a null is a value that replaces.
-/
namespace LayeredConfig.Value

mutual
/-- A value without the entries whose value is `absent`, at every depth that is reached through
mappings. -/
def without (absent : Value → Bool) : Value → Value
  | .mapping es => .mapping (withoutEntries absent es)
  | v => v

def withoutEntries (absent : Value → Bool) : List (Value × Value) → Entries
  | [] => []
  | (k, v) :: rest =>
    if absent v then withoutEntries absent rest
    else (k, v.without absent) :: withoutEntries absent rest
end

/-- A value without its null entries. -/
def withoutNulls (v : Value) : Value := v.without (· = .null)

variable {absent : Value → Bool}

theorem without_of_not_mapping {v : Value} (h : v.isMapping = false) : v.without absent = v := by
  cases v with
  | mapping es => cases h
  | _ => rw [without]; simp

theorem isNull_without (v : Value) : (v.without absent).isNull = v.isNull := by
  cases hm : v.isMapping with
  | false => rw [without_of_not_mapping hm]
  | true =>
    obtain ⟨es, rfl⟩ := isMapping_eq_true hm
    rw [without]
    rfl

theorem not_mapping_of_isNull {v : Value} (h : v.isNull = true) : v.isMapping = false := by
  cases v with
  | mapping es => cases h
  | _ => rfl

/-- What is left under a key. -/
theorem find?_withoutEntries {es : Entries} (he : Entries.Distinct es) (k : Value) :
    Entries.find? (withoutEntries absent es) k =
      (Entries.find? es k).bind fun v => if absent v then none else some (v.without absent) := by
  induction es with
  | nil => rfl
  | cons e es ih =>
    obtain ⟨l, v⟩ := e
    obtain ⟨hl, he⟩ := Entries.distinct_cons.1 he
    have hrest := ih he
    rw [withoutEntries, Entries.find?_cons]
    by_cases hlk : l.sameKey k = true
    · rw [if_pos hlk, Option.bind_some]
      split
      · rw [hrest, ← Entries.find?_congr hlk, hl, Option.bind_none]
      · rw [Entries.find?_cons, if_pos hlk]
    · rw [if_neg hlk]
      split
      · exact hrest
      · rw [Entries.find?_cons, if_neg hlk, hrest]

/-- Nothing is lost of a mapping if it has no absent value and nothing is lost of the values that it
has. -/
theorem withoutEntries_eq_self_iff {es : Entries} (he : Entries.Distinct es) :
    withoutEntries absent es = es ↔
      ∀ k v, Entries.find? es k = some v → absent v = false ∧ v.without absent = v := by
  constructor
  · intro h k v hv
    have hfind : Entries.find? (withoutEntries absent es) k = _ := find?_withoutEntries he k
    rw [h, hv, Option.bind_some] at hfind
    split at hfind
    · cases hfind
    · next hv => exact ⟨by simpa using hv, (Option.some.inj hfind).symm⟩
  · intro h
    induction es with
    | nil => rfl
    | cons e es ih =>
      obtain ⟨l, v⟩ := e
      obtain ⟨hl, hd⟩ := Entries.distinct_cons.1 he
      obtain ⟨habs, hv⟩ := h l v (he.find?_of_mem List.mem_cons_self)
      have hrest : withoutEntries absent es = es := by
        refine ih hd fun k w hw => h k w ?_
        have hlk : ¬ l.sameKey k = true := by
          intro hlk
          rw [← Entries.find?_congr hlk, hl] at hw
          cases hw
        rw [Entries.find?_cons, if_neg hlk, hw]
      rw [withoutEntries, habs, if_neg Bool.false_ne_true, hv, hrest]

theorem distinct_withoutEntries {es : Entries} (he : Entries.Distinct es) :
    Entries.Distinct (withoutEntries absent es) := by
  induction es with
  | nil => exact List.Pairwise.nil
  | cons e es ih =>
    obtain ⟨k, v⟩ := e
    obtain ⟨hk, he⟩ := Entries.distinct_cons.1 he
    rw [withoutEntries]
    split
    · exact ih he
    · refine Entries.distinct_cons.2 ⟨?_, ih he⟩
      rw [find?_withoutEntries he, hk, Option.bind_none]

/-- The two overlays make the same of a mapping if they make the same of what it has under each key.
An absent value is to make nothing of it. -/
theorem mergeEntries_withoutEntries_iff {bs os : Entries} (ho : Entries.Distinct os) :
    mergeEntries .keepBase bs (withoutEntries absent os) = mergeEntries .keepBase bs os ↔
      ∀ k v, Entries.find? os k = some v →
        overlaid .keepBase (Entries.find? bs k) v =
          if absent v then Entries.find? bs k
          else overlaid .keepBase (Entries.find? bs k) (v.without absent) := by
  constructor
  · intro h k v hv
    have hfind := congrArg (Entries.find? · k) h
    simp only [find?_mergeEntries .keepBase ho,
      find?_mergeEntries .keepBase (distinct_withoutEntries ho), find?_withoutEntries ho, hv,
      Option.bind_some] at hfind
    rw [← hfind]
    cases absent v <;> rfl
  · intro h
    induction os generalizing bs with
    | nil => rfl
    | cons e os ih =>
      obtain ⟨l, v⟩ := e
      obtain ⟨hl, hd⟩ := Entries.distinct_cons.1 ho
      have hhead := h l v (ho.find?_of_mem List.mem_cons_self)
      -- What the first entry makes of the base is not looked at by the others.
      have htail : ∀ bs', (∀ k, ¬ l.sameKey k = true → Entries.find? bs' k = Entries.find? bs k) →
          mergeEntries .keepBase bs' (withoutEntries absent os) =
            mergeEntries .keepBase bs' os := by
        intro bs' hbs
        refine ih hd fun k w hw => ?_
        have hlk : ¬ l.sameKey k = true := by
          intro hlk
          rw [← Entries.find?_congr hlk, hl] at hw
          cases hw
        rw [hbs k hlk]
        exact h k w (by rw [Entries.find?_cons, if_neg hlk, hw])
      have hinsert : ∀ w k, ¬ l.sameKey k = true →
          Entries.find? (Entries.insert bs l w) k = Entries.find? bs k :=
        fun w k hlk => by rw [Entries.find?_insert, if_neg hlk]
      rw [withoutEntries, mergeEntries_cons, hhead]
      by_cases habs : absent v = true
      · rw [if_pos habs, if_pos habs]
        cases hb : Entries.find? bs l with
        | none => exact htail bs fun _ _ => rfl
        | some w =>
          dsimp only
          rw [Entries.insert_of_find?_some hb]
          exact htail bs fun _ _ => rfl
      · rw [if_neg habs, if_neg habs, mergeEntries_cons]
        cases overlaid .keepBase (Entries.find? bs l) (v.without absent) with
        | none => exact htail bs fun _ _ => rfl
        | some w => exact htail _ (hinsert w)

/-- Each entry of an overlay whose value is absent meets a mapping of what lies below, and says
nothing new there. -/
def SaysNothing (absent : Value → Bool) (below : Option Value) (o : Value) : Prop :=
  ∀ keys k v, o.atKeys? (keys ++ [k]) = some v → absent v = true →
    ∃ bs, below.bind (·.atKeys? keys) = some (.mapping bs) ∧
      overlaid .keepBase (Entries.find? bs k) v = Entries.find? bs k

theorem saysNothing_of_not_mapping {o : Value} (h : o.isMapping = false) (below : Option Value) :
    SaysNothing absent below o := by
  intro keys k v hv
  have hnone : o.atKeys? (keys ++ [k]) = none := by
    cases keys with
    | nil => exact atKeys?_cons_of_not_mapping h k []
    | cons l keys => exact atKeys?_cons_of_not_mapping h l _
  rw [hnone] at hv
  cases hv

theorem saysNothing_mapping {below : Option Value} {os : Entries} :
    SaysNothing absent below (.mapping os) ↔ ∀ k v, Entries.find? os k = some v →
      (absent v = true → ∃ bs, below = some (.mapping bs) ∧
        overlaid .keepBase (Entries.find? bs k) v = Entries.find? bs k) ∧
      SaysNothing absent (below.bind (·.atKeys? [k])) v := by
  have hbelow : ∀ k keys, (below.bind (·.atKeys? [k])).bind (·.atKeys? keys) =
      below.bind (·.atKeys? (k :: keys)) := by
    intro k keys
    rw [Option.bind_assoc]
    congr 1
    funext b
    exact (atKeys?_append b [k] keys).symm
  constructor
  · intro h k v hv
    refine ⟨fun habs => ?_, fun keys l w hw habs => ?_⟩
    · obtain ⟨bs, hbs, hsame⟩ := h [] k v (by rw [List.nil_append, atKeys?, hv]; rfl) habs
      exact ⟨bs, (Option.bind_fun_some below).symm.trans hbs, hsame⟩
    · rw [hbelow]
      exact h (k :: keys) l w (by rw [List.cons_append, atKeys?, hv]; exact hw) habs
  · intro h keys l w hw habs
    cases keys with
    | nil =>
      obtain ⟨v, hv, hw⟩ := Option.bind_eq_some_iff.1 hw
      cases hw
      obtain ⟨bs, rfl, hsame⟩ := (h l _ hv).1 habs
      exact ⟨bs, rfl, hsame⟩
    | cons k keys =>
      obtain ⟨v, hv, hw⟩ := Option.bind_eq_some_iff.1 hw
      rw [← hbelow]
      exact (h k v hv).2 keys l w hw habs

theorem overlaid_none_eq_iff {v : Value} :
    overlaid .keepBase none (v.without absent) = overlaid .keepBase none v ↔
      v.without absent = v := by
  simp only [overlaid, isNull_without, true_and]
  split
  · next hn => exact iff_of_true rfl (without_of_not_mapping (not_mapping_of_isNull hn))
  · exact Option.some_inj

theorem overlaid_mapping (bs os : Entries) :
    overlaid .keepBase (some (.mapping bs)) (.mapping os) =
      some (.mapping (mergeEntries .keepBase bs os)) := by
  rw [overlaid, mergeWith_mapping]

theorem overlaid_mapping_of_not {below : Option Value} (h : ∀ bs, below ≠ some (.mapping bs))
    (os : Entries) : overlaid .keepBase below (.mapping os) = some (.mapping os) := by
  cases below with
  | none => rfl
  | some b =>
    rw [overlaid]
    rcases mergeWith_cases .keepBase b (mapping os) with hmerge | ⟨hnull, -⟩ | ⟨bs, -, rfl, -⟩
    · rw [hmerge]
    · cases hnull
    · exact absurd rfl (h bs)

/-- An overlay without its absent entries makes the same of what lies below it if these say nothing
there. -/
theorem overlaid_without_iff (h : ∀ v, absent v = true → v.isNull = true) {o : Value} (ho : o.Keyed)
    (below : Option Value) :
    overlaid .keepBase below (o.without absent) = overlaid .keepBase below o ↔
      SaysNothing absent below o := by
  induction o using lookup_induction generalizing below with
  | other o hm =>
    rw [without_of_not_mapping hm]
    exact iff_of_true rfl (saysNothing_of_not_mapping hm below)
  | mapping os ih =>
    have hd := (keyed_mapping.1 ho).1
    rw [saysNothing_mapping, without]
    by_cases hb : ∃ bs, below = some (.mapping bs)
    · obtain ⟨bs, rfl⟩ := hb
      rw [overlaid_mapping, overlaid_mapping, Option.some_inj, mapping.injEq]
      refine (mergeEntries_withoutEntries_iff hd).trans (forall₃_congr fun k v hv => ?_)
      have hunder : (some (mapping bs)).bind (·.atKeys? [k]) = Entries.find? bs k :=
        Option.bind_fun_some _
      rw [hunder]
      by_cases habs : absent v = true
      · have hnothing : SaysNothing absent (Entries.find? bs k) v :=
          saysNothing_of_not_mapping (not_mapping_of_isNull (h v habs)) _
        simp [habs, hnothing]
      · rw [if_neg habs, eq_comm, ih k v hv (ho.of_find? hv)]
        exact (and_iff_right fun hv => absurd hv habs).symm
    · have hb : ∀ bs, below ≠ some (.mapping bs) := fun bs h => hb ⟨bs, h⟩
      rw [overlaid_mapping_of_not hb, overlaid_mapping_of_not hb, Option.some_inj, mapping.injEq]
      refine (withoutEntries_eq_self_iff hd).trans (forall₃_congr fun k v hv => ?_)
      have hunder : below.bind (·.atKeys? [k]) = none := by
        rw [Option.bind_eq_none_iff]
        rintro (- | - | - | - | - | bs | -) hbelow
        case mapping => exact absurd hbelow (hb bs)
        all_goals rfl
      rw [hunder, ← ih k v hv (ho.of_find? hv), overlaid_none_eq_iff]
      refine and_congr_left fun _ => ?_
      simp [hb]

/-- A null makes nothing of what lies below it if it has no tag, or nothing is there, or the null
itself. -/
theorem overlaid_isNull_iff {v : Value} (hv : v.isNull = true) (below : Option Value) :
    overlaid .keepBase below v = below ↔ v = .null ∨ below = none ∨ below = some v := by
  cases below with
  | none => simp [overlaid, hv]
  | some b =>
    simp only [overlaid, Option.some_inj, reduceCtorEq, false_or]
    rcases mergeWith_cases .keepBase b v with h | ⟨rfl, h⟩ | ⟨-, os, -, rfl⟩
    · by_cases hnull : v = .null
      · subst hnull
        exact iff_of_true (by rw [mergeWith, if_pos rfl]) (Or.inl rfl)
      · rw [h, or_iff_right hnull, eq_comm]
    · exact iff_of_true h (Or.inl rfl)
    · cases hv

/-- **Which nulls say nothing.** Where a null keeps what lies below it, the null entries of an
overlay make no difference exactly if each of them meets a mapping of the base at its path; with the
nulls that have a tag counted, exactly if the base moreover does not have the key of such an entry,
or has the very same null there. -/
theorem mergeWith_withoutNulls_iff (b : Value) {o : Value} (ho : o.Keyed) :
    (mergeWith .keepBase b o.withoutNulls = mergeWith .keepBase b o ↔
      ∀ keys k, o.atKeys? (keys ++ [k]) = some .null → ∃ bs, b.atKeys? keys = some (.mapping bs)) ∧
    (mergeWith .keepBase b (o.without isNull) = mergeWith .keepBase b o ↔
      ∀ keys k v, o.atKeys? (keys ++ [k]) = some v → v.isNull = true →
        ∃ bs, b.atKeys? keys = some (.mapping bs) ∧
          (v = .null ∨ Entries.find? bs k = none ∨ Entries.find? bs k = some v)) := by
  have hiff : ∀ absent : Value → Bool, (∀ v, absent v = true → v.isNull = true) →
      (mergeWith .keepBase b (o.without absent) = mergeWith .keepBase b o ↔
        SaysNothing absent (some b) o) := by
    intro absent h
    rw [← overlaid_without_iff h ho, overlaid, overlaid, Option.some_inj]
  constructor
  · have hnull : ∀ v : Value, decide (v = .null) = true → v.isNull = true := by
      intro v hv
      rw [of_decide_eq_true hv]
      rfl
    refine (hiff _ hnull).trans (forall₂_congr fun keys k => ⟨fun h hk => ?_, fun h v hk hv => ?_⟩)
    · obtain ⟨bs, hbs, -⟩ := h .null hk (decide_eq_true rfl)
      exact ⟨bs, hbs⟩
    · obtain rfl := of_decide_eq_true hv
      obtain ⟨bs, hbs⟩ := h hk
      exact ⟨bs, hbs, (overlaid_isNull_iff rfl _).2 (Or.inl rfl)⟩
  · refine (hiff _ fun v hv => hv).trans (forall₃_congr fun keys k v => ?_)
    refine forall₂_congr fun _ hv => exists_congr fun bs => and_congr_right fun _ => ?_
    exact overlaid_isNull_iff hv _

/-- A null for a value of the base, one for a mapping of it, one for a key that it does not have,
and one at depth two; and a null with a tag for a key that the base does not have. -/
theorem mergeWith_withoutNulls_iff_settings :
    let b : Value := .mapping [(.string "port", .number (.int 1)),
      (.string "db", .mapping [(.string "host", .string "h")]), (.string "log", .mapping [])]
    let o : Value :=
      .mapping [(.string "log", .null), (.string "port", .null), (.string "cache", .null),
      (.string "db", .mapping [(.string "host", .null), (.string "user", .tagged "t" .null),
        (.string "name", .string "n")])]
    o.Keyed ∧
    (∀ keys k, o.atKeys? (keys ++ [k]) = some .null → ∃ bs, b.atKeys? keys = some (.mapping bs)) ∧
    mergeWith .keepBase b (o.without isNull) = mergeWith .keepBase b o ∧
    mergeWith .keepBase b o = .mapping [(.string "port", .number (.int 1)),
      (.string "db", .mapping [(.string "host", .string "h"), (.string "name", .string "n")]),
      (.string "log", .mapping [])] := by
  intro b o
  have ho : o.Keyed := by decide
  exact ⟨ho, (mergeWith_withoutNulls_iff b ho).1.1 (by decide +kernel), by decide +kernel,
    by decide +kernel⟩

/-- A null in a mapping that the base does not have stays in the result. -/
theorem mergeWith_withoutNulls_ne :
    let b : Value := .mapping []
    let o : Value := .mapping [(.string "a", .mapping [(.string "b", .null)])]
    o.withoutNulls = .mapping [(.string "a", .mapping [])] ∧
    mergeWith .keepBase b o.withoutNulls = .mapping [(.string "a", .mapping [])] ∧
    mergeWith .keepBase b o = .mapping [(.string "a", .mapping [(.string "b", .null)])] ∧
    mergeWith .keepBase b o.withoutNulls ≠ mergeWith .keepBase b o := by
  decide +kernel

end LayeredConfig.Value
