import LayeredConfig.Proofs.Compose.Assigned
import LayeredConfig.Proofs.Document.Branches

/-!
# Assignments one by one and all at once

The strict composition sets one path after the other in the document, the lenient one builds a
document of all assignments and lays it over once. The results are the same where the ways of the
assignments are clear in the document and no assignment ends on the way of another.
-/
namespace LayeredConfig.Assignment

open Value Outcome

/-- The path that an assignment sets. -/
def segments (a : Assignment) : List Text := Text.splitAll '.' a.1

/-- Sets the path of an assignment in a document. -/
def setIn (d : Value) (a : Assignment) : Except NotAMapping Value :=
  d.set a.segments (.ofArgument a.2)

/-- Two paths are the same, or they part before either ends. -/
def Apart (p q : List Text) : Prop := p = q ∨ ¬ p <+: q ∧ ¬ q <+: p

theorem Apart.ends {p q : List Text} (h : Apart p q) : p = q ∨ ¬ p <+: q := h.imp_right And.left

/-- What a branch holds lies at its end. -/
theorem eq_of_atKeys?_nest {path : List Text} {x y : Value} (hx : x.isMapping = false)
    (hy : y.isMapping = false) {keys : List Value} (h : (nest path x).atKeys? keys = some y) :
    keys = stringKeys path := by
  induction path generalizing keys with
  | nil =>
    cases keys with
    | nil => rfl
    | cons k keys =>
      rw [show nest [] x = x from rfl, atKeys?_cons_of_not_mapping hx] at h
      cases h
  | cons s path ih =>
    cases keys with
    | nil =>
      cases h
      cases hy
    | cons k keys =>
      obtain ⟨c, hc, h⟩ := Option.bind_eq_some_iff.1 h
      rw [find?_single] at hc
      split at hc
      · next hk =>
        cases hc
        rw [hk, ih h]
        rfl
      · cases hc

/-- Where the tree of some assignments holds no mapping, one of them ends. -/
theorem exists_of_atKeys?_tree {as : List Assignment}
    (hvalue : ∀ a ∈ as, (ofArgument a.2).isMapping = false) {path : List Text} {y : Value}
    (hy : y.isMapping = false) (h : (tree as).atKeys? (stringKeys path) = some y) :
    ∃ a ∈ as, a.segments = path := by
  have hlayers : ∀ c ∈ as.map branch, c.Keyed := by
    intro c hc
    obtain ⟨a, -, rfl⟩ := List.mem_map.1 hc
    exact branch_keyed a
  have htree : tree as = (as.map branch).foldl merge (.mapping []) := List.foldl_map.symm
  rw [htree, atKeys?_foldl_merge hlayers _ hy] at h
  rcases h with ⟨before, c, after, hsplit, hc, -⟩ | ⟨hempty, -⟩
  · have hmem : c ∈ as.map branch := by rw [hsplit]; simp
    obtain ⟨a, ha, rfl⟩ := List.mem_map.1 hmem
    have hkeys := eq_of_atKeys?_nest (hvalue a ha) hy hc
    exact ⟨a, ha, (List.map_injective_iff.2 (fun _ _ => string.inj) hkeys).symm⟩
  · cases path with
    | nil =>
      cases hempty
      cases hy
    | cons s path => cases hempty

/-- Laying the branches one by one is laying the tree of them. -/
theorem foldl_branch_eq_merge_tree {as : List Assignment}
    (hvalue : ∀ a ∈ as, (ofArgument a.2).isMapping = false)
    (hapart : ∀ a ∈ as, ∀ b ∈ as, Apart a.segments b.segments) (es : Entries) :
    as.foldl (fun d a => d.merge a.branch) (.mapping es) = (mapping es).merge (tree as) := by
  induction as using List.reverseRecOn with
  | nil =>
    show mapping es = (mapping es).merge (.mapping [])
    rw [merge_mapping_mapping, mergeEntries]
  | append_singleton as a ih =>
    have hmem : ∀ b ∈ as, b ∈ as ++ [a] := fun b hb => List.mem_append_left _ hb
    have hlast : a ∈ as ++ [a] := by simp
    rw [List.foldl_append, ih (fun b hb => hvalue b (hmem b hb))
      (fun b hb c hc => hapart b (hmem b hb) c (hmem c hc)), tree_concat]
    refine merge_merge_nest (tree_keyed as) (hvalue a hlast) (fun front s back y hpath hy => ?_) _
    -- Otherwise an earlier assignment would end on the way of this one.
    by_contra hmap
    obtain ⟨b, hb, rfl⟩ := exists_of_atKeys?_tree (fun b hb => hvalue b (hmem b hb))
      (Bool.not_eq_true _ ▸ hmap) hy
    have hpre : b.segments <+: a.segments := ⟨s :: back, hpath.symm⟩
    rcases (hapart b (hmem b hb) a hlast).ends with heq | hnot
    · have hlength := congrArg List.length (heq.trans hpath)
      simp at hlength
    · exact hnot hpre

/-- Setting the paths one by one is laying the branches one by one. -/
theorem foldlM_setIn_eq_foldl {as : List Assignment}
    (hvalue : ∀ a ∈ as, (ofArgument a.2).isMapping = false)
    (hapart : ∀ a ∈ as, ∀ b ∈ as, Apart a.segments b.segments) {d : Value}
    (hclear : ∀ a ∈ as, ClearWay a.segments d) :
    as.foldlM setIn d = .ok (as.foldl (fun d a => d.merge a.branch) d) := by
  induction as generalizing d with
  | nil => rfl
  | cons a as ih =>
    obtain ⟨ha, hvalue⟩ := List.forall_mem_cons.1 hvalue
    have hset : setIn d a = .ok (d.merge a.branch) := set_eq_merge (hclear a List.mem_cons_self) ha
    rw [List.foldlM_cons, hset, ok_bind]
    refine ih hvalue (fun b hb c hc => ?_) (fun b hb => ?_)
    · exact hapart b (List.mem_cons_of_mem _ hb) c (List.mem_cons_of_mem _ hc)
    · have hends := (hapart a List.mem_cons_self b (List.mem_cons_of_mem _ hb)).ends
      exact (hclear b (List.mem_cons_of_mem _ hb)).merge_nest hends _

/-- **One by one, or all at once.** Assignments of values that are no mappings, each on a way that
is clear in the document and none ending on the way of another, are set one after the other without
failure, and the result is the document with the tree of all assignments laid over it, key by key in
the same order. -/
theorem foldlM_setIn_eq_merge_tree {es : Entries} {as : List Assignment}
    (hvalue : ∀ a ∈ as, (ofArgument a.2).isMapping = false)
    (hapart : ∀ a ∈ as, ∀ b ∈ as, Apart a.segments b.segments)
    (hclear : ∀ a ∈ as, ClearWay a.segments (.mapping es)) :
    as.foldlM setIn (.mapping es) = .ok ((mapping es).merge (tree as)) := by
  rw [foldlM_setIn_eq_foldl hvalue hapart hclear, foldl_branch_eq_merge_tree hvalue hapart]

/-- A null and a mapping on the ways, a branch that two assignments share, and a path that is
assigned twice. -/
theorem foldlM_setIn_eq_merge_tree_shared :
    let es : Entries := [(.string "db", .null), (.number (.int 7), .bool true),
      (.string "cache",
        .mapping [(.string "size", .number (.int 1)), (.string "ttl", .number (.int 5))])]
    let as : List Assignment :=
      [("db.host", "a"), ("cache.size", "3"), ("db.port", "1"), ("db.host", "b"), ("log", "[x]")]
    as.foldlM setIn (.mapping es) = .ok ((mapping es).merge (tree as)) ∧
      (mapping es).merge (tree as) = .mapping [
        (.string "db",
          .mapping [(.string "host", .string "b"), (.string "port", .number (.int 1))]),
        (.number (.int 7), .bool true),
        (.string "cache",
          .mapping [(.string "size", .number (.int 3)), (.string "ttl", .number (.int 5))]),
        (.string "log", .sequence [.string "x"])] := by
  intro es as
  have hdb : ∀ s, ClearWay ["db".toList, s] (.mapping es) := by
    refine fun s => clearWay_mapping.2 ⟨by decide +kernel, fun c hc => ?_⟩
    obtain rfl : Value.null = c := Option.some.inj hc
    exact clearWay_of_null rfl _
  have hcache : ClearWay ["cache".toList, "size".toList] (.mapping es) := by
    refine clearWay_mapping.2 ⟨by decide +kernel, fun c hc => ?_⟩
    obtain rfl := Option.some.inj hc
    exact clearWay_mapping.2 ⟨by decide +kernel, fun c _ => clearWay_nil c⟩
  have hlog : ClearWay ["log".toList] (.mapping es) :=
    clearWay_mapping.2 ⟨by decide +kernel, fun c _ => clearWay_nil c⟩
  have hsegments : as.map segments = [["db".toList, "host".toList], ["cache".toList, "size".toList],
      ["db".toList, "port".toList], ["db".toList, "host".toList], ["log".toList]] := by
    decide +kernel
  refine ⟨foldlM_setIn_eq_merge_tree (by decide +kernel) ?_ ?_, by decide +kernel⟩
  · have hall : ∀ p ∈ as.map segments, ∀ q ∈ as.map segments, p = q ∨ ¬ p <+: q ∧ ¬ q <+: p := by
      decide +kernel
    exact fun a ha b hb => hall _ (List.mem_map_of_mem ha) _ (List.mem_map_of_mem hb)
  · have hall : ∀ p ∈ as.map segments, ClearWay p (.mapping es) := by
      rw [hsegments]
      simp only [List.forall_mem_cons, List.not_mem_nil, false_implies, implies_true, and_true]
      exact ⟨hdb _, hcache, hdb _, hdb _, hlog⟩
    exact fun a ha => hall _ (List.mem_map_of_mem ha)

end LayeredConfig.Assignment
