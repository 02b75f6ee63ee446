import LayeredConfig.Proofs.Document.Positions
import LayeredConfig.Proofs.Interpolation.Leaves
import LayeredConfig.Proofs.Outcome

/-!
# Resolved documents, position by position

The node at a position of a resolved document is the one that stood there, resolved at its location.
The texts that are to be resolved are those at the positions of the document, and each is reported
if it cannot be resolved alone.
-/
namespace LayeredConfig.Interpolation

variable {ctx : Context}

theorem getElem?_resolveEachEntry (here : List Text) (es : List (Value × Value)) (i : Nat) :
    (resolveEachEntry ctx here es).1[i]? =
      es[i]?.map fun e => (e.1, (resolveNode ctx (here ++ [e.1.keyText]) e.2).1) := by
  induction es generalizing i with
  | nil => rfl
  | cons e es ih =>
    rw [resolveEachEntry]
    cases i with
    | zero => rfl
    | succ i => exact ih i

theorem getElem?_resolveEachItem (here : List Text) (start : Nat) (items : List Value) (i : Nat) :
    (resolveEachItem ctx here start items).1[i]? =
      items[i]?.map fun v => (resolveNode ctx (here ++ [Text.ofNat (start + i)]) v).1 := by
  induction items generalizing start i with
  | nil => rfl
  | cons v items ih =>
    rw [resolveEachItem]
    cases i with
    | zero => rfl
    | succ i =>
      rw [Nat.add_comm i 1, ← Nat.add_assoc, Nat.add_comm 1 i]
      exact ih (start + 1) i

/-- A child is resolved at its own location. -/
theorem children_resolveNode {v : Value} {i : Nat} {c : Text × Value} (h : v.children[i]? = some c)
    (here : List Text) : (resolveNode ctx here v).1.children[i]? =
      some (c.1, (resolveNode ctx (here ++ [c.1]) c.2).1) := by
  cases v with
  | mapping es =>
    rw [Value.children, List.getElem?_map, Option.map_eq_some_iff] at h
    obtain ⟨e, he, rfl⟩ := h
    rw [resolveNode]
    simp only [Value.children, List.getElem?_map, getElem?_resolveEachEntry, he, Option.map_some]
  | sequence items =>
    rw [Value.children, List.getElem?_mapIdx, Option.map_eq_some_iff] at h
    obtain ⟨v, hv, rfl⟩ := h
    rw [resolveNode]
    simp only [Value.children, List.getElem?_mapIdx, getElem?_resolveEachItem, hv, Option.map_some,
      Nat.zero_add]
  | _ => cases h

/-- **A node is resolved where it stands.** -/
theorem place?_resolveNode (ctx : Context) {v : Value} {position : List Nat} {there : List Text}
    {n : Value} (h : v.place? position = some (there, n)) (here : List Text) :
    (resolveNode ctx here v).1.place? position =
      some (there, (resolveNode ctx (here ++ there) n).1) := by
  induction position generalizing v here there with
  | nil =>
    cases h
    rw [Value.place?, List.append_nil]
  | cons i position ih =>
    obtain ⟨c, hc, h⟩ := Option.bind_eq_some_iff.1 h
    obtain ⟨⟨rest, n⟩, hn, h⟩ := Option.map_eq_some_iff.1 h
    cases h
    have hrest := ih hn (here ++ [c.1])
    rw [List.append_assoc, List.singleton_append] at hrest
    rw [Value.place?, children_resolveNode hc, Option.bind_some, hrest, Option.map_some]

/-- Resolution leaves the keys of a mapping as they are. -/
theorem keys_resolveEachEntry (here : List Text) (es : List (Value × Value)) :
    (resolveEachEntry ctx here es).1.map Prod.fst = es.map Prod.fst := by
  induction es with
  | nil => rfl
  | cons e es ih =>
    rw [resolveEachEntry]
    exact congrArg (e.1 :: ·) ih

theorem length_resolveEachItem (here : List Text) (start : Nat) (items : List Value) :
    (resolveEachItem ctx here start items).1.length = items.length := by
  induction items generalizing start with
  | nil => rfl
  | cons v items ih =>
    rw [resolveEachItem]
    exact congrArg (· + 1) (ih (start + 1))

theorem childIndex?_resolveNode {v : Value} {s : Text} {i : Nat} (h : v.childIndex? s = some i)
    (here : List Text) : (resolveNode ctx here v).1.childIndex? s = some i := by
  cases v with
  | mapping es =>
    have hkeys : ∀ fs : List (Value × Value), fs.findIdx? (fun e => e.1.matchesSegment s) =
        (fs.map Prod.fst).findIdx? (fun k => k.matchesSegment s) := by
      intro fs
      rw [List.findIdx?_map]
      rfl
    rw [Value.childIndex?, hkeys] at h
    rw [resolveNode]
    dsimp only [Value.childIndex?]
    rw [hkeys, keys_resolveEachEntry, h]
  | sequence items =>
    rw [resolveNode]
    dsimp only [Value.childIndex?] at h ⊢
    rw [length_resolveEachItem, h]
  | _ => cases h

/-- What a path leads to stands at the same position of the resolved document. -/
theorem position?_resolveNode (ctx : Context) {v : Value} {path : List Text} {position : List Nat}
    (h : v.position? path = some position) (here : List Text) :
    (resolveNode ctx here v).1.position? path = some position := by
  induction path generalizing v here position with
  | nil => exact h
  | cons s path ih =>
    obtain ⟨i, hi, h⟩ := Option.bind_eq_some_iff.1 h
    obtain ⟨c, hc, h⟩ := Option.bind_eq_some_iff.1 h
    obtain ⟨rest, hrest, rfl⟩ := Option.map_eq_some_iff.1 h
    rw [Value.position?, childIndex?_resolveNode hi, Option.bind_some, children_resolveNode hc,
      Option.bind_some, ih hrest, Option.map_some]

theorem resolveNode_string {here : List Text} {s : Text} {w : Value} (hs : hasOpening s = true)
    (hw : ctx.alone here s = .ok w) : resolveNode ctx here (.string s) = (w, []) := by
  rw [resolveNode, if_pos hs, show resolveText ctx depthLimit [] here s = .ok w from hw]

theorem resolveNode_string_error {here : List Text} {s : Text} {reason : Reason}
    (hs : hasOpening s = true) (h : ctx.alone here s = .error reason) :
    resolveNode ctx here (.string s) = (.string s, [⟨here, s, reason⟩]) := by
  rw [resolveNode, if_pos hs, show resolveText ctx depthLimit [] here s = .error reason from h]

theorem leavesOfEntries_eq (here : List Text) (es : List (Value × Value)) :
    leavesOfEntries here es =
      (es.map fun e => (e.1.keyText, e.2)).flatMap fun c => leaves (here ++ [c.1]) c.2 := by
  induction es with
  | nil => rfl
  | cons e es ih => rw [leavesOfEntries, List.map_cons, List.flatMap_cons, ih]

theorem leavesOfItems_eq (here : List Text) (start : Nat) (items : List Value) :
    leavesOfItems here start items =
      (items.mapIdx fun i v => (Text.ofNat (start + i), v)).flatMap
        fun c => leaves (here ++ [c.1]) c.2 := by
  induction items generalizing start with
  | nil => rfl
  | cons v items ih =>
    rw [leavesOfItems, ih, List.mapIdx_cons, List.flatMap_cons]
    simp only [Nat.add_zero, Nat.add_assoc, Nat.add_comm 1]

theorem leaves_eq_children {v : Value} (h : ∀ s, v ≠ .string s) (here : List Text) :
    leaves here v = v.children.flatMap fun c => leaves (here ++ [c.1]) c.2 := by
  cases v with
  | string s => exact absurd rfl (h s)
  | mapping es => rw [leaves, leavesOfEntries_eq, Value.children]
  | sequence items =>
    rw [leaves, leavesOfItems_eq, Value.children]
    simp only [Nat.zero_add]
  | _ => rw [leaves] <;> simp [Value.children]

theorem mem_leaves_string {here : List Text} {s : Text} {l : Leaf} :
    l ∈ leaves here (.string s) ↔ hasOpening s = true ∧ l = ⟨here, s⟩ := by
  rw [leaves]
  split
  · next hs => simp [hs]
  · next hs => simp [hs]

/-- The texts to be resolved are those that stand at some position. -/
theorem mem_leaves_iff {here : List Text} {v : Value} {l : Leaf} :
    l ∈ leaves here v ↔ ∃ position there s, v.place? position = some (there, .string s) ∧
      hasOpening s = true ∧ l = ⟨here ++ there, s⟩ := by
  constructor
  · induction v using Value.children_induction generalizing here with
    | node v ih =>
      intro h
      by_cases hv : ∃ s, v = .string s
      · obtain ⟨s, rfl⟩ := hv
        obtain ⟨hs, rfl⟩ := mem_leaves_string.1 h
        exact ⟨[], [], s, rfl, hs, by rw [List.append_nil]⟩
      · rw [leaves_eq_children fun s hs => hv ⟨s, hs⟩] at h
        obtain ⟨c, hc, h⟩ := List.mem_flatMap.1 h
        obtain ⟨position, there, s, hplace, hs, rfl⟩ := ih c hc h
        obtain ⟨i, hi⟩ := List.mem_iff_getElem?.1 hc
        refine ⟨i :: position, c.1 :: there, s, ?_, hs, by simp⟩
        rw [Value.place?, hi, Option.bind_some, hplace, Option.map_some]
  · rintro ⟨position, there, s, hplace, hs, rfl⟩
    induction position generalizing v here there with
    | nil =>
      cases hplace
      exact mem_leaves_string.2 ⟨hs, by rw [List.append_nil]⟩
    | cons i position ih =>
      obtain ⟨c, hc, hplace⟩ := Option.bind_eq_some_iff.1 hplace
      obtain ⟨⟨rest, n⟩, hrest, hplace⟩ := Option.map_eq_some_iff.1 hplace
      cases hplace
      have hmem : c ∈ v.children := List.mem_of_getElem? hc
      have hv : ∀ s, v ≠ .string s := by
        rintro s rfl
        cases hmem
      have hleaf : (⟨here ++ [c.1] ++ rest, s⟩ : Leaf) ∈ leaves (here ++ [c.1]) c.2 := ih rest hrest
      rw [List.append_assoc, List.singleton_append] at hleaf
      rw [leaves_eq_children hv]
      exact List.mem_flatMap.2 ⟨c, hmem, hleaf⟩

section
variable {f : List Text → Text → Except Reason Value}

mutual
/-- A node with nothing to be resolved stays as it is. -/
theorem resolveAll_of_leaves_eq_nil (here : List Text) :
    ∀ v, leaves here v = [] → resolveAll f here v = .ok v
  | .string s, h => by
    unfold leaves at h
    unfold resolveAll
    split at h
    · cases h
    · next hs => rw [if_neg hs]
  | .mapping es, h => by
    rw [leaves] at h
    rw [resolveAll, resolveEntries_of_leaves_eq_nil here es h]
    rfl
  | .sequence items, h => by
    rw [leaves] at h
    rw [resolveAll, resolveItems_of_leaves_eq_nil here 0 items h]
    rfl
  | .null, _ | .bool _, _ | .number _, _ | .tagged _ _, _ => by rw [resolveAll] <;> simp

theorem resolveEntries_of_leaves_eq_nil (here : List Text) :
    ∀ es, leavesOfEntries here es = [] → resolveEntries f here es = .ok es
  | [], _ => rfl
  | (k, v) :: rest, h => by
    rw [leavesOfEntries, List.append_eq_nil_iff] at h
    rw [resolveEntries, resolveAll_of_leaves_eq_nil _ v h.1, Outcome.ok_bind,
      resolveEntries_of_leaves_eq_nil here rest h.2]
    rfl

theorem resolveItems_of_leaves_eq_nil (here : List Text) :
    ∀ i items, leavesOfItems here i items = [] → resolveItems f here i items = .ok items
  | _, [], _ => rfl
  | i, v :: rest, h => by
    rw [leavesOfItems, List.append_eq_nil_iff] at h
    rw [resolveItems, resolveAll_of_leaves_eq_nil _ v h.1, Outcome.ok_bind,
      resolveItems_of_leaves_eq_nil here (i + 1) rest h.2]
    rfl
end
end

section
open Outcome
variable {f : List Text → Text → Except Reason Value} {r : Reason}

mutual
/-- A node fails by one of its texts. -/
theorem resolveAll_error (here : List Text) :
    ∀ v, resolveAll f here v = .error r → ∃ l ∈ leaves here v, f l.location l.text = .error r
  | .string s, h => by
    unfold resolveAll at h
    split at h
    · next hs => exact ⟨⟨here, s⟩, mem_leaves_string.2 ⟨hs, rfl⟩, h⟩
    · cases h
  | .mapping es, h => by
    unfold resolveAll at h
    rcases bind_eq_error.1 h with h | ⟨fs, -, h⟩
    · rw [leaves]
      exact resolveEntries_error here es h
    · cases h
  | .sequence items, h => by
    unfold resolveAll at h
    rcases bind_eq_error.1 h with h | ⟨ws, -, h⟩
    · rw [leaves]
      exact resolveItems_error here 0 items h
    · cases h
  | .null, h | .bool _, h | .number _, h | .tagged _ _, h => by
    unfold resolveAll at h
    cases h

theorem resolveEntries_error (here : List Text) : ∀ es, resolveEntries f here es = .error r →
    ∃ l ∈ leavesOfEntries here es, f l.location l.text = .error r
  | [], h => by cases h
  | (k, v) :: rest, h => by
    unfold resolveEntries at h
    simp only [leavesOfEntries, List.mem_append]
    rcases bind_eq_error.1 h with h | ⟨w, -, h⟩
    · obtain ⟨l, hl, h⟩ := resolveAll_error _ v h
      exact ⟨l, Or.inl hl, h⟩
    · rcases bind_eq_error.1 h with h | ⟨ws, -, h⟩
      · obtain ⟨l, hl, h⟩ := resolveEntries_error here rest h
        exact ⟨l, Or.inr hl, h⟩
      · cases h

theorem resolveItems_error (here : List Text) : ∀ i items, resolveItems f here i items = .error r →
    ∃ l ∈ leavesOfItems here i items, f l.location l.text = .error r
  | _, [], h => by cases h
  | i, v :: rest, h => by
    unfold resolveItems at h
    simp only [leavesOfItems, List.mem_append]
    rcases bind_eq_error.1 h with h | ⟨w, -, h⟩
    · obtain ⟨l, hl, h⟩ := resolveAll_error _ v h
      exact ⟨l, Or.inl hl, h⟩
    · rcases bind_eq_error.1 h with h | ⟨ws, -, h⟩
      · obtain ⟨l, hl, h⟩ := resolveItems_error here (i + 1) rest h
        exact ⟨l, Or.inr hl, h⟩
      · cases h
end
end

/-- Whether a text is among those that were left. -/
def Leaf.IsReported (l : Leaf) (failures : List Failure) : Prop :=
  ∃ f ∈ failures, f.location = l.location ∧ f.expression = l.text

theorem Leaf.failure?_eq_some {l : Leaf} {f : Failure} : l.failure? ctx.alone = some f ↔
    l = ⟨f.location, f.expression⟩ ∧ ctx.alone l.location l.text = .error f.reason := by
  rw [Leaf.failure?]
  cases halone : ctx.alone l.location l.text with
  | ok w => simp
  | error reason =>
    simp only [Option.some.injEq, Except.error.injEq]
    constructor
    · rintro rfl
      exact ⟨rfl, rfl⟩
    · rintro ⟨rfl, rfl⟩
      rfl

/-- What is reported are the texts of a document that have no value alone, each with the reason. -/
theorem mem_failures_iff {here : List Text} {v : Value} {f : Failure} :
    f ∈ (resolveNode ctx here v).2 ↔ ⟨f.location, f.expression⟩ ∈ leaves here v ∧
      ctx.alone f.location f.expression = .error f.reason := by
  rw [failures_resolveNode, List.mem_filterMap]
  constructor
  · rintro ⟨l, hl, hf⟩
    obtain ⟨rfl, hreason⟩ := Leaf.failure?_eq_some.1 hf
    exact ⟨hl, hreason⟩
  · rintro ⟨hl, hreason⟩
    exact ⟨_, hl, Leaf.failure?_eq_some.2 ⟨rfl, hreason⟩⟩

theorem isReported_iff {here : List Text} {v : Value} {l : Leaf} :
    l.IsReported (resolveNode ctx here v).2 ↔
      l ∈ leaves here v ∧ ∃ reason, ctx.alone l.location l.text = .error reason := by
  constructor
  · rintro ⟨f, hf, hlocation, htext⟩
    obtain ⟨hl, hreason⟩ := mem_failures_iff.1 hf
    rw [hlocation, htext] at hl hreason
    exact ⟨hl, f.reason, hreason⟩
  · rintro ⟨hl, reason, hreason⟩
    exact ⟨⟨l.location, l.text, reason⟩, mem_failures_iff.2 ⟨hl, hreason⟩, rfl, rfl⟩

theorem exists_value_of_not_isReported {here : List Text} {v : Value} {l : Leaf}
    (hl : l ∈ leaves here v) (h : ¬ l.IsReported (resolveNode ctx here v).2) :
    ∃ w, ctx.alone l.location l.text = .ok w := by
  rw [isReported_iff, not_and] at h
  cases hw : ctx.alone l.location l.text with
  | ok w => exact ⟨w, rfl⟩
  | error reason => exact absurd ⟨reason, hw⟩ (h hl)

end LayeredConfig.Interpolation
