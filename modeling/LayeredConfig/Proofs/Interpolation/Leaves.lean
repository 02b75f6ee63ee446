import LayeredConfig.Proofs.Interpolation.Stack

/-!
# Texts that are resolved by themselves

Resolving a document changes its texts with interpolations and nothing else. Each of them has the
value that it has alone, resolved at its place against the document as it was given, or it is left
and reported. The walk that uses one stack for all of them comes to the same, so that no text has
an influence on another one.
-/
namespace LayeredConfig.Interpolation

/-- A text of a document that may hold interpolations, with its place. -/
structure Leaf where
  location : List Text
  text : Text
deriving DecidableEq

mutual
/-- The texts with interpolations that are reached through mappings and sequences, in order. -/
def leaves (here : List Text) : Value → List Leaf
  | .string s => if hasOpening s then [⟨here, s⟩] else []
  | .mapping es => leavesOfEntries here es
  | .sequence items => leavesOfItems here 0 items
  | _ => []

def leavesOfEntries (here : List Text) : List (Value × Value) → List Leaf
  | [] => []
  | (k, v) :: rest => leaves (here ++ [k.keyText]) v ++ leavesOfEntries here rest

def leavesOfItems (here : List Text) : (index : Nat) → List Value → List Leaf
  | _, [] => []
  | i, v :: rest => leaves (here ++ [Text.ofNat i]) v ++ leavesOfItems here (i + 1) rest
end

/-- The report on a text that has no value when it is resolved alone. -/
def Leaf.failure? (alone : List Text → Text → Except Reason Value) (l : Leaf) : Option Failure :=
  match alone l.location l.text with
  | .ok _ => none
  | .error reason => some ⟨l.location, l.text, reason⟩

mutual
/-- A node and what it becomes if each text with interpolations is replaced by the value that it has
alone, or left where it has none. Keys, lengths and everything else are the same. -/
inductive Leafwise (alone : List Text → Text → Except Reason Value) :
    (here : List Text) → Value → Value → Prop
  | resolved {here s v} : hasOpening s = true → alone here s = .ok v →
    Leafwise alone here (.string s) v
  | left {here s reason} : hasOpening s = true → alone here s = .error reason →
    Leafwise alone here (.string s) (.string s)
  | mapping {here es fs} : LeafwiseEntries alone here es fs →
    Leafwise alone here (.mapping es) (.mapping fs)
  | sequence {here vs ws} : LeafwiseItems alone here 0 vs ws →
    Leafwise alone here (.sequence vs) (.sequence ws)
  | other {here v} : (∀ s, v = .string s → hasOpening s = false) → (∀ es, v ≠ .mapping es) →
    (∀ vs, v ≠ .sequence vs) → Leafwise alone here v v

inductive LeafwiseEntries (alone : List Text → Text → Except Reason Value) :
    (here : List Text) → List (Value × Value) → List (Value × Value) → Prop
  | nil {here} : LeafwiseEntries alone here [] []
  | cons {here k v w es fs} : Leafwise alone (here ++ [k.keyText]) v w →
    LeafwiseEntries alone here es fs → LeafwiseEntries alone here ((k, v) :: es) ((k, w) :: fs)

inductive LeafwiseItems (alone : List Text → Text → Except Reason Value) :
    (here : List Text) → (index : Nat) → List Value → List Value → Prop
  | nil {here i} : LeafwiseItems alone here i [] []
  | cons {here i v w vs ws} : Leafwise alone (here ++ [Text.ofNat i]) v w →
    LeafwiseItems alone here (i + 1) vs ws → LeafwiseItems alone here i (v :: vs) (w :: ws)
end

variable {ctx : Context}

/-- A text has the value that it has with nothing else in progress. -/
abbrev Context.alone (ctx : Context) : List Text → Text → Except Reason Value :=
  resolveText ctx depthLimit []

mutual
theorem leafwise_resolveNode (here : List Text) :
    ∀ v, Leafwise ctx.alone here v (resolveNode ctx here v).1
  | .string s => by
    unfold resolveNode
    cases hs : hasOpening s with
    | false =>
      rw [if_neg Bool.false_ne_true]
      refine .other (fun s' h => ?_) (by simp) (by simp)
      cases h
      exact hs
    | true =>
      rw [if_pos rfl]
      cases hv : resolveText ctx depthLimit [] here s with
      | ok v => exact .resolved hs hv
      | error reason => exact .left hs hv
  | .mapping es => by
    unfold resolveNode
    exact .mapping (leafwise_resolveEachEntry here es)
  | .sequence vs => by
    unfold resolveNode
    exact .sequence (leafwise_resolveEachItem here 0 vs)
  | .null | .bool _ | .number _ | .tagged _ _ => by
    unfold resolveNode
    exact .other (by simp) (by simp) (by simp)

theorem leafwise_resolveEachEntry (here : List Text) :
    ∀ es, LeafwiseEntries ctx.alone here es (resolveEachEntry ctx here es).1
  | [] => by
    unfold resolveEachEntry
    exact .nil
  | (k, v) :: rest => by
    unfold resolveEachEntry
    exact .cons (leafwise_resolveNode _ v) (leafwise_resolveEachEntry here rest)

theorem leafwise_resolveEachItem (here : List Text) :
    ∀ i vs, LeafwiseItems ctx.alone here i vs (resolveEachItem ctx here i vs).1
  | _, [] => by
    unfold resolveEachItem
    exact .nil
  | i, v :: rest => by
    unfold resolveEachItem
    exact .cons (leafwise_resolveNode _ v) (leafwise_resolveEachItem here (i + 1) rest)
end

mutual
theorem failures_resolveNode (here : List Text) : ∀ v,
    (resolveNode ctx here v).2 = (leaves here v).filterMap (Leaf.failure? ctx.alone)
  | .string s => by
    unfold resolveNode leaves
    split
    · simp only [List.filterMap_cons, List.filterMap_nil, Leaf.failure?, Context.alone]
      cases resolveText ctx depthLimit [] here s <;> rfl
    · rfl
  | .mapping es => by
    unfold resolveNode leaves
    exact failures_resolveEachEntry here es
  | .sequence vs => by
    unfold resolveNode leaves
    exact failures_resolveEachItem here 0 vs
  | .null | .bool _ | .number _ | .tagged _ _ => by
    unfold resolveNode leaves
    rfl

theorem failures_resolveEachEntry (here : List Text) : ∀ es,
    (resolveEachEntry ctx here es).2 =
      (leavesOfEntries here es).filterMap (Leaf.failure? ctx.alone)
  | [] => by
    unfold resolveEachEntry leavesOfEntries
    rfl
  | (k, v) :: rest => by
    unfold resolveEachEntry leavesOfEntries
    rw [List.filterMap_append, ← failures_resolveNode, ← failures_resolveEachEntry]

theorem failures_resolveEachItem (here : List Text) : ∀ i vs,
    (resolveEachItem ctx here i vs).2 =
      (leavesOfItems here i vs).filterMap (Leaf.failure? ctx.alone)
  | _, [] => by
    unfold resolveEachItem leavesOfItems
    rfl
  | i, v :: rest => by
    unfold resolveEachItem leavesOfItems
    rw [List.filterMap_append, ← failures_resolveNode, ← failures_resolveEachItem]
end

namespace Walk

variable {failures : List Failure}

theorem run_bind {α β : Type} {x : Walk α} {f : α → Walk β}
    {state state' : List Text × List Failure}
    {a : α} (hx : x.run state = (a, state')) : (x >>= f).run state = (f a).run state' := by
  rw [StateT.run_bind, hx]
  rfl

/-- A text leaves an empty stack empty. -/
theorem run_attempt (here : List Text) (s : Text) :
    (attempt (Shared.resolveText ctx (depthLimit + 1) here s)).run ([], failures) =
      (ctx.alone here s, [], failures) := by
  have h : (Shared.resolveText ctx (depthLimit + 1) here s).run [] = (ctx.alone here s, []) :=
    Shared.keeps_resolveText ctx (by simp) here s
  change ((Shared.resolveText ctx (depthLimit + 1) here s).run [] |>.1,
    (Shared.resolveText ctx (depthLimit + 1) here s).run [] |>.2, failures) = _
  rw [h]

mutual
theorem run_node (here : List Text) : ∀ v failures,
    (node ctx here v).run ([], failures) =
      ((resolveNode ctx here v).1, [], failures ++ (resolveNode ctx here v).2)
  | .string s, failures => by
    unfold node resolveNode
    split
    · rw [run_bind (run_attempt here s)]
      simp only [Context.alone]
      cases resolveText ctx depthLimit [] here s with
      | ok v => exact congrArg (fun fs => (v, [], fs)) (List.append_nil _).symm
      | error reason => rfl
    · exact congrArg (fun fs => (Value.string s, [], fs)) (List.append_nil _).symm
  | .mapping es, failures => by
    unfold node resolveNode
    rw [run_bind (run_entries here es failures)]
    rfl
  | .sequence vs, failures => by
    unfold node resolveNode
    rw [run_bind (run_items here 0 vs failures)]
    rfl
  | .null, failures | .bool _, failures | .number _, failures | .tagged _ _, failures => by
    unfold node resolveNode
    exact congrArg (fun fs => (_, [], fs)) (List.append_nil _).symm

theorem run_entries (here : List Text) : ∀ es failures,
    (entries ctx here es).run ([], failures) =
      ((resolveEachEntry ctx here es).1, [], failures ++ (resolveEachEntry ctx here es).2)
  | [], failures => by
    unfold entries resolveEachEntry
    exact congrArg (fun fs => (_, [], fs)) (List.append_nil _).symm
  | (k, v) :: rest, failures => by
    unfold entries resolveEachEntry
    rw [run_bind (run_node (here ++ [k.keyText]) v failures), run_bind (run_entries here rest _),
      List.append_assoc]
    rfl

theorem run_items (here : List Text) : ∀ i vs failures,
    (items ctx here i vs).run ([], failures) =
      ((resolveEachItem ctx here i vs).1, [], failures ++ (resolveEachItem ctx here i vs).2)
  | _, [], failures => by
    unfold items resolveEachItem
    exact congrArg (fun fs => (_, [], fs)) (List.append_nil _).symm
  | i, v :: rest, failures => by
    unfold items resolveEachItem
    rw [run_bind (run_node (here ++ [Text.ofNat i]) v failures),
      run_bind (run_items here (i + 1) rest _), List.append_assoc]
    rfl
end

end Walk

/-- **Every text is resolved as if it were alone.** The walk with one stack computes the resolution
of a document and ends with nothing in progress. In the document that results, each text with
interpolations has the value that it has alone, or is left, and all else is the same. The failures
are those of the texts that have none, in the order of the document. -/
theorem resolve_leafwise (environment : Text → Option Text) (document : Value) :
    let ctx : Context := ⟨document, environment⟩
    let r := resolve environment document
    (∀ here s, (Shared.resolveText ctx (depthLimit + 1) here s).run [] = (ctx.alone here s, [])) ∧
    (Walk.node ctx [] document).run ([], []) = (r.value, [], r.failures) ∧
    Leafwise ctx.alone [] document r.value ∧
    r.failures = (leaves [] document).filterMap (Leaf.failure? ctx.alone) :=
  ⟨Shared.keeps_resolveText _ (by simp), Walk.run_node [] document [],
    leafwise_resolveNode [] document, failures_resolveNode [] document⟩

end LayeredConfig.Interpolation
