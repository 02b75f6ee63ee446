import LayeredConfig.Proofs.Interpolation.References
import LayeredConfig.Proofs.Interpolation.Resolved

/-!
# References and what they refer to

A reference is resolved with its target in progress, and the texts at and below the target are
resolved alone. As fewer targets in progress take no value away, a reference that has a value has
the one that stands at its target in the resolved document, and none of the texts there is left.
-/
namespace LayeredConfig.Interpolation

open Outcome

variable {ctx : Context}

mutual
/-- If all texts of a node have a value alone, the node is resolved to what these make of it. -/
theorem resolveNode_of_resolveAll (here : List Text) :
    ∀ v w, resolveAll ctx.alone here v = .ok w → resolveNode ctx here v = (w, [])
  | .string s, w, hw => by
    unfold resolveAll at hw
    unfold resolveNode
    split
    · next hs =>
      rw [if_pos hs] at hw
      rw [show resolveText ctx depthLimit [] here s = .ok w from hw]
    · next hs =>
      rw [if_neg hs] at hw
      cases hw
      rfl
  | .mapping es, w, hw => by
    unfold resolveAll at hw
    obtain ⟨fs, hfs, hw⟩ := bind_eq_ok.1 hw
    cases hw
    rw [resolveNode, resolveEachEntry_of_resolveEntries here es fs hfs]
  | .sequence items, w, hw => by
    unfold resolveAll at hw
    obtain ⟨ws, hws, hw⟩ := bind_eq_ok.1 hw
    cases hw
    rw [resolveNode, resolveEachItem_of_resolveItems here 0 items ws hws]
  | .null, w, hw | .bool _, w, hw | .number _, w, hw | .tagged _ _, w, hw => by
    unfold resolveAll at hw
    cases hw
    rw [resolveNode] <;> simp

theorem resolveEachEntry_of_resolveEntries (here : List Text) :
    ∀ es fs, resolveEntries ctx.alone here es = .ok fs → resolveEachEntry ctx here es = (fs, [])
  | [], fs, hfs => by
    cases hfs
    rfl
  | (k, v) :: rest, fs, hfs => by
    unfold resolveEntries at hfs
    obtain ⟨w, hw, hfs⟩ := bind_eq_ok.1 hfs
    obtain ⟨ws, hws, hfs⟩ := bind_eq_ok.1 hfs
    cases hfs
    rw [resolveEachEntry, resolveNode_of_resolveAll _ v w hw,
      resolveEachEntry_of_resolveEntries here rest ws hws]
    rfl

theorem resolveEachItem_of_resolveItems (here : List Text) :
    ∀ i items ws, resolveItems ctx.alone here i items = .ok ws →
      resolveEachItem ctx here i items = (ws, [])
  | _, [], ws, hws => by
    cases hws
    rfl
  | i, v :: rest, ws, hws => by
    unfold resolveItems at hws
    obtain ⟨w, hw, hws⟩ := bind_eq_ok.1 hws
    obtain ⟨us, hus, hws⟩ := bind_eq_ok.1 hws
    cases hws
    rw [resolveEachItem, resolveNode_of_resolveAll _ v w hw,
      resolveEachItem_of_resolveItems here (i + 1) rest us hus]
    rfl
end

/-- A reference to a path has the value of the node there, resolved at that path. -/
theorem resolveNode_of_reference {q here : List Text} {n w : Value} (hseg : ∀ s ∈ q, IsSegment s)
    (hn : ctx.document.get? q = some n)
    (hw : ctx.alone here (reference (Text.joinWith "." q)) = .ok w) :
    resolveNode ctx q n = (w, []) := by
  have hbare := isBare_joinWith hseg
  rw [show ctx.alone here _ = refer ctx 63 [] here (Text.joinWith "." q) from
    resolveText_reference ctx hbare 63 [] here] at hw
  -- An empty path is no expression.
  have hq : q ≠ [] := by
    rintro rfl
    cases hw
  rw [refer_of_target ctx hbare (target_joinWith hq hseg here)] at hw
  obtain ⟨⟨key, node⟩, hentered, hw⟩ := bind_eq_ok.1 hw
  obtain ⟨-, -, hnode⟩ := enter_eq_ok.1 hentered
  rw [hn, Option.some_inj] at hnode
  subst hnode
  refine resolveNode_of_resolveAll q n w (resolveAll_extends (fun there => ?_) q n w hw)
  exact resolveText_extends (List.nil_subset _) (by decide) there

/-- If a node is resolved without a failure, no text at or below it is reported. -/
theorem not_isReported_below {v n : Value} {goal below : List Nat} {q there : List Text} {s : Text}
    (hn : v.place? goal = some (q, n)) (hnode : (resolveNode ctx q n).2 = [])
    (hbelow : v.place? (goal ++ below) = some (there, .string s)) :
    ¬ Leaf.IsReported ⟨there, s⟩ (resolveNode ctx [] v).2 := by
  intro hreport
  obtain ⟨hmem, hfails⟩ := isReported_iff.1 hreport
  obtain ⟨_, _, _, -, hopen, hleaf⟩ := mem_leaves_iff.1 hmem
  cases hleaf
  rw [Value.place?_append, hn, Option.bind_some, Option.map_eq_some_iff] at hbelow
  obtain ⟨⟨rest, _⟩, hrest, hbelow⟩ := hbelow
  cases hbelow
  -- The text is one of the node's own, and none of these is reported.
  have hown : Leaf.IsReported ⟨q ++ rest, s⟩ (resolveNode ctx q n).2 :=
    isReported_iff.2 ⟨mem_leaves_iff.2 ⟨below, rest, s, hrest, hopen, rfl⟩, hfails⟩
  rw [hnode] at hown
  obtain ⟨f, hf, -⟩ := hown
  cases hf

/-- **A reference has the value that its target has.** A text refers to `q`, and `q` is the location
of the node that is read there. If the text is not reported, no text at or below that node is, and
in the resolved document the text has become what the node has become. -/
theorem resolve_coherent (environment : Text → Option Text) (document : Value)
    {source goal : List Nat} {p q : List Text} {n : Value} (hseg : ∀ s ∈ q, IsSegment s)
    (hp : document.place? source = some (p, .string (reference (Text.joinWith "." q))))
    (hq : document.position? q = some goal) (hn : document.place? goal = some (q, n)) :
    let r := resolve environment document
    ¬ Leaf.IsReported ⟨p, reference (Text.joinWith "." q)⟩ r.failures →
      (∀ below there s, document.place? (goal ++ below) = some (there, .string s) →
        ¬ Leaf.IsReported ⟨there, s⟩ r.failures) ∧
      ∃ w, r.value.place? source = some (p, w) ∧ r.value.place? goal = some (q, w) ∧
        r.value.get? q = some w := by
  intro r hreported
  let ctx : Context := ⟨document, environment⟩
  have hget : document.get? q = some n := by
    rw [Value.get?_eq_place?, hq, Option.bind_some, hn, Option.map_some]
  have hleaf : (⟨p, reference (Text.joinWith "." q)⟩ : Leaf) ∈ leaves [] document :=
    mem_leaves_iff.2 ⟨source, p, _, hp, hasOpening_reference _, rfl⟩
  obtain ⟨w, hw⟩ : ∃ w, ctx.alone p (reference (Text.joinWith "." q)) = .ok w :=
    exists_value_of_not_isReported hleaf hreported
  have hnode : resolveNode ctx q n = (w, []) := resolveNode_of_reference hseg hget hw
  have hgoal : r.value.place? goal = some (q, w) := by
    have hplace := place?_resolveNode ctx hn []
    rwa [List.nil_append, hnode] at hplace
  refine ⟨fun below there s hbelow => not_isReported_below hn (by rw [hnode]) hbelow, w,
    ?_, hgoal, ?_⟩
  · have hplace := place?_resolveNode ctx hp []
    rwa [List.nil_append, resolveNode_string (hasOpening_reference _) hw] at hplace
  · have hposition : r.value.position? q = some goal := position?_resolveNode ctx hq []
    rw [Value.get?_eq_place?, hposition, Option.bind_some, hgoal, Option.map_some]

/-- A reference to an item that refers on. -/
theorem resolve_coherent_chained :
    let n : Value := .mapping [(.string "b", .string (reference "c")),
      (.string "d", .string ("x-" ++ reference "c"))]
    let document : Value := .mapping [(.string "a", .string (reference "xs.1")),
      (.string "xs", .sequence [.null, n]), (.string "c", .string "done")]
    let w : Value := .mapping [(.string "b", .string "done"), (.string "d", .string "x-done")]
    let p : List Text := ["a"]
    let q : List Text := ["xs", "1"]
    let r := resolve (fun _ => none) document
    (∀ s ∈ q, IsSegment s) ∧
    document.place? [0] = some (p, .string (reference (Text.joinWith "." q))) ∧
    document.position? q = some [1, 1] ∧ document.place? [1, 1] = some (q, n) ∧
    r.failures = [] ∧ r.value.place? [0] = some (p, w) ∧ r.value.get? q = some w := by
  intro n document w p q r
  have hseg : ∀ s ∈ q, IsSegment s := by decide +kernel
  have hsource : document.place? [0] = some (p, .string (reference (Text.joinWith "." q))) := by
    decide +kernel
  have hposition : document.position? q = some [1, 1] := by decide +kernel
  have hgoal : document.place? [1, 1] = some (q, n) := by decide +kernel
  have hfailures : r.failures = [] := by decide +kernel
  have hreported : ¬ Leaf.IsReported ⟨p, reference (Text.joinWith "." q)⟩ r.failures := by
    rw [hfailures]
    rintro ⟨f, hf, -⟩
    cases hf
  obtain ⟨-, v, hv, -, hget⟩ :=
    resolve_coherent (fun _ => none) document hseg hsource hposition hgoal hreported
  have hw : r.value.place? [0] = some (p, w) := by decide +kernel
  obtain rfl : v = w := (Prod.mk.inj (Option.some_inj.1 (hv.symm.trans hw))).2
  exact ⟨hseg, hsource, hposition, hgoal, hfailures, hv, hget⟩

end LayeredConfig.Interpolation
