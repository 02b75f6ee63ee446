import LayeredConfig.Proofs.Interpolation.Expansion
import LayeredConfig.Proofs.Interpolation.References
import LayeredConfig.Proofs.Interpolation.Resolved

/-!
# Complete resolutions

A resolution without failures says of every text that is reached through mappings and sequences that
it has been resolved. It says nothing of the texts under a tag, because what stands under a tag is
neither resolved nor reported. Keys are left as they are too.
-/
namespace LayeredConfig

namespace Value

/-- A step down from a node: to one of its children, or to what stands under its tag. -/
inductive Step where
  | child (index : Nat)
  | content
deriving DecidableEq

/-- What a way leads to: its location and the node. A tag has no part in a location. -/
def reach? : (v : Value) → (way : List Step) → Option (List Text × Value)
  | v, [] => some ([], v)
  | v, .child i :: way =>
    v.children[i]?.bind fun c => (c.2.reach? way).map fun p => (c.1 :: p.1, p.2)
  | .tagged _ v, .content :: way => v.reach? way
  | _, .content :: _ => none

theorem reach?_child (v : Value) (i : Nat) (way : List Step) : v.reach? (.child i :: way) =
    v.children[i]?.bind fun c => (c.2.reach? way).map fun p => (c.1 :: p.1, p.2) := by
  rw [reach?]

/-- Without a step under a tag, a way is a position. -/
theorem reach?_eq_place? (v : Value) (position : List Nat) :
    v.reach? (position.map .child) = v.place? position := by
  induction position generalizing v with
  | nil => rw [List.map_nil, reach?, place?]
  | cons i position ih =>
    rw [List.map_cons, reach?_child, place?]
    simp only [ih]

/-- Only a tagged node has something under its tag. -/
theorem exists_tagged_of_reach? {v : Value} {way : List Step} {p : List Text × Value}
    (h : v.reach? (.content :: way) = some p) : ∃ t w, v = .tagged t w := by
  cases v with
  | tagged t w => exact ⟨t, w, rfl⟩
  | _ =>
    rw [reach?] at h
    · cases h
    · simp

end Value

namespace Interpolation

/-- A body needs an opening. -/
theorem hasOpening_append (front back : Text) : hasOpening (front ++ (opening ++ back)) = true := by
  unfold hasOpening
  induction front with
  | nil => rfl
  | cons c front ih => rw [List.cons_append, Text.holds, ih, Bool.or_true]

theorem hasOpening_of_hasInterpolation {s : Text} (h : hasInterpolation s = true) :
    hasOpening s = true := by
  obtain ⟨ps, hps, hbodies⟩ := (Option.any_eq_true ..).1 h
  obtain ⟨p, hp, hbody⟩ := List.any_eq_true.1 hbodies
  obtain ⟨front, back, rfl⟩ := List.append_of_mem hp
  cases p with
  | body e =>
    rw [← source_pieces? hps, List.flatMap_append, List.flatMap_cons, Piece.source, reference,
      List.append_assoc, List.append_assoc]
    exact hasOpening_append _ _
  | _ => cases hbody

variable {ctx : Context}

/-- **A node is resolved where it stands, unless it stands under a tag.** -/
theorem reach?_resolveNode (ctx : Context) {v : Value} {way : List Value.Step} {there : List Text}
    {n : Value} (h : v.reach? way = some (there, n)) (here : List Text) :
    (resolveNode ctx here v).1.reach? way =
      some (there, if .content ∈ way then n else (resolveNode ctx (here ++ there) n).1) := by
  induction way generalizing v here there with
  | nil =>
    rw [Value.reach?] at h ⊢
    cases h
    rw [List.append_nil]
    rfl
  | cons step way ih =>
    cases step with
    | child i =>
      rw [Value.reach?_child] at h
      obtain ⟨c, hc, h⟩ := Option.bind_eq_some_iff.1 h
      obtain ⟨⟨rest, n⟩, hn, h⟩ := Option.map_eq_some_iff.1 h
      cases h
      have hrest := ih hn (here ++ [c.1])
      rw [List.append_assoc, List.singleton_append] at hrest
      rw [Value.reach?_child, children_resolveNode hc, Option.bind_some, hrest, Option.map_some]
      simp
    | content =>
      -- Nothing under a tag is changed, whatever the rest of the way is.
      obtain ⟨t, w, rfl⟩ := Value.exists_tagged_of_reach? h
      have hkept : (resolveNode ctx here (.tagged t w)).1 = .tagged t w := by
        rw [resolveNode] <;> simp
      rw [hkept, h, if_pos List.mem_cons_self]

/-- A way without a step under a tag leads to a text that is to be resolved. -/
theorem mem_leaves_of_reach? {document : Value} {way : List Value.Step} {here : List Text}
    {s : Text}
    (h : document.reach? way = some (here, .string s)) (hway : .content ∉ way)
    (hs : hasOpening s = true) : ⟨here, s⟩ ∈ leaves [] document := by
  obtain ⟨position, rfl⟩ : ∃ position : List Nat, way = position.map .child := by
    refine ⟨way.filterMap fun | .child i => some i | .content => none, ?_⟩
    clear h
    revert hway
    induction way with
    | nil => exact fun _ => rfl
    | cons step way ih =>
      intro hway
      obtain ⟨hstep, hrest⟩ := not_or.1 (mt List.mem_cons.2 hway)
      cases step with
      | child i => exact congrArg (Value.Step.child i :: ·) (ih hrest)
      | content => exact absurd rfl hstep
  rw [Value.reach?_eq_place?] at h
  exact mem_leaves_iff.2 ⟨position, here, s, h, hs, rfl⟩

/-- **A complete resolution has resolved every text that does not stand under a tag, and no other.**
Without failures, a text with interpolations has become its value if no tag is on the way to it, and
has been left where one is. So it is still there only if it stands for itself, for all texts except
those under a tag that stand for something else or have no value. -/
theorem resolve_complete_iff (environment : Text → Option Text) {document : Value}
    (hcomplete : (resolve environment document).failures = []) {way : List Value.Step}
    {here : List Text}
    {s : Text} (h : document.reach? way = some (here, .string s)) (hs : hasInterpolation s = true) :
    let ctx : Context := ⟨document, environment⟩
    let r := resolve environment document
    (.content ∉ way → ∃ w, ctx.alone here s = .ok w ∧ r.value.reach? way = some (here, w)) ∧
    (.content ∈ way → r.value.reach? way = some (here, .string s)) ∧
    ((r.value.reach? way = some (here, .string s) → ctx.alone here s = .ok (.string s)) ↔
      .content ∉ way ∨ ctx.alone here s = .ok (.string s)) := by
  intro ctx r
  have hopen := hasOpening_of_hasInterpolation hs
  have hreach : r.value.reach? way = _ := reach?_resolveNode ctx h []
  rw [List.nil_append] at hreach
  have hresolved : .content ∉ way →
      ∃ w, ctx.alone here s = .ok w ∧ r.value.reach? way = some (here, w) := by
    intro hway
    have hunreported : ¬ (⟨here, s⟩ : Leaf).IsReported (resolveNode ctx [] document).2 := by
      rintro ⟨f, hf, -⟩
      rw [show (resolveNode ctx [] document).2 = [] from hcomplete] at hf
      cases hf
    obtain ⟨w, hw⟩ := exists_value_of_not_isReported (mem_leaves_of_reach? h hway hopen) hunreported
    rw [if_neg hway, resolveNode_string hopen hw] at hreach
    exact ⟨w, hw, hreach⟩
  have hleft : .content ∈ way → r.value.reach? way = some (here, .string s) := by
    intro hway
    rw [hreach, if_pos hway]
  refine ⟨hresolved, hleft, fun himp => ?_, ?_⟩
  · by_cases hway : .content ∈ way
    · exact Or.inr (himp (hleft hway))
    · exact Or.inl hway
  · rintro (hway | hself) hthere
    · obtain ⟨w, hw, hreached⟩ := hresolved hway
      rw [hthere] at hreached
      cases hreached
      exact hw
    · exact hself

/-- A text beside a tagged one that is left. -/
theorem resolve_complete_iff_beside :
    let document : Value :=
      .mapping [(.string "a", .sequence [.tagged "t" (.string (reference "b")),
      .string (reference "b")]), (.string "b", .number (.int 1))]
    let way : List Value.Step := [.child 0, .child 1]
    let here : List Text := ["a", "1"]
    let ctx : Context := ⟨document, fun _ => none⟩
    let r := resolve (fun _ => none) document
    r.failures = [] ∧ document.reach? way = some (here, .string (reference "b")) ∧
    hasInterpolation (reference "b") = true ∧
    ctx.alone here (reference "b") = .ok (.number (.int 1)) ∧
    r.value.reach? way = some (here, .number (.int 1)) := by
  intro document way here ctx r
  have hcomplete : r.failures = [] := by decide +kernel
  have hreach : document.reach? way = some (here, .string (reference "b")) := by decide +kernel
  have hs : hasInterpolation (reference "b") = true := by decide +kernel
  obtain ⟨w, hw, hresolved⟩ := (resolve_complete_iff _ hcomplete hreach hs).1 (by decide)
  have hone : ctx.alone here (reference "b") = .ok (.number (.int 1)) :=
    Outcome.toOption_eq_some.1 (by decide +kernel)
  cases hone.symm.trans hw
  exact ⟨hcomplete, hreach, hs, hone, hresolved⟩

/-- **A resolution may be complete and leave a reference under a tag**, which stands for something
else. -/
theorem resolve_complete_tagged :
    let document : Value := .mapping [(.string "a", .tagged "t" (.string (reference "b"))),
      (.string "b", .number (.int 1))]
    let way : List Value.Step := [.child 0, .content]
    let here : List Text := ["a"]
    let ctx : Context := ⟨document, fun _ => none⟩
    let r := resolve (fun _ => none) document
    r.failures = [] ∧ hasInterpolation (reference "b") = true ∧
    document.reach? way = some (here, .string (reference "b")) ∧
    r.value.reach? way = some (here, .string (reference "b")) ∧
    ctx.alone here (reference "b") = .ok (.number (.int 1)) := by
  refine ⟨?_, ?_, ?_, ?_, Outcome.toOption_eq_some.1 ?_⟩ <;> decide +kernel

end Interpolation
end LayeredConfig
