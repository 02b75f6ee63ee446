import LayeredConfig.Proofs.Interpolation.References
import LayeredConfig.Proofs.Interpolation.Resolved

/-!
# References to a sibling

The mapping around a text is not passed along when its references are resolved. It is looked up
again from the root by its location, so that a reference to a sibling means the sibling if the
location leads back to the mapping. Where it does not, because of a null, tagged or compound key on
the way or of two keys that read the same, the reference fails or means an entry of another mapping.
-/
namespace LayeredConfig.Interpolation

open Text (joinWith)
open Outcome

variable {document : Value} {position : List Nat} {here : List Text} {es : Entries} {i : Nat}
  {k : Text} {v : Value}

/-- An entry under a string key is the one that its text names, if no other key reads the same. -/
theorem childIndex?_string (hkeys : (es.map Prod.fst).Nodup) (hi : es[i]? = some (.string k, v))
    (hreads : ∀ e ∈ es, e.1.matchesSegment k = true → e.1 = .string k) :
    (Value.mapping es).childIndex? k = some i := by
  obtain ⟨hlt, hentry⟩ := List.getElem?_eq_some_iff.1 hi
  refine List.findIdx?_eq_some_iff_getElem.2 ⟨hlt, ?_, fun j hj hmatches => ?_⟩
  · rw [hentry]
    exact Value.matchesSegment_iff.2 ⟨rfl, rfl⟩
  · have hne : es[j].1 ≠ es[i].1 :=
      List.pairwise_iff_getElem.1 (List.pairwise_map.1 hkeys) j i (by omega) hlt hj
    exact hne (by rw [hreads _ (List.getElem_mem _) hmatches, hentry])

/-- A reference to a sibling means it if and only if the location of the mapping leads back to the
mapping. -/
theorem position?_sibling (hM : document.place? position = some (here, .mapping es))
    (hname : (Value.mapping es).childIndex? k = some i) (hi : es[i]? = some (.string k, v)) :
    document.position? (here ++ [k]) = some (position ++ [i]) ↔ document.LeadsBack position := by
  have hchild : (Value.mapping es).position? [k] = some [i] := by
    rw [Value.position?, hname, Option.bind_some, Value.children, List.getElem?_map, hi]
    rfl
  rw [← Value.position?_eq_some_iff hM, Value.position?_append]
  constructor
  · intro h
    obtain ⟨p, hp, h⟩ := Option.bind_eq_some_iff.1 h
    obtain ⟨n, -, h⟩ := Option.bind_eq_some_iff.1 h
    obtain ⟨q, hq, h⟩ := Option.map_eq_some_iff.1 h
    obtain ⟨rfl, -⟩ := List.append_inj' h (Value.length_position? hq)
    exact hp
  · intro h
    rw [h, Option.bind_some, hM, Option.bind_some, hchild, Option.map_some]

/-- A reference to a sibling has the value of what is read under the sibling's key at the location
of the node. -/
theorem alone_sibling (ctx : Context) (hk : IsSegment k) (here : List Text) (t : Text) :
    ctx.alone (here ++ [t]) (reference ('.' :: k)) = (do
      let (key, node) ← enter ctx [] (here ++ [k])
      resolveAll (resolveText ctx 63 [key]) (here ++ [k]) node) := by
  have hbare : IsBare ('.' :: k) := List.forall_mem_cons.2 ⟨by decide, hk.isBare⟩
  rw [show ctx.alone _ _ = _ from resolveText_reference ctx hbare 63 [] (here ++ [t]),
    refer_of_target ctx hbare (target_sibling hk here t)]

/-- **A reference to a sibling stands for it where the location leads back.** A mapping of distinct
keys has an entry under `k`, with nothing in it to be resolved, and no other key that reads the
same, and in another entry it has the text that refers to the sibling `k`. The reference means that
entry if and only if the location of the mapping leads back to the mapping, and then the text
becomes the value of the entry. If nothing is read there, the text is left and reported. -/
theorem resolve_sibling (environment : Text → Option Text) (hk : IsSegment k)
    (hM : document.place? position = some (here, .mapping es)) (hkeys : (es.map Prod.fst).Nodup)
    (hi : es[i]? = some (.string k, v)) (hv : leaves (here ++ [k]) v = [])
    (hreads : ∀ e ∈ es, e.1.matchesSegment k = true → e.1 = .string k) {j : Nat} {t : Text}
    (hj : es[j]? = some (.string t, .string (reference ('.' :: k)))) :
    let r := resolve environment document
    let l : Leaf := ⟨here ++ [t], reference ('.' :: k)⟩
    (document.position? (here ++ [k]) = some (position ++ [i]) ↔ document.LeadsBack position) ∧
    (document.LeadsBack position →
      r.value.place? (position ++ [j]) = some (l.location, v) ∧ ¬ l.IsReported r.failures) ∧
    (document.get? (here ++ [k]) = none →
      r.value.place? (position ++ [j]) = some (l.location, .string l.text) ∧
      ⟨l.location, l.text, .notFound (joinWith "." (here ++ [k]))⟩ ∈ r.failures) := by
  intro r l
  let ctx : Context := ⟨document, environment⟩
  have hplace : ∀ {i : Nat} {k : Text} {v : Value}, es[i]? = some (.string k, v) →
      document.place? (position ++ [i]) = some (here ++ [k], v) := by
    intro i k v hi
    rw [Value.place?_concat hM, Value.children, List.getElem?_map, hi]
    rfl
  have hsibling := position?_sibling hM (childIndex?_string hkeys hi hreads) hi
  have hresolved : r.value.place? (position ++ [j]) =
      some (l.location, (resolveNode ctx l.location (.string l.text)).1) := by
    have h := place?_resolveNode ctx (hplace hj) []
    rwa [List.nil_append] at h
  have halone : ctx.alone l.location l.text = _ := alone_sibling ctx hk here t
  refine ⟨hsibling, fun hback => ?_, fun hnone => ?_⟩
  · have hget : document.get? (here ++ [k]) = some v := by
      rw [Value.get?_eq_place?, hsibling.2 hback, Option.bind_some, hplace hi, Option.map_some]
    have henter : enter ctx [] (here ++ [k]) = .ok (joinWith "." (here ++ [k]), v) :=
      enter_eq_ok.2 ⟨rfl, List.not_mem_nil, hget⟩
    rw [henter, ok_bind] at halone
    have halone : ctx.alone l.location l.text = .ok v :=
      halone.trans (resolveAll_of_leaves_eq_nil _ v hv)
    rw [resolveNode_string (hasOpening_reference _) halone] at hresolved
    refine ⟨hresolved, fun hreported => ?_⟩
    obtain ⟨-, reason, hreason⟩ : _ ∧ ∃ reason, ctx.alone l.location l.text = .error reason :=
      isReported_iff.1 hreported
    rw [halone] at hreason
    cases hreason
  · have henter : enter ctx [] (here ++ [k]) = .error (.notFound (joinWith "." (here ++ [k]))) := by
      unfold enter
      rw [show ctx.document.get? (here ++ [k]) = none from hnone]
      rfl
    rw [henter] at halone
    rw [resolveNode_string_error (hasOpening_reference _) halone] at hresolved
    have hleaf : l ∈ leaves [] document :=
      mem_leaves_iff.2 ⟨_, _, _, hplace hj, hasOpening_reference _, rfl⟩
    exact ⟨hresolved, mem_failures_iff.2 ⟨hleaf, halone⟩⟩

/-- The mapping is an item of a sequence, below a number. -/
theorem resolve_sibling_in_sequence :
    let es : Entries :=
      [(.string "host", .string "h"), (.string "url", .string (reference ".host"))]
    let document : Value := .mapping [(.string "servers",
      .sequence [.null, .mapping [(.number (.int 8080), .mapping es)]])]
    let here : List Text := ["servers", "1", "8080"]
    let l : Leaf := ⟨["servers", "1", "8080", "url"], reference ".host"⟩
    let r := resolve (fun _ => none) document
    IsSegment "host" ∧ document.place? [0, 1, 0] = some (here, .mapping es) ∧
    document.LeadsBack [0, 1, 0] ∧ r.value.place? [0, 1, 0, 1] = some (l.location, .string "h") ∧
    ¬ l.IsReported r.failures := by
  intro es document here l r
  have hk : IsSegment "host" := by decide +kernel
  have hM : document.place? [0, 1, 0] = some (here, .mapping es) := by decide +kernel
  have hback : document.LeadsBack [0, 1, 0] :=
    (Value.position?_eq_some_iff hM).1 (by decide +kernel)
  have hsibling := resolve_sibling (fun _ => none) hk hM (by decide +kernel)
    (show es[0]? = some (.string "host", .string "h") from rfl) (by decide +kernel)
    (by decide +kernel)
    (show es[1]? = some (.string "url", .string (reference ".host")) from rfl)
  exact ⟨hk, hM, hback, (hsibling.2.1 hback).1, (hsibling.2.1 hback).2⟩

/-- Below a null, a reference to a sibling is not found, and below a text that reads the same as a
number before it, the reference means an entry of the mapping below the number. -/
theorem resolve_sibling_astray :
    let es : Entries := [(.string "a", .string "x"), (.string "b", .string (reference ".a"))]
    let nulled : Value := .mapping [(.null, .mapping es)]
    let doubled : Value := .mapping [(.number (.int 1), .mapping [(.string "a", .string "y")]),
      (.string "1", .mapping es)]
    (resolve (fun _ => none) nulled).failures =
      [⟨["null", "b"], reference ".a", .notFound "null.a"⟩] ∧
    (resolve (fun _ => none) nulled).value = nulled ∧
    (resolve (fun _ => none) doubled).failures = [] ∧
    (resolve (fun _ => none) doubled).value.place? [1, 1] =
      some ((["1", "b"] : List Text), .string "y") := by
  decide +kernel

end LayeredConfig.Interpolation
