import LayeredConfig.Proofs.Document.Keys
import LayeredConfig.Proofs.Outcome
import LayeredConfig.Yaml.Reader

/-!
# Documents that have been read

Reading refuses a mapping with a repeated key at every level, so that the value of a document has
none. References do not matter, because what they refer to is built by the same rules.
-/
namespace LayeredConfig.Yaml

open Outcome

theorem distinct_of_hasRepeatedKey {es : Entries} (h : hasRepeatedKey es = false) :
    Entries.Distinct es := by
  induction es with
  | nil => exact List.Pairwise.nil
  | cons e rest ih =>
    rw [hasRepeatedKey, Bool.or_eq_false_iff, Entries.has_eq_isSome] at h
    exact Entries.distinct_cons.2 ⟨Option.not_isSome_iff_eq_none.1 (by simp [h.1]), ih h.2⟩

/-- What holds of every result of a step holds of all items read in turn. -/
theorem inTurn_all {α β : Type} {f : α → Nat → Except Fault (β × Nat)} {P : β → Prop}
    (hf : ∀ x k y k', f x k = .ok (y, k') → P y) {xs : List α} {k k' : Nat} {ys : List β}
    (h : inTurn f xs k = .ok (ys, k')) : ∀ y ∈ ys, P y := by
  induction xs generalizing k ys with
  | nil =>
    cases h
    simp
  | cons x xs ih =>
    obtain ⟨⟨y, k₁⟩, hy, h⟩ := bind_eq_ok.1 h
    obtain ⟨⟨zs, k₂⟩, hzs, h⟩ := bind_eq_ok.1 h
    cases h
    exact List.forall_mem_cons.2 ⟨hf _ _ _ _ hy, ih hzs⟩

theorem plain?_keyed {s : Text} {v : Value} (h : Scalar.plain? s = some v) : v.Keyed := by
  unfold Scalar.plain? at h
  split at h
  · cases h; trivial
  split at h
  · cases h; trivial
  split at h
  · cases h; trivial
  split at h
  · cases h
  split at h
  · cases h; trivial
  split at h <;> (cases h; trivial)

theorem orMistyped_eq_ok {o : Option Value} {v : Value} : orMistyped o = .ok v ↔ o = some v := by
  cases o <;> simp [orMistyped]

theorem scalarValue_keyed {tag : Option Text} {s : Text} {plain : Bool} {v : Value}
    (h : scalarValue tag s plain = .ok v) : v.Keyed := by
  have huntagged : ∀ w, orMistyped (if plain then Scalar.plain? s else some (.string s)) = .ok w →
      w.Keyed := by
    intro w hw
    rw [orMistyped_eq_ok] at hw
    split at hw
    · exact plain?_keyed hw
    · cases hw; trivial
  unfold scalarValue at h
  dsimp only at h
  split at h
  · obtain ⟨w, hw, rfl⟩ := map_eq_ok.1 h
    exact huntagged w hw
  · exact huntagged v h
  · split at h
    · obtain ⟨b, -, rfl⟩ := Option.map_eq_some_iff.1 (orMistyped_eq_ok.1 h)
      trivial
    split at h
    · obtain ⟨i, -, rfl⟩ := Option.map_eq_some_iff.1 (orMistyped_eq_ok.1 h)
      trivial
    split at h
    · obtain ⟨d, -, rfl⟩ := Option.map_eq_some_iff.1 (orMistyped_eq_ok.1 h)
      trivial
    split at h
    · rw [orMistyped_eq_ok] at h
      split at h
      · cases h; trivial
      · cases h
    · cases h; trivial

theorem withTag_keyed {tag : Option Text} {v : Value} (h : v.Keyed) : (withTag tag v).Keyed := by
  unfold withTag
  split
  · exact h
  · exact h

theorem pair_keyed {value : Node → Nat → Except Fault (Value × Nat)}
    (hv : ∀ n k v k', value n k = .ok (v, k') → v.Keyed) {e : Node × Node} {k k' : Nat}
    {p : Value × Value} (h : build.pair value e k = .ok (p, k')) : p.1.Keyed ∧ p.2.Keyed := by
  obtain ⟨⟨l, k₁⟩, hl, h⟩ := bind_eq_ok.1 h
  obtain ⟨⟨w, k₂⟩, hw, h⟩ := bind_eq_ok.1 h
  cases h
  exact ⟨hv _ _ _ _ hl, hv _ _ _ _ hw⟩

theorem build_keyed (a : Anchors) {depth : Nat} {n : Node} {k k' : Nat} {v : Value}
    (h : build a depth n k = .ok (v, k')) : v.Keyed := by
  induction depth generalizing n k k' v with
  | zero =>
    rw [build] at h
    obtain ⟨⟨m, k₁⟩, -, h⟩ := bind_eq_ok.1 h
    cases m with
    | scalar anchor tag s plain =>
      obtain ⟨w, hw, h⟩ := bind_eq_ok.1 h
      cases h
      exact scalarValue_keyed hw
    | _ => cases h
  | succ depth ih =>
    rw [build] at h
    obtain ⟨⟨m, k₁⟩, -, h⟩ := bind_eq_ok.1 h
    cases m with
    | reference r => cases h
    | scalar anchor tag s plain =>
      obtain ⟨w, hw, h⟩ := bind_eq_ok.1 h
      cases h
      exact scalarValue_keyed hw
    | sequence anchor tag items =>
      obtain ⟨⟨vs, k₂⟩, hvs, h⟩ := bind_eq_ok.1 h
      cases h
      exact withTag_keyed (Value.keyedItems_iff.2 (inTurn_all (fun _ _ _ _ => ih) hvs))
    | mapping anchor tag entries =>
      obtain ⟨⟨es, k₂⟩, hes, h⟩ := bind_eq_ok.1 h
      have hall := inTurn_all (fun _ _ _ _ => pair_keyed fun _ _ _ _ => ih) hes
      dsimp only at h
      split at h
      · cases h
      next hrep =>
        cases h
        have hd : Entries.Distinct es := distinct_of_hasRepeatedKey (Bool.eq_false_iff.2 hrep)
        exact withTag_keyed (Value.keyed_mapping.2 ⟨hd, hall⟩)

/-- No mapping of a document that has been read has a key twice. -/
theorem read_keyed {s : Text} {v : Value} (h : read s = .ok v) : v.Keyed := by
  obtain ⟨ts, -, h⟩ := bind_eq_ok.1 h
  obtain ⟨n, -, h⟩ := bind_eq_ok.1 h
  obtain ⟨⟨w, k⟩, hw, h⟩ := bind_eq_ok.1 h
  cases h
  exact build_keyed _ hw

end LayeredConfig.Yaml
