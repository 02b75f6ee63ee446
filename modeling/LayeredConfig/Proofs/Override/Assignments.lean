import LayeredConfig.Override.Basic

/-!
# Assignments among overrides

An override is read with its sign first and cut at the equals sign then. A plain assignment is cut
first and loses its sign afterwards. Both find the same key and the same text: the assignments are
the overrides that remove nothing.
-/
namespace LayeredConfig

namespace Override

/-- The assignment that an override makes; a removal makes none. -/
def assignment? (o : Override) : Option Assignment :=
  match o.kind with
  | .delete => none
  | _ => o.value.map (o.key, ·)

theorem assignment?_eq_some {o : Override} {key value : Text} :
    o.assignment? = some (key, value) ↔ o.kind ≠ .delete ∧ o.key = key ∧ o.value = some value := by
  obtain ⟨kind, key', value'⟩ := o
  cases kind <;> cases value' <;> simp [assignment?]

/-- What a text without a sign assigns. -/
def assigned? (body : Text) : Option Assignment :=
  (Text.splitFirst '=' body).bind fun p => (key? p.1).map (·, p.2)

theorem parseRemoval_kind {body : Text} {o : Override} (h : parseRemoval body = some o) :
    o.kind = .delete := by
  obtain ⟨key, -, rfl⟩ := Option.map_eq_some_iff.1 h
  rfl

theorem parseChange_value {kind : OverrideKind} {body : Text} {o : Override}
    (h : parseChange kind body = some o) : o.value ≠ none := by
  obtain ⟨p, -, h⟩ := Option.bind_eq_some_iff.1 h
  obtain ⟨key, -, h⟩ := Option.bind_eq_some_iff.1 h
  cases h
  exact Option.some_ne_none _

/-- Only a removal can be without a value. -/
theorem parse?_value {raw : Text} {o : Override} (h : parse? raw = some o) :
    o.kind = .delete ∨ o.value ≠ none := by
  unfold parse? at h
  split at h
  · exact Or.inl (parseRemoval_kind h)
  · exact Or.inr (parseChange_value h)
  · exact Or.inr (parseChange_value h)
  · exact Or.inr (parseChange_value h)

/-- An override that has been read makes an assignment unless it is a removal. -/
theorem assignment?_eq_none {raw : Text} {o : Override} (h : parse? raw = some o) :
    o.assignment? = none ↔ o.kind = .delete := by
  have hvalue := parse?_value h
  obtain ⟨kind, key, value⟩ := o
  cases kind <;> simp_all [assignment?]

theorem bind_parseRemoval (body : Text) : (parseRemoval body).bind assignment? = none := by
  refine Option.bind_eq_none_iff.2 fun o ho => ?_
  rw [assignment?, parseRemoval_kind ho]

theorem bind_parseChange {kind : OverrideKind} (hkind : kind ≠ .delete) (body : Text) :
    (parseChange kind body).bind assignment? = assigned? body := by
  unfold parseChange assigned?
  cases Text.splitFirst '=' body with
  | none => rfl
  | some p =>
    obtain ⟨k, v⟩ := p
    cases hkey : key? k with
    | none => simp [hkey]
    | some key => cases kind <;> simp_all [assignment?]

end Override

namespace Assignment

open Override (key? assigned? assignment?)

/-- A key without the sign of an addition. -/
def unsigned : Text → Text
  | '+' :: '+' :: key => key
  | '+' :: key => key
  | key => key

theorem unsigned_eq_self {s : Text} (h : s.head? ≠ some '+') : unsigned s = s := by
  cases s with
  | nil => rfl
  | cons c s => simp_all [unsigned]

theorem unsigned_plus {s : Text} (h : s.head? ≠ some '+') : unsigned ('+' :: s) = s := by
  cases s with
  | nil => rfl
  | cons c s => simp_all [unsigned]

/-- The key of a text has a sign only if the text has it. -/
theorem head?_of_splitFirst {s key value : Text} (h : Text.splitFirst '=' s = some (key, value))
    (hs : s.head? ≠ some '+') : key.head? ≠ some '+' := by
  obtain ⟨rfl, -⟩ := Text.splitFirst_eq_some h
  cases key with
  | nil => simp
  | cons c key => exact hs

theorem splitFirst_plus (s : Text) : Text.splitFirst '=' ('+' :: s) =
    (Text.splitFirst '=' s).map fun p => ('+' :: p.1, p.2) := by
  rw [Text.splitFirst, if_neg (by decide)]

/-- Whether the sign is dropped from the key or from the text that is cut makes no difference. -/
theorem bind_unsigned (s : Text) :
    ((Text.splitFirst '=' s).bind fun p => (key? (unsigned p.1)).map (·, p.2)) =
      assigned? (unsigned s) := by
  by_cases hs : s.head? = some '+'
  · obtain ⟨r, rfl⟩ := List.head?_eq_some_iff.1 hs
    by_cases hr : r.head? = some '+'
    · obtain ⟨body, rfl⟩ := List.head?_eq_some_iff.1 hr
      have hbody : unsigned ('+' :: '+' :: body) = body := rfl
      rw [splitFirst_plus, splitFirst_plus, hbody, assigned?]
      cases Text.splitFirst '=' body with
      | none => rfl
      | some p => rfl
    · rw [splitFirst_plus, unsigned_plus hr, assigned?]
      cases hcut : Text.splitFirst '=' r with
      | none => rfl
      | some p => simp [unsigned_plus (head?_of_splitFirst hcut hr)]
  · rw [unsigned_eq_self hs, assigned?]
    cases hcut : Text.splitFirst '=' s with
    | none => rfl
    | some p => simp [unsigned_eq_self (head?_of_splitFirst hcut hs)]

/-- A plain assignment: what stands behind the sign, unless that is the sign of a removal. -/
theorem parse?_eq (raw : Text) : parse? raw =
    if (Text.trim raw).head? = some '~' then none else assigned? (unsigned (Text.trim raw)) := by
  rw [← bind_unsigned, parse?]
  split
  · rfl
  · cases Text.splitFirst '=' (Text.trim raw) with
    | none => rfl
    | some p =>
      show (key? (unsigned p.1)).bind (fun key => some (key, p.2)) =
        (key? (unsigned p.1)).map (·, p.2)
      exact Option.map_eq_bind.symm

/-- An override, as far as it assigns: the same. -/
theorem bind_parse? (raw : Text) : (Override.parse? raw).bind assignment? =
    if (Text.trim raw).head? = some '~' then none else assigned? (unsigned (Text.trim raw)) := by
  unfold Override.parse?
  split
  · next body heq => simp [heq, Override.bind_parseRemoval]
  · next body heq => simp [heq, unsigned, Override.bind_parseChange]
  · next body hplus heq =>
    have hbody : body.head? ≠ some '+' := fun h => by
      obtain ⟨r, rfl⟩ := List.head?_eq_some_iff.1 h
      exact hplus r rfl
    simp [heq, unsigned_plus hbody, Override.bind_parseChange]
  · next body htilde hplusplus hplus =>
    have hremoval : (Text.trim raw).head? ≠ some '~' := fun h => by
      obtain ⟨r, heq⟩ := List.head?_eq_some_iff.1 h
      exact htilde r heq
    have haddition : (Text.trim raw).head? ≠ some '+' := fun h => by
      obtain ⟨r, heq⟩ := List.head?_eq_some_iff.1 h
      exact hplus r heq
    rw [if_neg hremoval, unsigned_eq_self haddition]
    exact Override.bind_parseChange (by decide) _

/-- **Both readings of an override agree.** A text is a plain assignment of a value to a key if it
is an override that removes nothing, with this key and this value. It is none if it is no override
or a removal. So the plain assignments among texts are those that the overrides among them make. -/
theorem parse?_agrees :
    (∀ raw key value, parse? raw = some (key, value) ↔
      ∃ o, Override.parse? raw = some o ∧ o.kind ≠ .delete ∧ o.key = key ∧ o.value = some value) ∧
    (∀ raw, parse? raw = none ↔ ∀ o, Override.parse? raw = some o → o.kind = .delete) ∧
    ∀ raws : List Text, raws.filterMap parse? =
      (raws.filterMap Override.parse?).filterMap assignment? := by
  have heq : ∀ raw, parse? raw = (Override.parse? raw).bind assignment? := fun raw =>
    (parse?_eq raw).trans (bind_parse? raw).symm
  refine ⟨fun raw key value => ?_, fun raw => ?_, fun raws => ?_⟩
  · rw [heq, Option.bind_eq_some_iff]
    exact exists_congr fun o => and_congr_right fun _ => Override.assignment?_eq_some
  · rw [heq, Option.bind_eq_none_iff]
    exact forall_congr' fun o => imp_congr_right Override.assignment?_eq_none
  · rw [List.filterMap_filterMap]
    exact congrArg (List.filterMap · raws) (funext heq)

end Assignment
end LayeredConfig
