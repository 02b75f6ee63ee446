import LayeredConfig.Proofs.Override.Assignments
import LayeredConfig.Proofs.Text.Trimmed

/-!
# Overrides as they are written

An override that has been read is written without the white space around it and around its key. What
is written reads as the same override, as the first character of the key tells the sign and the key
apart. Only the sign `+` in front of a key that begins with `+` is taken for `++`.
-/
namespace LayeredConfig.Override

open Text (IsTrimmed isTrimmed_trim splitFirst)

/-- A key that is found again where it is written. -/
structure IsKey (key : Text) : Prop where
  ne_nil : key ≠ []
  trimmed : IsTrimmed key
  noEquals : '=' ∉ key

/-- The equals sign and the value. -/
def valueText : Option Text → Text
  | some v => '=' :: v
  | none => []

variable {raw body : Text} {kind : OverrideKind} {o : Override}

theorem text_eq (o : Override) : o.text = sign o.kind ++ (o.key ++ valueText o.value) := by
  obtain ⟨kind, key, value⟩ := o
  cases value <;> simp [text, valueText]

theorem key?_eq_some {s key : Text} : key? s = some key ↔ Text.trim s = key ∧ key ≠ [] := by
  rw [key?]
  split
  · next h =>
    simp only [reduceCtorEq, false_iff, not_and, not_not]
    rintro rfl
    exact List.isEmpty_iff.1 h
  · next h =>
    rw [Option.some.injEq]
    refine ⟨?_, And.left⟩
    rintro rfl
    exact ⟨rfl, fun hnil => h (List.isEmpty_iff.2 hnil)⟩

theorem IsKey.key? {key : Text} (h : IsKey key) : key? key = some key :=
  key?_eq_some.2 ⟨h.trimmed.trim, h.ne_nil⟩

theorem isKey_trim {k : Text} (hk : '=' ∉ k) (hne : Text.trim k ≠ []) : IsKey (Text.trim k) :=
  ⟨hne, isTrimmed_trim k, fun h => hk (Text.mem_of_mem_trim h)⟩

/-- What stands behind the sign of an override: its key, perhaps in white space, and its value. -/
def Spells (body : Text) (o : Override) : Prop :=
  ∃ k, body = k ++ valueText o.value ∧ o.key = Text.trim k ∧ IsKey o.key

theorem spells_of_parseRemoval (h : parseRemoval body = some o) : Spells body o := by
  unfold parseRemoval at h
  cases hcut : splitFirst '=' body with
  | none =>
    rw [hcut] at h
    obtain ⟨key, hkey, rfl⟩ := Option.map_eq_some_iff.1 h
    obtain ⟨rfl, hne⟩ := key?_eq_some.1 hkey
    exact ⟨body, (List.append_nil _).symm, rfl, isKey_trim (Text.splitFirst_eq_none_iff.1 hcut) hne⟩
  | some p =>
    rw [hcut] at h
    obtain ⟨key, hkey, rfl⟩ := Option.map_eq_some_iff.1 h
    obtain ⟨rfl, hne⟩ := key?_eq_some.1 hkey
    obtain ⟨rfl, hnot⟩ := Text.splitFirst_eq_some hcut
    exact ⟨p.1, rfl, rfl, isKey_trim hnot hne⟩

theorem spells_of_parseChange (h : parseChange kind body = some o) :
    o.kind = kind ∧ Spells body o := by
  obtain ⟨p, hcut, h⟩ := Option.bind_eq_some_iff.1 h
  obtain ⟨key, hkey, h⟩ := Option.bind_eq_some_iff.1 h
  cases h
  obtain ⟨rfl, hne⟩ := key?_eq_some.1 hkey
  obtain ⟨rfl, hnot⟩ := Text.splitFirst_eq_some hcut
  exact ⟨rfl, p.1, rfl, rfl, isKey_trim hnot hne⟩

/-- A text that is read as an override is its sign and what spells it. Without a sign it begins with
none. -/
theorem exists_spells (h : parse? raw = some o) :
    ∃ body, Text.trim raw = sign o.kind ++ body ∧ Spells body o ∧
    (o.kind = .assign → body.head? ≠ some '~' ∧ body.head? ≠ some '+') := by
  unfold parse? at h
  split at h
  · next body heq =>
    have hkind := parseRemoval_kind h
    exact ⟨body, by rw [heq, hkind]; rfl, spells_of_parseRemoval h, by simp [hkind]⟩
  · next body heq =>
    obtain ⟨hkind, hspells⟩ := spells_of_parseChange h
    exact ⟨body, by rw [heq, hkind]; rfl, hspells, by simp [hkind]⟩
  · next body _ heq =>
    obtain ⟨hkind, hspells⟩ := spells_of_parseChange h
    exact ⟨body, by rw [heq, hkind]; rfl, hspells, by simp [hkind]⟩
  · next htilde _ hplus =>
    obtain ⟨hkind, hspells⟩ := spells_of_parseChange h
    refine ⟨Text.trim raw, by rw [hkind]; rfl, hspells, fun _ => ⟨fun hhead => ?_, fun hhead => ?_⟩⟩
    · obtain ⟨r, heq⟩ := List.head?_eq_some_iff.1 hhead
      exact htilde r heq
    · obtain ⟨r, heq⟩ := List.head?_eq_some_iff.1 hhead
      exact hplus r heq

/-- What is known of an override that has been read. -/
structure IsRead (o : Override) : Prop where
  key : IsKey o.key
  /-- Only a removal can be without a value. -/
  value : o.kind = .delete ∨ o.value ≠ none
  /-- No white space stands at the end of the value. -/
  valueEnd : ∀ v c, o.value = some v → v.getLast? = some c → Text.isBlank c = false
  /-- Without a sign, the key does not begin like one. -/
  unsigned : o.kind = .assign → o.key.head? ≠ some '~' ∧ o.key.head? ≠ some '+'

theorem isRead_of_parse? (h : parse? raw = some o) : IsRead o := by
  obtain ⟨body, hraw, ⟨k, rfl, hkey, hiskey⟩, hunsigned⟩ := exists_spells h
  have htrimmed : IsTrimmed (sign o.kind ++ (k ++ valueText o.value)) := hraw ▸ isTrimmed_trim raw
  refine ⟨hiskey, parse?_value h, fun v c hv hc => htrimmed.last c ?_, fun hkind => ?_⟩
  · rw [hv, ← List.append_assoc, List.getLast?_append, valueText, List.getLast?_cons, hc]
    rfl
  · -- The key begins where the whole text begins, which is not at white space.
    obtain ⟨c, r, rfl⟩ : ∃ c r, k = c :: r := by
      refine List.exists_cons_of_ne_nil ?_
      rintro rfl
      exact hiskey.ne_nil hkey
    have hhead : o.key.head? = some c := by
      have hne := hiskey.ne_nil
      rw [hkey] at hne ⊢
      refine Text.head?_trim (fun d hd => ?_) hne
      rw [hkind] at htrimmed
      exact htrimmed.first d hd
    rw [hhead]
    exact hunsigned hkind

theorem splitFirst_key {key : Text} (h : '=' ∉ key) (v : Text) :
    splitFirst '=' (key ++ '=' :: v) = some (key, v) := by
  induction key with
  | nil => rw [List.nil_append, splitFirst, if_pos rfl]
  | cons c key ih =>
    obtain ⟨hc, hkey⟩ := not_or.1 (mt List.mem_cons.2 h)
    rw [List.cons_append, splitFirst, if_neg (Ne.symm hc), ih hkey]
    rfl

theorem IsKey.parseRemoval {key : Text} (h : IsKey key) (value : Option Text) :
    parseRemoval (key ++ valueText value) = some ⟨.delete, key, value⟩ := by
  cases value with
  | none =>
    rw [valueText, List.append_nil, Override.parseRemoval, Text.splitFirst_eq_none_iff.2 h.noEquals]
    simp [h.key?]
  | some v =>
    rw [valueText, Override.parseRemoval, splitFirst_key h.noEquals]
    simp [h.key?]

theorem IsKey.parseChange {key : Text} (h : IsKey key) (kind : OverrideKind) (v : Text) :
    parseChange kind (key ++ valueText (some v)) = some ⟨kind, key, some v⟩ := by
  rw [valueText, Override.parseChange, splitFirst_key h.noEquals]
  simp [h.key?]

theorem IsRead.isTrimmed_text (h : IsRead o) : IsTrimmed o.text := by
  rw [text_eq]
  obtain ⟨c, key, hkey⟩ := List.exists_cons_of_ne_nil h.key.ne_nil
  constructor
  · intro d hd
    cases hkind : o.kind with
    | assign =>
      rw [hkind, hkey] at hd
      exact h.key.trimmed.first d (hkey ▸ hd)
    | append | forceAdd | delete =>
      rw [hkind] at hd
      cases hd
      decide
  · intro d hd
    cases hvalue : o.value with
    | none =>
      rw [hvalue, valueText, List.append_nil, hkey, List.getLast?_append, List.getLast?_cons] at hd
      refine h.key.trimmed.last d ?_
      rw [hkey, List.getLast?_cons, ← hd]
      rfl
    | some v =>
      rw [hvalue, ← List.append_assoc, List.getLast?_append, valueText, List.getLast?_cons] at hd
      cases hv : v.getLast? with
      | none =>
        rw [hv] at hd
        cases hd
        decide
      | some e =>
        rw [hv] at hd
        cases hd
        exact h.valueEnd v _ hvalue hv

theorem parse?_plain {s : Text} (htilde : s.head? ≠ some '~') (hplus : s.head? ≠ some '+')
    (htrim : IsTrimmed s) : parse? s = parseChange .assign s := by
  rw [parse?, htrim.trim]
  split
  · exact absurd rfl htilde
  · exact absurd rfl hplus
  · exact absurd rfl hplus
  · rfl

/-- One `+` is taken for itself if no other one follows. -/
theorem parse?_plus {body : Text} (hplus : body.head? ≠ some '+')
    (htrim : IsTrimmed ('+' :: body)) :
    parse? ('+' :: body) = parseChange .append body := by
  rw [parse?, htrim.trim]
  split
  · next heq => cases heq
  · next heq =>
    cases heq
    exact absurd rfl hplus
  · next heq =>
    cases heq
    rfl
  · next hnot => exact absurd rfl (hnot body)

theorem parse?_plusPlus {body : Text} (htrim : IsTrimmed ('+' :: '+' :: body)) :
    parse? ('+' :: '+' :: body) = parseChange .forceAdd body := by
  rw [parse?, htrim.trim]
  rfl

theorem parse?_tilde {body : Text} (htrim : IsTrimmed ('~' :: body)) :
    parse? ('~' :: body) = parseRemoval body := by
  rw [parse?, htrim.trim]
  rfl

/-- **An override that has been read reads the same where it is written**, unless it adds a key that
begins with `+`: its sign and the key are then taken for `++` and a shorter key. -/
theorem parse?_text (h : parse? raw = some o) :
    parse? o.text = some o ↔ ¬ (o.kind = .append ∧ o.key.head? = some '+') := by
  have hread := isRead_of_parse? h
  have htrim := hread.isTrimmed_text
  have hvalue := hread.value
  have hunsigned := hread.unsigned
  have hhead : (o.key ++ valueText o.value).head? = o.key.head? := by
    obtain ⟨c, r, hkey⟩ := List.exists_cons_of_ne_nil hread.key.ne_nil
    rw [hkey]
    rfl
  rw [text_eq] at htrim ⊢
  obtain ⟨kind, key, value⟩ := o
  cases kind with
  | assign =>
    obtain ⟨v, rfl⟩ := Option.ne_none_iff_exists'.1 (hvalue.resolve_left (by simp))
    obtain ⟨htilde, hplus⟩ := hunsigned rfl
    refine iff_of_true ?_ (by simp)
    exact (parse?_plain (hhead ▸ htilde) (hhead ▸ hplus) htrim).trans (hread.key.parseChange _ v)
  | append =>
    obtain ⟨v, rfl⟩ := Option.ne_none_iff_exists'.1 (hvalue.resolve_left (by simp))
    by_cases hplus : key.head? = some '+'
    · refine iff_of_false (fun hagain => ?_) (by simp [hplus])
      obtain ⟨r, rfl⟩ := List.head?_eq_some_iff.1 hplus
      have hkind := (spells_of_parseChange ((parse?_plusPlus htrim).symm.trans hagain)).1
      cases hkind
    · refine iff_of_true ?_ (by simp [hplus])
      exact (parse?_plus (hhead ▸ hplus) htrim).trans (hread.key.parseChange _ v)
  | forceAdd =>
    obtain ⟨v, rfl⟩ := Option.ne_none_iff_exists'.1 (hvalue.resolve_left (by simp))
    refine iff_of_true ?_ (by simp)
    exact (parse?_plusPlus htrim).trans (hread.key.parseChange _ v)
  | delete =>
    refine iff_of_true ?_ (by simp)
    exact (parse?_tilde htrim).trans (hread.key.parseRemoval value)

/-- White space around the key and signs in it, and the one way in which an addition is written like
another. -/
theorem parse?_text_signs :
    let kept : Text := " ++ ~a = +b =c "
    let lost : Text := "+ +a=1"
    ∃ o o', parse? kept = some o ∧ parse? o.text = some o ∧ o.text = "++~a= +b =c".toList ∧
      parse? lost = some o' ∧ parse? o'.text ≠ some o' ∧ o'.text = "++a=1".toList := by
  intro kept lost
  have hkept : parse? kept = some ⟨.forceAdd, "~a".toList, some " +b =c".toList⟩ := by
    decide +kernel
  have hlost : parse? lost = some ⟨.append, "+a".toList, some "1".toList⟩ := by decide +kernel
  exact ⟨_, _, hkept, (parse?_text hkept).2 (by decide), rfl,
    hlost, mt (parse?_text hlost).1 (by decide), rfl⟩

end LayeredConfig.Override
