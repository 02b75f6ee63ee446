import LayeredConfig.Text.Basic

/-!
# Segments

Cutting a text at a separator and joining the parts again undo each other.
-/
namespace LayeredConfig.Text

variable {sep : Char}

theorem splitAll_sep_cons (s : Text) : splitAll sep (sep :: s) = [] :: splitAll sep s := by
  rw [splitAll, if_pos rfl]

/-- A character that is no separator goes to the first part. -/
theorem splitAll_cons {c : Char} (h : c ≠ sep) (s : Text) :
    ∃ p ps, splitAll sep s = p :: ps ∧ splitAll sep (c :: s) = (c :: p) :: ps := by
  obtain ⟨p, ps, hp⟩ := List.exists_cons_of_ne_nil (splitAll_ne_nil sep s)
  exact ⟨p, ps, hp, by rw [splitAll, if_neg h, hp]⟩

theorem splitAll_of_not_mem {s : Text} (h : sep ∉ s) : splitAll sep s = [s] := by
  induction s with
  | nil => rfl
  | cons c s ih =>
    obtain ⟨hc, hs⟩ := not_or.1 (mt List.mem_cons.2 h)
    rw [splitAll, if_neg (Ne.symm hc), ih hs]

/-- The parts of two texts around a separator. -/
theorem splitAll_append (a b : Text) :
    splitAll sep (a ++ sep :: b) = splitAll sep a ++ splitAll sep b := by
  induction a with
  | nil => exact splitAll_sep_cons b
  | cons c a ih =>
    by_cases hc : c = sep
    · subst hc
      rw [List.cons_append, splitAll_sep_cons, splitAll_sep_cons, ih, List.cons_append]
    · obtain ⟨p, ps, hp, hcp⟩ := splitAll_cons hc a
      rw [List.cons_append, splitAll, if_neg hc, ih, hp, hcp, List.cons_append, List.cons_append]

theorem not_mem_of_mem_splitAll {s part : Text} (h : part ∈ splitAll sep s) : sep ∉ part := by
  induction s generalizing part with
  | nil =>
    obtain rfl := List.mem_singleton.1 h
    exact List.not_mem_nil
  | cons c s ih =>
    by_cases hc : c = sep
    · subst hc
      rw [splitAll_sep_cons] at h
      rcases List.mem_cons.1 h with rfl | h
      · exact List.not_mem_nil
      · exact ih h
    · obtain ⟨p, ps, hp, hcp⟩ := splitAll_cons hc s
      rw [hcp] at h
      rcases List.mem_cons.1 h with rfl | h
      · have hsp : sep ∉ p := ih (by rw [hp]; exact List.mem_cons_self)
        simp [hsp, Ne.symm hc]
      · exact ih (by rw [hp]; exact List.mem_cons_of_mem _ h)

/-- A text is one part, or a part before a separator and a text. -/
@[elab_as_elim]
theorem segment_induction (sep : Char) {motive : Text → Prop}
    (last : ∀ part, sep ∉ part → motive part)
    (more : ∀ part s, sep ∉ part → motive s → motive (part ++ sep :: s)) (s : Text) : motive s := by
  induction hn : s.length using Nat.strongRecOn generalizing s with
  | ind n ih =>
    cases hsplit : splitFirst sep s with
    | none => exact last s (splitFirst_eq_none_iff.1 hsplit)
    | some p =>
      obtain ⟨rfl, hpart⟩ := splitFirst_eq_some hsplit
      refine more p.1 p.2 hpart (ih p.2.length ?_ p.2 rfl)
      simp only [List.length_append, List.length_cons] at hn
      omega

theorem joinWith_singleton (s sep : Text) : joinWith sep [s] = s := by simp [joinWith]

theorem joinWith_cons_cons (sep a b : Text) (parts : List Text) :
    joinWith sep (a :: b :: parts) = a ++ sep ++ joinWith sep (b :: parts) := by
  simp [joinWith, List.intercalate]

theorem joinWith_cons (sep a : Text) (parts : List Text) :
    joinWith sep (a :: parts) = a ++ parts.flatMap (sep ++ ·) := by
  induction parts generalizing a with
  | nil => rw [joinWith_singleton, List.flatMap_nil, List.append_nil]
  | cons b parts ih =>
    rw [joinWith_cons_cons, ih, List.flatMap_cons, List.append_assoc, List.append_assoc]

theorem mem_joinWith {sep : Text} {parts : List Text} {c : Char} (h : c ∈ joinWith sep parts) :
    c ∈ sep ∨ ∃ part ∈ parts, c ∈ part := by
  cases parts with
  | nil => cases h
  | cons first parts =>
    rw [joinWith_cons, List.mem_append, List.mem_flatMap] at h
    rcases h with h | ⟨part, hpart, h⟩
    · exact Or.inr ⟨first, List.mem_cons_self, h⟩
    · rcases List.mem_append.1 h with h | h
      · exact Or.inl h
      · exact Or.inr ⟨part, List.mem_cons_of_mem _ hpart, h⟩

theorem joinWith_splitAll (s : Text) : joinWith [sep] (splitAll sep s) = s := by
  induction s with
  | nil => rfl
  | cons c s ih =>
    by_cases hc : c = sep
    · subst hc
      obtain ⟨p, ps, hp⟩ := List.exists_cons_of_ne_nil (splitAll_ne_nil c s)
      rw [splitAll_sep_cons, hp, joinWith_cons_cons, ← hp, ih]
      rfl
    · obtain ⟨p, ps, hp, hcp⟩ := splitAll_cons hc s
      rw [hcp]
      rw [hp] at ih
      cases ps with
      | nil =>
        rw [joinWith_singleton] at ih ⊢
        rw [ih]
      | cons q ps =>
        rw [joinWith_cons_cons] at ih ⊢
        rw [List.cons_append, List.cons_append, ih]

theorem splitAll_joinWith {parts : List Text} (hne : parts ≠ [])
    (h : ∀ part ∈ parts, sep ∉ part) : splitAll sep (joinWith [sep] parts) = parts := by
  induction parts with
  | nil => exact absurd rfl hne
  | cons a parts ih =>
    obtain ⟨ha, h⟩ := List.forall_mem_cons.1 h
    cases parts with
    | nil => rw [joinWith_singleton, splitAll_of_not_mem ha]
    | cons b parts =>
      rw [joinWith_cons_cons, List.append_assoc, List.singleton_append, splitAll_append,
        splitAll_of_not_mem ha, ih (List.cons_ne_nil _ _) h, List.singleton_append]

/-- Parts that are not empty and hold no separator can be read off the joined text. -/
theorem joinWith_inj {parts parts' : List Text} (h : ∀ part ∈ parts, part ≠ [] ∧ sep ∉ part)
    (h' : ∀ part ∈ parts', part ≠ [] ∧ sep ∉ part)
    (hsame : joinWith [sep] parts = joinWith [sep] parts') : parts = parts' := by
  have hempty : ∀ {ps : List Text}, (∀ part ∈ ps, part ≠ [] ∧ sep ∉ part) →
      joinWith [sep] ps = [] → ps = [] := by
    intro ps hps hnil
    cases ps with
    | nil => rfl
    | cons part ps =>
      rw [joinWith_cons, List.append_eq_nil_iff] at hnil
      exact absurd hnil.1 (hps part List.mem_cons_self).1
  by_cases hparts : parts = []
  · subst hparts
    exact (hempty h' hsame.symm).symm
  · have hparts' : parts' ≠ [] := by
      rintro rfl
      exact hparts (hempty h hsame)
    rw [← splitAll_joinWith hparts fun part hpart => (h part hpart).2, hsame,
      splitAll_joinWith hparts' fun part hpart => (h' part hpart).2]

theorem splitLast_of_not_mem {s : Text} (h : sep ∉ s) : splitLast sep s = none := by
  induction s with
  | nil => rfl
  | cons c s ih =>
    obtain ⟨hc, hs⟩ := not_or.1 (mt List.mem_cons.2 h)
    rw [splitLast, ih hs]
    exact if_neg (Ne.symm hc)

theorem not_mem_of_splitLast {s : Text} (h : splitLast sep s = none) : sep ∉ s := by
  induction s with
  | nil => exact List.not_mem_nil
  | cons c s ih =>
    rw [splitLast] at h
    cases hs : splitLast sep s with
    | some p =>
      rw [hs] at h
      cases h
    | none =>
      rw [hs] at h
      dsimp only at h
      split at h
      · cases h
      · next hc => exact fun hmem => (List.mem_cons.1 hmem).elim (fun heq => hc heq.symm) (ih hs)

/-- A text is cut at a separator that has none behind it. -/
theorem splitLast_append (a : Text) {b : Text} (hb : sep ∉ b) :
    splitLast sep (a ++ sep :: b) = some (a, b) := by
  induction a with
  | nil =>
    rw [List.nil_append, splitLast, splitLast_of_not_mem hb]
    exact if_pos rfl
  | cons c a ih => rw [List.cons_append, splitLast, ih]

theorem splitLast_eq_some {s a b : Text} (h : splitLast sep s = some (a, b)) :
    s = a ++ sep :: b ∧ sep ∉ b := by
  induction s generalizing a with
  | nil => cases h
  | cons c s ih =>
    rw [splitLast] at h
    cases hs : splitLast sep s with
    | some p =>
      rw [hs] at h
      cases h
      obtain ⟨rfl, hb⟩ := ih hs
      exact ⟨rfl, hb⟩
    | none =>
      rw [hs] at h
      dsimp only at h
      split at h
      · next hc =>
        cases h
        exact ⟨by rw [hc]; rfl, not_mem_of_splitLast hs⟩
      · cases h

end LayeredConfig.Text
