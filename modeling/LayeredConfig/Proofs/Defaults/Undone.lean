import LayeredConfig.Proofs.Defaults.Occurrences

/-!
# Undoing a rewrite

A rewrite to a selection that a text does not hold is undone by the rewrite in the other direction.
Only the blanks around the colon of a mapping are not kept, so that it has to be written with one
space behind the colon. Files beside the root document are left out: their names are written without
a group.
-/
namespace LayeredConfig.Rewrite

variable {old new : Selection}

/-- A way of writing that a rewrite does not change. -/
def Form.IsStandard : Form → Prop
  | mapping before after => before = [] ∧ after = [' ']
  | _ => True

/-- A line from which the rewrite of one selection to another can be told. -/
structure Reversible (old new : Selection) (line : Text) : Prop where
  missing : ∀ o : Occurrence new, o.line ≠ line
  standard : ∀ o : Occurrence old, o.line = line → o.form.IsStandard

/-- A form is rewritten to the same form of the new selection. -/
theorem Form.replacement_eq_text {form : Form} {marked : Bool}
    (hold : old.group ≠ Defaults.rootGroup)
    (hnew : new.group ≠ Defaults.rootGroup) (hform : form.Admits old marked)
    (hstandard : form.IsStandard) :
    form.replacement new = form.text new ∧ form.Admits new marked := by
  cases form with
  | path => exact ⟨if_neg hnew, trivial⟩
  | mapping before after =>
    obtain ⟨rfl, rfl⟩ := hstandard
    rw [replacement, Selection.asMapping, if_neg hnew]
    exact ⟨by simp [text], hform⟩
  | bare => exact absurd hform.1 hold

/-- The new selection in the place of the old one. -/
theorem Occurrence.exists_counterpart (hold : old.group ≠ Defaults.rootGroup)
    (hnew : new.group ≠ Defaults.rootGroup) (o : Occurrence old) (hstandard : o.form.IsStandard) :
    ∃ o' : Occurrence new, o'.line = o.rewritten new ∧ o'.rewritten old = o.line := by
  obtain ⟨htext, hadmitted⟩ := o.form.replacement_eq_text hold hnew o.admitted hstandard
  obtain ⟨hback, -⟩ := o.form.replacement_eq_text hnew hold hadmitted hstandard
  refine ⟨⟨o.indent, o.marked, o.form, o.tail, o.indented, hadmitted⟩, ?_, ?_⟩
  · rw [Occurrence.line, Occurrence.rewritten, htext]
  · rw [Occurrence.line, Occurrence.rewritten, hback]

/-- A line is rewritten back, with the same count. -/
theorem entry_entry_line (hold : old.IsSimple) (hnew : new.IsSimple) (hne : old ≠ new)
    (holdGroup : old.group ≠ Defaults.rootGroup) (hnewGroup : new.group ≠ Defaults.rootGroup)
    {line : Text} (hline : '\n' ∉ line) (h : Reversible old new line) :
    entry (entry line old new).1 new old = (line, (entry line old new).2) := by
  by_cases hfound : ∃ o : Occurrence old, o.line = line
  · obtain ⟨o, rfl⟩ := hfound
    obtain ⟨o', hline', hback⟩ := o.exists_counterpart holdGroup hnewGroup (h.standard o rfl)
    rw [entry_line hold hnew hne, ← hline', entry_line hnew hold hne.symm, hback]
  · rw [entry_other hold new hline (not_exists.1 hfound)]
    exact entry_other hnew old hline h.missing

/-- **A rewrite to a selection that the text does not hold can be undone.** The rewrite in the other
direction gives the text back, and changes as many lines. -/
theorem entry_undo (hold : old.IsSimple) (hnew : new.IsSimple) (hne : old ≠ new)
    (holdGroup : old.group ≠ Defaults.rootGroup)
    (hnewGroup : new.group ≠ Defaults.rootGroup) (s : Text)
    (h : ∀ line ∈ Text.splitAll '\n' s, Reversible old new line) :
    entry (entry s old new).1 new old = (s, (entry s old new).2) := by
  induction s using Text.segment_induction '\n' with
  | last line hline =>
    rw [Text.splitAll_of_not_mem hline] at h
    exact entry_entry_line hold hnew hne holdGroup hnewGroup hline (h line List.mem_cons_self)
  | more line s hline ih =>
    rw [Text.splitAll_append, Text.splitAll_of_not_mem hline] at h
    have hfirst := h line List.mem_cons_self
    rw [entry_append hold, entry_append hnew,
      entry_entry_line hold hnew hne holdGroup hnewGroup hline hfirst,
      ih fun l hl => h l (List.mem_cons_of_mem _ hl)]

/-- A line without an entry that a rewrite would change does not hold the selection. -/
theorem Occurrence.line_ne (hold : old.IsSimple) (hnew : new.IsSimple) (hne : old ≠ new)
    {line : Text} (h : (entry line old new).2 = 0) (o : Occurrence old) : o.line ≠ line := by
  rintro rfl
  rw [entry_line hold hnew hne] at h
  cases h

/-- Blanks in front of a colon end there. -/
theorem blanks_of_colon {b a c : Text} (hb : ∀ x ∈ b, isBlankChar x = true)
    (h : b ++ ':' :: a = ':' :: c) : b = [] ∧ a = c := by
  cases b with
  | nil => exact ⟨rfl, (List.cons.inj h).2⟩
  | cons x b =>
    have hx := hb x List.mem_cons_self
    rw [(List.cons.inj h).1] at hx
    cases hx

/-- What is found on a line is how the selection is written there. -/
theorem Occurrence.isStandard (hold : old.IsSimple) {line : Text}
    (h : ∀ f ∈ find? (mappingForm? old) true line, f.written = old.group ++ ": " ++ old.name)
    (o : Occurrence old) (hline : o.line = line) : o.form.IsStandard := by
  classical
  obtain ⟨indent, marked, form, tail, hindent, hadmitted⟩ := o
  cases form with
  | path => trivial
  | bare => trivial
  | mapping before after =>
    have hfound := find?_entryLine hold.accepts_mapping (fun _ => hold.isSpelling_of_isPair) hindent
      (hold.isSpelling_text hadmitted) tail.isTail_text true marked
    rw [if_pos ⟨⟨before, after, hadmitted, rfl⟩, fun _ => rfl⟩] at hfound
    have hwritten : old.group ++ before ++ ':' :: after ++ old.name =
        old.group ++ ": " ++ old.name := by
      subst hline
      exact h _ hfound
    rw [List.append_left_inj, List.append_assoc, List.append_right_inj] at hwritten
    exact blanks_of_colon (List.forall_mem_append.1 hadmitted).1 hwritten

/-- Paths and mappings, with a mark, a comment and carriage returns, and characters that stand for
others in patterns. -/
theorem entry_undo_marked :
    let text : Text :=
      "defaults:\r\n  - a.b/c+d # x\r\n\t- override a.b: c+d\r\n- aXb/c+d\n- a.b/c+d/e\n"
    let old : Selection := ⟨"a.b", "c+d"⟩
    let new : Selection := ⟨"db", "$1"⟩
    old.IsSimple ∧ new.IsSimple ∧ old ≠ new ∧ old.group ≠ Defaults.rootGroup ∧
      new.group ≠ Defaults.rootGroup ∧ (∀ line ∈ Text.splitAll '\n' text, Reversible old new line) ∧
      entry text old new =
        ("defaults:\r\n  - db/$1 # x\r\n\t- override db: $1\r\n- aXb/c+d\n- a.b/c+d/e\n".toList,
          2) ∧
      entry (entry text old new).1 new old = (text, (entry text old new).2) := by
  intro text old new
  have hold : old.IsSimple := ⟨by decide, by decide, by decide⟩
  have hnew : new.IsSimple := ⟨by decide, by decide, by decide⟩
  have hne : old ≠ new := by decide
  have hlines : ∀ line ∈ Text.splitAll '\n' text, (entry line new old).2 = 0 ∧
      ∀ f ∈ find? (mappingForm? old) true line, f.written = old.group ++ ": " ++ old.name := by
    decide +kernel
  have hreversible : ∀ line ∈ Text.splitAll '\n' text, Reversible old new line := fun line hmem =>
    ⟨Occurrence.line_ne hnew hold hne.symm (hlines line hmem).1,
      Occurrence.isStandard hold (hlines line hmem).2⟩
  exact ⟨hold, hnew, hne, by decide, by decide, hreversible, by decide +kernel,
    entry_undo hold hnew hne (by decide) (by decide) text hreversible⟩

end LayeredConfig.Rewrite
