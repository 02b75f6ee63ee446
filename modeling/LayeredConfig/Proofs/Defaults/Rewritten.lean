import LayeredConfig.Proofs.Defaults.Replaced

/-!
# Rewritten documents

What becomes of a document with an entry to a line when a choice is rewritten: a document of the
same kind, with the entries for the old choice replaced.
-/
namespace LayeredConfig

open Yaml (IsFiller BeginsLine)
open Rewrite

/-- An entry after all passes. -/
def EntryLine.rewritten (old new : Choice) (e : EntryLine) : EntryLine :=
  let e := (e.replace old.isPath (.scalar new.path)).replace old.isMapping new.mapping
  if old.group.text = Defaults.rootGroup then e.replaceBare old new else e

namespace EntryLine

/-- Whether an entry is written for a choice, in one of the ways that a rewrite looks for. -/
def IsFor (c : Choice) (e : EntryLine) : Prop :=
  c.isPath e.spelling = true ∨ c.isMapping e.spelling = true ∨
    c.group.text = Defaults.rootGroup ∧ e.marked = false ∧ c.isBare e.spelling = true

/-- Whether an entry for the old choice carries over to the new one. Beside the root document it has
to be unmarked and to name a file; elsewhere only a mapping asks for names, a path does not. -/
def Carries (t : FileTree) (root : Path) (old new : Choice) (e : EntryLine) : Prop :=
  if new.group.text = Defaults.rootGroup then
    e.marked = false ∧ new.name.text ≠ Defaults.selfMarker ∧ IsVerbatim new.name.text ∧
      t.isFile (modulePath root new.group.text new.name.text) = true
  else old.isMapping e.spelling = true →
    (e.marked = true ∨ IsVerbatim new.group.text) ∧ IsVerbatim new.name.text

variable {old new : Choice} {e : EntryLine} {t : FileTree} {root : Path}

theorem replace_of_is {is : Spelling → Bool} {new : Spelling} (h : is e.spelling = true) :
    e.replace is new = e.respell new := if_pos h

theorem replace_of_not {is : Spelling → Bool} {new : Spelling} (h : ¬ is e.spelling = true) :
    e.replace is new = e := if_neg h

/-- Putting the spelling that is there changes nothing. -/
theorem replace_self {is : Spelling → Bool} {new : Spelling} (h : e.spelling = new) :
    e.replace is new = e := by
  cases h
  exact ite_self e

theorem replaceBare_self (h : e.spelling = .scalar new.path ∨ ¬ old.isBare e.spelling = true) :
    e.replaceBare old new = e := by
  rw [replaceBare]
  split
  · rfl
  · exact h.elim replace_self replace_of_not

/-- An entry that is not for the old choice stays. -/
theorem rewritten_of_not_isFor (h : ¬ e.IsFor old) : e.rewritten old new = e := by
  obtain ⟨hpath, h⟩ := not_or.1 h
  obtain ⟨hmapping, hbare⟩ := not_or.1 h
  rw [rewritten, replace_of_not hpath, replace_of_not hmapping]
  split
  · next hroot =>
    rw [replaceBare]
    split
    · rfl
    · next hmarked => exact replace_of_not fun hb => hbare ⟨hroot, by simpa using hmarked, hb⟩
  · rfl

/-- An entry for the old choice is written for the new one, as a mapping only where it was one. -/
theorem rewritten_of_isFor (h : e.IsFor old) : e.rewritten old new =
    e.respell (if old.isMapping e.spelling then new.mapping else .scalar new.path) := by
  by_cases hmapping : old.isMapping e.spelling = true
  · have hpath : ¬ old.isPath e.spelling = true := by
      intro hpath
      cases hs : e.spelling <;> simp [hs, Choice.isMapping, Choice.isPath] at hmapping hpath
    have hkept : new.mapping = .scalar new.path ∨ ¬ old.isBare new.mapping = true := by
      rw [Choice.mapping]
      split
      · next hroot =>
        exact Or.inl (by simp [Choice.path, Selection.asPath, Choice.selection, hroot])
      · exact Or.inr Bool.false_ne_true
    rw [rewritten, replace_of_not hpath, replace_of_is hmapping, if_pos hmapping,
      replaceBare_self hkept]
    exact ite_self _
  · rw [if_neg hmapping, rewritten]
    by_cases hpath : old.isPath e.spelling = true
    · have hscalar : ¬ old.isMapping (e.respell (.scalar new.path)).spelling = true :=
        Bool.false_ne_true
      rw [replace_of_is hpath, replace_of_not hscalar, replaceBare_self (Or.inl rfl)]
      exact ite_self _
    · obtain ⟨hroot, hmarked, hbare⟩ := (h.resolve_left hpath).resolve_left hmapping
      rw [replace_of_not hpath, replace_of_not hmapping, if_pos hroot, replaceBare,
        if_neg (by simp [hmarked]), replace_of_is hbare]

/-- **A rewritten entry selects the new choice exactly if the entry carries over.** -/
theorem selects_rewritten (hslash : '/' ∉ new.name.text) (h : e.IsFor old) :
    (e.rewritten old new).Selects t root new ↔ e.Carries t root old new := by
  have hne : new.name.text ≠ new.group.text ++ '/' :: new.name.text := fun heq =>
    hslash (heq ▸ List.mem_append_right _ List.mem_cons_self)
  rw [rewritten_of_isFor h, Carries]
  by_cases hroot : new.group.text = Defaults.rootGroup
  · rw [hroot] at hne
    have hmapping : new.mapping = .scalar new.name := if_pos hroot
    have hpath : new.path = new.name := by
      simp [Choice.path, Selection.asPath, Choice.selection, hroot]
    rw [hmapping, hpath, ite_self, if_pos hroot]
    simp [Selects, respell, hne, hroot]
  · have hpath : new.path.text = new.group.text ++ '/' :: new.name.text := if_neg hroot
    have hmapping : new.mapping = .pair new.group 0 new.name := if_neg hroot
    rw [hmapping, if_neg hroot]
    by_cases his : old.isMapping e.spelling = true
    · simp [his, Selects, respell]
    · simp [his, Selects, respell, hpath]

end EntryLine

namespace Rewrite

variable {form : Text → Option (Text × Text)} {marked : Bool} {new : Text}

/-- A line that begins neither with white space nor with a dash holds no entry. -/
theorem find?_of_begins {s : Text} (h : BeginsLine s) : find? form marked s = none := by
  refine find?_eq_none ?_
  cases s with
  | nil => simp
  | cons c s =>
    obtain ⟨hblank, -, hdash, -⟩ := h c rfl
    have hc : isBlankChar c = false := by
      cases hc : isBlankChar c with
      | false => rfl
      | true => rw [Yaml.isBlank_of_isSpaceOrTab hc] at hblank; cases hblank
    simpa [hc] using hdash

/-- What follows a list begins as before. -/
theorem begins_substitute {s : Text} (h : BeginsLine s) :
    BeginsLine (substitute (find? form marked) new 0 true s).1 := by
  cases s with
  | nil => exact h
  | cons c s =>
    rw [substitute, if_pos rfl, find?_of_begins h]
    exact h

/-- Nothing is found on a line with at most a comment. -/
theorem rewriteLine_filler {s : Text} (h : IsFiller s) :
    rewriteLine (find? form marked) new s = s := by
  have hnone : find? form marked s = none := by
    refine find?_eq_none fun hdash => ?_
    rcases (isTail_of_isFiller h).dropWhile _ hdash with hc | hc <;> cases hc
  rw [rewriteLine, hnone]

theorem map_filler {ss : List Text} (h : ∀ s ∈ ss, IsFiller s) :
    ss.map (rewriteLine (find? form marked) new) = ss :=
  (List.map_congr_left fun s hs => rewriteLine_filler (h s hs)).trans (List.map_id ss)

end Rewrite

namespace ListDocument

/-- The document after a pass. -/
def pass (form : Text → Option (Text × Text)) (marked : Bool) (new : Text)
    (replace : EntryLine → EntryLine) (d : ListDocument) : ListDocument :=
  { d with
    first := replace d.first
    others := d.others.map replace
    rest := (substitute (find? form marked) new 0 true d.rest).1
    begins := begins_substitute d.begins }

theorem entries_pass (form : Text → Option (Text × Text)) (marked : Bool) (new : Text)
    (replace : EntryLine → EntryLine) (d : ListDocument) :
    (d.pass form marked new replace).entries = d.entries.map replace := rfl

theorem noLineFeed_lines (d : ListDocument) : ∀ s ∈ d.lines, '\n' ∉ s := by
  have hfiller : ∀ {ss : List Text}, (∀ s ∈ ss, IsFiller s) → ∀ s ∈ ss, '\n' ∉ s :=
    fun h s hs => (isTail_of_isFiller (h s hs)).1
  obtain ⟨htail, hbelow⟩ := List.forall_mem_cons.1 (hfiller d.filled)
  refine List.forall_mem_append.2 ⟨List.forall_mem_append.2 ⟨hfiller d.aboveFilled,
    List.forall_mem_cons.2 ⟨?_, hbelow⟩⟩, ?_⟩
  · have hkey : '\n' ∉ Defaults.listKey := by decide
    simp [hkey, htail]
  · intro s hs
    obtain ⟨e, -, hs⟩ := List.mem_flatMap.1 hs
    obtain ⟨htail, hbelow⟩ := List.forall_mem_cons.1 (hfiller e.filled)
    rcases List.mem_cons.1 hs with rfl | hs
    · have hspelled := noLineFeed_marked e.marked e.spelling
      rw [List.mem_append, not_or] at hspelled
      simp [EntryLine.line, hspelled.1, hspelled.2, htail, List.mem_replicate]
    · exact hbelow s hs

variable {form : Text → Option (Text × Text)} {marked : Bool} {new : Text}
  {replace : EntryLine → EntryLine}

/-- **A pass leaves a document with a list**, in which the entries have been replaced. -/
theorem substitute_text (h : OfLine form formLength)
    (hline : ∀ k e, rewriteLine (find? form marked) new (e.line k) = (replace e).line k)
    (hbelow : ∀ e, (replace e).below = e.below) (d : ListDocument) :
    (substitute (find? form marked) new 0 true d.text).1 =
      (d.pass form marked new replace).text := by
  have hkey : rewriteLine (find? form marked) new (Defaults.listKey ++ ':' :: d.tail) =
      Defaults.listKey ++ ':' :: d.tail := by
    rw [rewriteLine, find?_of_begins]
    intro x hx
    cases hx
    decide
  have hentries : ∀ es : List EntryLine,
      (es.flatMap (EntryLine.lines d.indent)).map (rewriteLine (find? form marked) new) =
        (es.map replace).flatMap (EntryLine.lines d.indent) := by
    intro es
    induction es with
    | nil => rfl
    | cons e es ih =>
      rw [List.flatMap_cons, List.map_append, ih, List.map_cons, List.flatMap_cons, EntryLine.lines,
        EntryLine.lines, List.map_cons, hline, hbelow,
        map_filler (List.forall_mem_cons.1 e.filled).2]
  have hlines : d.lines.map (rewriteLine (find? form marked) new) =
      (d.pass form marked new replace).lines := by
    rw [lines, lines, entries_pass, List.map_append, List.map_append, List.map_cons, hentries, hkey,
      map_filler d.aboveFilled, map_filler (List.forall_mem_cons.1 d.filled).2]
    rfl
  rw [text, substitute_lines (ofLine_find? h marked) d.noLineFeed_lines, hlines]
  rfl

/-- The document after all passes. -/
def rewritten (old new : Choice) (d : ListDocument) : ListDocument :=
  let d := (d.pass (pathForm? old.selection) true new.selection.asPath
    (·.replace old.isPath (.scalar new.path))).pass (mappingForm? old.selection) true
      new.selection.asMapping (·.replace old.isMapping new.mapping)
  if old.group.text = Defaults.rootGroup then
    d.pass (bareForm? old.selection) false new.selection.asPath (·.replaceBare old new)
  else d

theorem entries_rewritten (old new : Choice) (d : ListDocument) :
    (d.rewritten old new).entries = d.entries.map (·.rewritten old new) := by
  by_cases hroot : old.group.text = Defaults.rootGroup
  · simp [rewritten, EntryLine.rewritten, hroot, entries_pass, Function.comp_def]
  · simp [rewritten, EntryLine.rewritten, hroot, entries_pass, Function.comp_def]

theorem below_replace (is : Spelling → Bool) (new : Spelling) (e : EntryLine) :
    (e.replace is new).below = e.below := by
  rw [EntryLine.replace]
  split <;> rfl

theorem below_replaceBare (old new : Choice) (e : EntryLine) :
    (e.replaceBare old new).below = e.below := by
  rw [EntryLine.replaceBare]
  split
  · rfl
  · exact below_replace _ _ e

/-- **A rewrite leaves a document with a list**, in which the entries for the old choice stand for
the new one. -/
theorem text_rewritten (old new : Choice) (d : ListDocument) :
    (Rewrite.entry d.text old.selection new.selection).1 = (d.rewritten old new).text := by
  have hpath : '\n' ∉ old.selection.group ++ '/' :: old.selection.name := by
    simp [Choice.selection, old.group.noLineFeed, old.name.noLineFeed]
  have hpathText := substitute_text (ofLine_pathForm? hpath) (rewriteLine_path old new)
    (below_replace _ _)
  have hmappingText :=
    substitute_text (ofLine_mappingForm? old.group.noLineFeed old.name.noLineFeed)
    (rewriteLine_mapping old new) (below_replace _ _)
  rw [Rewrite.entry]
  by_cases hroot : old.group.text = Defaults.rootGroup
  · have hbareText := substitute_text (ofLine_bareForm? old.name.noLineFeed)
      (rewriteLine_bare old new) (below_replaceBare old new)
    dsimp only
    rw [if_pos (show old.selection.group = _ from hroot), rewritten, if_pos hroot, hpathText,
      hmappingText, hbareText]
  · dsimp only
    rw [if_neg (show old.selection.group ≠ _ from hroot), rewritten, if_neg hroot, hpathText,
      hmappingText]

end ListDocument
end LayeredConfig
