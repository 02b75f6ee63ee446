import LayeredConfig.Defaults.Resolved
import LayeredConfig.Proofs.Defaults.Entries
import LayeredConfig.Proofs.Text.Segments
import LayeredConfig.Proofs.Yaml.Scalar

/-!
# What an entry selects

The module that the value of an entry selects, told from how the entry is written. A path is a
string whatever it is made of. A bare name, a group and a name in a mapping are names only if no
other type is read from them.
-/
namespace LayeredConfig

open Yaml (isPlainChar)

/-- A plain scalar is the string that is written, or it is null, a boolean or a number. -/
theorem Yaml.Scalar.plain?_cases {s : Text} {v : Value} (h : plain? s = some v) :
    v = .string s ∨ v = .null ∨ (∃ b, v = .bool b) ∨ ∃ n, v = .number n := by
  unfold plain? at h
  split at h
  · cases h
    exact Or.inr (Or.inl rfl)
  split at h
  · cases h
    exact Or.inr (Or.inr (Or.inl ⟨_, rfl⟩))
  split at h
  · cases h
    exact Or.inr (Or.inr (Or.inr ⟨_, rfl⟩))
  split at h
  · cases h
  split at h
  · cases h
    exact Or.inl rfl
  split at h
  · cases h
    exact Or.inr (Or.inr (Or.inr ⟨_, rfl⟩))
  · cases h
    exact Or.inl rfl

/-- Whether a plain scalar stands for its own text. -/
def IsVerbatim (s : Text) : Prop := Yaml.Scalar.plain? s = some (.string s)

instance (s : Text) : Decidable (IsVerbatim s) := inferInstanceAs (Decidable (_ = _))

/-- The text of a plain scalar, if it is a string. -/
theorem text?_eq_some_iff {s r : Text} {v : Value} (h : Yaml.Scalar.plain? s = some v) :
    v.text? = some r ↔ IsVerbatim s ∧ r = s := by
  rw [IsVerbatim, h]
  rcases Yaml.Scalar.plain?_cases h with rfl | rfl | ⟨b, rfl⟩ | ⟨n, rfl⟩ <;>
    simp [Value.text?, Value.untag, eq_comm]

theorem IsVerbatim.of_slash {s : Text} (h : '/' ∈ s) : IsVerbatim s :=
  Yaml.Scalar.plain?_of_apart (Or.inl rfl) h

theorem isVerbatim_marked (s : Text) : IsVerbatim (markText true ++ s) :=
  Yaml.Scalar.plain?_of_apart (Or.inr rfl) (List.mem_append_left _ (by decide))

theorem isVerbatim_marked_iff (marked : Bool) (s : Text) :
    IsVerbatim (markText marked ++ s) ↔ marked = true ∨ IsVerbatim s := by
  cases marked with
  | true => simp [isVerbatim_marked]
  | false => simp [markText]

namespace Defaults

theorem trim_of_plain {s : Text} (h : ∀ c ∈ s, isPlainChar c = true) : Text.trim s = s :=
  Text.trim_of_unblank fun c hc => (Yaml.isPlainChar_iff.1 (h c hc)).1

/-- The mark is told from the word behind it. -/
theorem splitOverride_marked (marked : Bool) {w : Text} (hw : ∀ c ∈ w, isPlainChar c = true) :
    (splitOverride (markText marked ++ w)).1 = w := by
  cases marked with
  | true =>
    have hne : markText true ++ w ≠ "override".toList := by
      intro h
      have hlength := congrArg List.length h
      simp [markText] at hlength
    rw [splitOverride, if_neg hne,
      Text.after?_eq_some_iff.2 (show markText true ++ w = "override ".toList ++ w from rfl)]
    exact trim_of_plain hw
  | false =>
    show (splitOverride w).1 = w
    rw [splitOverride]
    split
    · rfl
    · cases h : Text.after? "override " w with
      | none => rfl
      | some r =>
        refine absurd ?_ (Yaml.not_mem_of_plain hw (c := ' ') rfl)
        rw [Text.after?_eq_some_iff.1 h]
        exact List.mem_append_left _ (by decide)

/-- A plain scalar is decoded by its text if it is a string. -/
theorem decodeItem_scalar {s : Text} {v : Value} (h : Yaml.Scalar.plain? s = some v) :
    decodeItem v = [if IsVerbatim s then decodeText s else .unrecognized (describe v)] := by
  by_cases hverbatim : IsVerbatim s
  · cases hverbatim.symm.trans h
    rw [if_pos hverbatim]
    rfl
  · rw [if_neg hverbatim]
    rcases Yaml.Scalar.plain?_cases h with rfl | rfl | ⟨b, rfl⟩ | ⟨n, rfl⟩
    · exact absurd h hverbatim
    all_goals rfl

/-- A mapping of a group and a name is an entry for them if both are strings. -/
theorem decodeItem_pair {marked : Bool} {g n : Text} {k w : Value}
    (hg : ∀ c ∈ g, isPlainChar c = true)
    (hk : Yaml.Scalar.plain? (markText marked ++ g) = some k) (hw : Yaml.Scalar.plain? n = some w) :
    ∃ b, decodeItem (.mapping [(k, w)]) =
      [if (marked = true ∨ IsVerbatim g) ∧ IsVerbatim n then .group ⟨g, n, b, .mapping⟩
        else .unrecognized (describe (.mapping [(k, w)]))] := by
  refine ⟨(splitOverride (markText marked ++ g)).2, congrArg (fun x => [x]) ?_⟩
  have hstring := isVerbatim_marked_iff marked g
  rw [decodePair]
  split
  · next key name hkey hname =>
    obtain ⟨hgroup, rfl⟩ := (text?_eq_some_iff hk).1 hkey
    obtain ⟨hname, rfl⟩ := (text?_eq_some_iff hw).1 hname
    rw [if_pos ⟨hstring.1 hgroup, hname⟩]
    dsimp only
    rw [splitOverride_marked marked hg]
  · next hnone =>
    refine (if_neg ?_).symm
    rintro ⟨hgroup, hname⟩
    exact hnone _ _ ((text?_eq_some_iff hk).2 ⟨hstring.2 hgroup, rfl⟩)
      ((text?_eq_some_iff hw).2 ⟨hname, rfl⟩)

variable {t : FileTree} {root : Path} {s : Rewrite.Selection}

/-- Whether an entry selects a module of the given group and name. -/
def Picks (t : FileTree) (root : Path) (s : Rewrite.Selection) (x : DefaultsEntry) : Prop :=
  ∃ m, ConfigModule.select? t root x = some m ∧ m.group = s.group ∧ m.name = s.name

theorem picks_group {g : GroupSelection} :
    Picks t root s (.group g) ↔ g.group = s.group ∧ g.name = s.name := by
  simp [Picks, ConfigModule.select?, ConfigModule.locate]

theorem picks_bare {name : Text} : Picks t root s (.bare name) ↔
    s.group = rootGroup ∧ name = s.name ∧ t.isFile (modulePath root rootGroup name) = true := by
  by_cases hfile : t.isFile (modulePath root rootGroup name) = true
  · simp [Picks, ConfigModule.select?, ConfigModule.locate, ConfigModule.resolved, hfile, eq_comm]
  · simp [Picks, ConfigModule.select?, ConfigModule.locate, ConfigModule.resolved, hfile]

theorem not_picks_unrecognized {raw : Text} : ¬ Picks t root s (.unrecognized raw) := by
  simp [Picks, ConfigModule.select?]

theorem not_picks_selfMarker : ¬ Picks t root s .selfMarker := by
  simp [Picks, ConfigModule.select?]

/-- A path or a bare name selects what it spells. -/
theorem picks_decodeText (marked : Bool) (w : Word) (hgroup : s.group ≠ []) (hname : s.name ≠ [])
    (hslash : '/' ∉ s.name) : Picks t root s (decodeText (markText marked ++ w.text)) ↔
      w.text = s.group ++ '/' :: s.name ∨ s.group = rootGroup ∧ markText marked ++ w.text = s.name ∧
        s.name ≠ selfMarker ∧ t.isFile (modulePath root s.group s.name) = true := by
  have hbody := splitOverride_marked marked w.isWord.plain
  rw [decodeText]
  split
  · next hself =>
    refine iff_of_false not_picks_selfMarker ?_
    rintro (hpath | ⟨-, hbare, hnot, -⟩)
    · have hmem : '/' ∈ markText marked ++ w.text := by simp [hpath]
      rw [hself] at hmem
      exact absurd hmem (by decide)
    · exact hnot (hbare.symm.trans hself)
  · next hself =>
    dsimp only
    rw [hbody]
    cases hsplit : Text.splitLast '/' w.text with
    | some p =>
      obtain ⟨group, name⟩ := p
      obtain ⟨hw, hmem⟩ := Text.splitLast_eq_some hsplit
      have hbare : markText marked ++ w.text ≠ s.name := by
        rintro heq
        exact hslash (by simp [← heq, hw])
      have hpath : w.text = s.group ++ '/' :: s.name ↔ group = s.group ∧ name = s.name := by
        constructor
        · intro heq
          rw [heq, Text.splitLast_append s.group hslash] at hsplit
          cases hsplit
          exact ⟨rfl, rfl⟩
        · rintro ⟨rfl, rfl⟩
          exact hw
      simp only [hbare, hpath, false_and, and_false, or_false]
      split
      · next hempty =>
        refine iff_of_false not_picks_unrecognized ?_
        rintro ⟨rfl, rfl⟩
        simp [hgroup, hname] at hempty
      · exact picks_group
    | none =>
      have hpath : w.text ≠ s.group ++ '/' :: s.name := by
        intro heq
        exact Text.not_mem_of_splitLast hsplit (by simp [heq])
      simp only [hpath, false_or]
      rw [picks_bare]
      constructor
      · rintro ⟨hroot, hbare, hfile⟩
        exact ⟨hroot, hbare, hbare ▸ hself, by rwa [hroot, ← hbare]⟩
      · rintro ⟨hroot, hbare, -, hfile⟩
        exact ⟨hroot, hbare, by rwa [hbare, ← hroot]⟩

end Defaults

open Defaults

/-- A group and a name that are words. -/
structure Choice where
  group : Word
  name : Word

def Choice.selection (c : Choice) : Rewrite.Selection := ⟨c.group.text, c.name.text⟩

/-- Whether an entry selects a choice, told from how it is written. -/
def EntryLine.Selects (t : FileTree) (root : Path) (c : Choice) (e : EntryLine) : Prop :=
  match e.spelling with
  | .scalar w =>
    w.text = c.group.text ++ '/' :: c.name.text ∨
      c.group.text = rootGroup ∧ e.marked = false ∧ w.text = c.name.text ∧
        c.name.text ≠ selfMarker ∧ IsVerbatim c.name.text ∧
        t.isFile (modulePath root c.group.text c.name.text) = true
  | .pair g _ n =>
    g.text = c.group.text ∧ n.text = c.name.text ∧ (e.marked = true ∨ IsVerbatim c.group.text) ∧
      IsVerbatim c.name.text

variable {t : FileTree} {root : Path} {c : Choice} {v : Value}

theorem EntryLine.selects_congr {t' : FileTree} (h : ∀ p, t'.isFile p = t.isFile p)
    {e : EntryLine} :
    e.Selects t' root c ↔ e.Selects t root c := by
  obtain ⟨marked, spelling, tail, below, filled, apart⟩ := e
  cases spelling with
  | scalar w => simp only [Selects, h]
  | pair g blanks n => exact Iff.rfl

/-- A mark stands before a blank, which no word has. -/
theorem marked_ne_word (s : Text) (w : Word) : markText true ++ s ≠ w.text := fun h =>
  Yaml.not_mem_of_plain w.isWord.plain (c := ' ') rfl (h ▸ List.mem_append_left _ (by decide))

/-- A word that is read as a string selects what it spells. -/
theorem picks_scalar {marked : Bool} {w : Word} (hslash : '/' ∉ c.name.text)
    (h : Yaml.Scalar.plain? (markText marked ++ w.text) = some v) :
    (∃ x ∈ decodeItem v, Picks t root c.selection x) ↔
      w.text = c.group.text ++ '/' :: c.name.text ∨
        c.group.text = rootGroup ∧ marked = false ∧ w.text = c.name.text ∧
        c.name.text ≠ selfMarker ∧
          IsVerbatim c.name.text ∧ t.isFile (modulePath root c.group.text c.name.text) = true := by
  simp only [decodeItem_scalar h, List.mem_singleton, exists_eq_left]
  by_cases hname : IsVerbatim (markText marked ++ w.text)
  · have hbare : markText marked ++ w.text = c.name.text ↔ marked = false ∧
        w.text = c.name.text := by
      cases marked with
      | true => simp [marked_ne_word]
      | false => simp [markText]
    rw [if_pos hname]
    refine (picks_decodeText marked w c.group.isWord.nonempty c.name.isWord.nonempty hslash).trans
      (or_congr_right (and_congr_right fun _ => ?_))
    show markText marked ++ w.text = c.name.text ∧ c.name.text ≠ selfMarker ∧ _ ↔ _
    rw [hbare]
    constructor
    · rintro ⟨⟨rfl, heq⟩, hself, hfile⟩
      exact ⟨rfl, heq, hself, heq ▸ hname, hfile⟩
    · rintro ⟨hmarked, heq, hself, -, hfile⟩
      exact ⟨⟨hmarked, heq⟩, hself, hfile⟩
  · rw [if_neg hname]
    refine iff_of_false not_picks_unrecognized ?_
    rintro (heq | ⟨-, rfl, heq, -, hverbatim, -⟩)
    · exact hname (.of_slash (by simp [heq]))
    · exact hname (show IsVerbatim w.text from heq ▸ hverbatim)

/-- A group and a name in a mapping select what they spell if both are read as strings. -/
theorem picks_pair {marked : Bool} {g n : Word} {k w : Value}
    (hk : Yaml.Scalar.plain? (markText marked ++ g.text) = some k)
    (hw : Yaml.Scalar.plain? n.text = some w) :
    (∃ x ∈ decodeItem (.mapping [(k, w)]), Picks t root c.selection x) ↔
      g.text = c.group.text ∧ n.text = c.name.text ∧ (marked = true ∨ IsVerbatim c.group.text) ∧
        IsVerbatim c.name.text := by
  obtain ⟨b, hitem⟩ := decodeItem_pair g.isWord.plain hk hw
  simp only [hitem, List.mem_singleton, exists_eq_left]
  split
  · next hstrings =>
    rw [picks_group]
    show g.text = c.group.text ∧ n.text = c.name.text ↔ _
    constructor
    · rintro ⟨hg, hn⟩
      exact ⟨hg, hn, hg ▸ hstrings.1, hn ▸ hstrings.2⟩
    · rintro ⟨hg, hn, -, -⟩
      exact ⟨hg, hn⟩
  · next hnot =>
    refine iff_of_false not_picks_unrecognized ?_
    rintro ⟨hg, hn, hgroup, hname⟩
    exact hnot ⟨hg ▸ hgroup, hn ▸ hname⟩

theorem EntryLine.picks_iff_selects {e : EntryLine} (hslash : '/' ∉ c.name.text)
    (h : e.item.value? = some v) :
    (∃ x ∈ decodeItem v, Picks t root c.selection x) ↔ e.Selects t root c := by
  obtain ⟨marked, spelling, tail, below, filled, apart⟩ := e
  cases spelling with
  | scalar w => exact picks_scalar hslash h
  | pair g blanks n =>
    obtain ⟨k, hk, h⟩ := Option.bind_eq_some_iff.1 h
    obtain ⟨w, hw, h⟩ := Option.bind_eq_some_iff.1 h
    cases h
    exact picks_pair hk hw

/-- **The modules of a document with a list are those that its entries spell.** -/
theorem ListDocument.resolve_iff_selects {d : ListDocument} {p : Path} (hslash : '/' ∉ c.name.text)
    (htext : t.readText p = .ok d.text) (h : Yaml.read d.text = .ok v) :
    (∃ m ∈ ConfigModule.resolve t root p, m.group = c.group.text ∧ m.name = c.name.text) ↔
      ∃ e ∈ d.entries, e.Selects t root c := by
  obtain ⟨vs, hvs, hentries⟩ := ofDocument?_of_read h
  have hdocument : (t.document? p).bind ofDocument? = some (vs.flatMap decodeItem) := by
    simp [FileTree.document?, htext, h, hentries, Except.toOption]
  have hpicks :
      (∃ m ∈ ConfigModule.resolve t root p, m.group = c.group.text ∧ m.name = c.name.text) ↔
      ∃ v ∈ vs, ∃ x ∈ decodeItem v, Picks t root c.selection x := by
    rw [ConfigModule.resolve, hdocument]
    simp only [List.mem_filterMap, List.mem_flatMap, Picks, Choice.selection]
    constructor
    · rintro ⟨m, ⟨x, ⟨v, hv, hx⟩, hm⟩, hselected⟩
      exact ⟨v, hv, x, hx, m, hm, hselected⟩
    · rintro ⟨v, hv, x, hx, m, hm, hselected⟩
      exact ⟨m, ⟨x, ⟨v, hv, hx⟩, hm⟩, hselected⟩
  rw [hpicks]
  constructor
  · rintro ⟨v, hv, hx⟩
    have hmem : some v ∈ d.entries.map (·.item.value?) := hvs ▸ List.mem_map_of_mem hv
    obtain ⟨e, he, hitem⟩ := List.mem_map.1 hmem
    exact ⟨e, he, (EntryLine.picks_iff_selects hslash hitem).1 hx⟩
  · rintro ⟨e, he, hselects⟩
    have hmem : e.item.value? ∈ vs.map some :=
      hvs ▸ List.mem_map_of_mem (f := fun e : EntryLine => e.item.value?) he
    obtain ⟨v, hv, hitem⟩ := List.mem_map.1 hmem
    exact ⟨v, hv, (EntryLine.picks_iff_selects hslash hitem.symm).2 hselects⟩

end LayeredConfig
