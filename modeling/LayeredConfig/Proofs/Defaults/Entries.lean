import LayeredConfig.Defaults.Basic
import LayeredConfig.Proofs.Defaults.Forms
import LayeredConfig.Proofs.Yaml.ListText

/-!
# Defaults lists with an entry to a line

Root documents that begin with their defaults list, written as a block with one entry to a line. An
entry is a word, for a path or a bare name, or a group with a name, and may be marked. What follows
the list is arbitrary.
-/
namespace LayeredConfig

open Yaml (IsWord IsPhrase IsFiller BeginsLine Item ItemLine margin)

/-- A word that stands for itself in a document. -/
structure Word where
  text : Text
  isWord : IsWord text

/-- How an entry is written, apart from its mark. -/
inductive Spelling where
  | scalar (w : Word)
  | pair (group : Word) (blanks : Nat) (name : Word)

namespace Spelling

def text : Spelling → Text
  | scalar w => w.text
  | pair g blanks n => g.text ++ ':' :: (List.replicate (blanks + 1) ' ' ++ n.text)

end Spelling

def markText (marked : Bool) : Text := if marked then "override ".toList else []

theorem isPhrase_marked (marked : Bool) (w : Word) : IsPhrase (markText marked ++ w.text) := by
  cases marked with
  | false => exact .word w.isWord
  | true =>
    have hmark : IsWord "override".toList := by decide
    exact .more hmark (.word w.isWord)

/-- An entry with the rest of its line and the lines below it that hold at most a comment. -/
structure EntryLine where
  marked : Bool
  spelling : Spelling
  tail : Text
  below : List Text
  filled : ∀ s ∈ tail :: below, IsFiller s
  apart : tail.head? ≠ some '#'

namespace EntryLine

def item (e : EntryLine) : Item :=
  match e.spelling with
  | .scalar w => .phrase (markText e.marked ++ w.text) (isPhrase_marked e.marked w)
  | .pair g blanks n =>
    .pair (markText e.marked ++ g.text) (isPhrase_marked e.marked g) blanks n.text (.word n.isWord)

theorem text_item (e : EntryLine) : e.item.text = markText e.marked ++ e.spelling.text := by
  obtain ⟨marked, spelling, tail, below, filled, apart⟩ := e
  cases spelling with
  | scalar w => rfl
  | pair g blanks n => simp [item, Item.text, Spelling.text]

def itemLine (e : EntryLine) : ItemLine := ⟨e.item, e.tail, e.below, e.filled, e.apart⟩

/-- The entry's own line. -/
def line (indent : Nat) (e : EntryLine) : Text :=
  List.replicate indent ' ' ++ ("- " ++ (markText e.marked ++ e.spelling.text ++ e.tail))

/-- The entry's line and those below it. -/
def lines (indent : Nat) (e : EntryLine) : List Text := e.line indent :: e.below

end EntryLine

/-- A root document that begins with its defaults list. -/
structure ListDocument where
  above : List Text
  tail : Text
  below : List Text
  indent : Nat
  first : EntryLine
  others : List EntryLine
  rest : Text
  aboveFilled : ∀ s ∈ above, IsFiller s
  filled : ∀ s ∈ tail :: below, IsFiller s
  apart : tail.head? ≠ some '#'
  begins : BeginsLine rest

namespace ListDocument

def entries (d : ListDocument) : List EntryLine := d.first :: d.others

/-- The lines up to the end of the list. -/
def lines (d : ListDocument) : List Text :=
  d.above ++ (Defaults.listKey ++ ':' :: d.tail) :: d.below ++
    d.entries.flatMap (EntryLine.lines d.indent)

def text (d : ListDocument) : Text := d.lines.flatMap (· ++ ['\n']) ++ d.rest

/-- The lines of the entries as the text of a block sequence. -/
theorem text_entries (k : Nat) (rest : Text) (es : List EntryLine) :
    (es.flatMap (EntryLine.lines k)).flatMap (· ++ ['\n']) ++ rest =
      List.replicate (ItemLine.column k (es.map EntryLine.itemLine)) ' ' ++
        ItemLine.block k rest (es.map EntryLine.itemLine) := by
  induction es with
  | nil => simp [ItemLine.column, ItemLine.block]
  | cons e es ih =>
    rw [List.flatMap_cons, List.flatMap_append, List.append_assoc, ih]
    simp [EntryLine.lines, EntryLine.line, EntryLine.itemLine, ItemLine.column,
      ItemLine.block, margin, EntryLine.text_item]

theorem text_eq (d : ListDocument) : d.text = margin d.above 0 ++ (Defaults.listKey ++ ':' ::
    (margin (d.tail :: d.below) d.indent ++ ItemLine.block d.indent d.rest
      (d.first.itemLine :: d.others.map EntryLine.itemLine))) := by
  have hentries := text_entries d.indent d.rest d.entries
  rw [entries, List.map_cons] at hentries
  rw [text, lines, entries, List.flatMap_append, List.append_assoc, hentries]
  simp [margin, ItemLine.column]

theorem isWord_listKey : IsWord Defaults.listKey := by decide

/-- A document that can be read has a value for each of its entries. -/
theorem read_eq_ok {d : ListDocument} {v : Value} (h : Yaml.read d.text = .ok v) :
    ∃ (vs : List Value) (es : Entries),
    d.entries.map (·.item.value?) = vs.map some ∧
      v = .mapping ((.string Defaults.listKey, .sequence vs) :: es) := by
  rw [text_eq] at h
  obtain ⟨k, vs, es, hkey, hvs, rfl⟩ := Yaml.read_list (.word isWord_listKey) (by decide)
    d.aboveFilled d.filled d.apart d.first.itemLine (d.others.map EntryLine.itemLine) d.begins h
  have hstring : Yaml.Scalar.plain? Defaults.listKey = some (.string Defaults.listKey) := by
    decide +kernel
  cases hstring.symm.trans hkey
  refine ⟨vs, es, ?_, rfl⟩
  rw [← hvs, entries, List.map_cons, List.map_cons, List.map_map]
  rfl

/-- The entries of a document that can be read. -/
theorem ofDocument?_of_read {d : ListDocument} {v : Value} (h : Yaml.read d.text = .ok v) :
    ∃ vs : List Value,
    d.entries.map (·.item.value?) = vs.map some ∧
      Defaults.ofDocument? v = some (vs.flatMap Defaults.decodeItem) := by
  obtain ⟨vs, es, hvs, rfl⟩ := read_eq_ok h
  refine ⟨vs, hvs, ?_⟩
  simp [Defaults.ofDocument?, Value.entries?, Value.untag, Entries.find?, Value.sameKey_refl]

end ListDocument
end LayeredConfig
