import LayeredConfig.Proofs.Defaults.Rewritten
import LayeredConfig.Proofs.Files.Overwrite
import LayeredConfig.Workspace.Basic

/-!
# Rewriting selections

A rewrite changes the text of the root document and leaves it to the reader what the new text
selects. It succeeds as soon as an entry has been rewritten. Whether the new module is among the
modules then depends on how the entry was written.
-/
namespace LayeredConfig

namespace FileTree

variable {names : Names} {s : Text} {t t' : FileTree}

/-- Two searches of which each would take what the other finds find the same. -/
theorem find?_agree {α : Type} {f g : α → Bool} {xs : List α} {a b : α} (hf : xs.find? f = some a)
    (hg : xs.find? g = some b) (ha : g a = true) (hb : f b = true) : a = b := by
  induction xs with
  | nil => cases hf
  | cons x xs ih =>
    rw [List.find?_cons] at hf hg
    cases hfx : f x with
    | true =>
      rw [hfx] at hf
      cases hf
      rw [ha] at hg
      cases hg
      rfl
    | false =>
      rw [hfx] at hf
      cases hgx : g x with
      | true =>
        rw [hgx] at hg
        cases hg
        rw [hb] at hfx
        cases hfx
      | false =>
        rw [hgx] at hg
        exact ih hf hg

theorem document?_eq_of_readText {p q : Path} {u : FileTree} (h : u.readText p = t.readText q) :
    u.document? p = t.document? q := by
  rw [document?, document?, h]

/-- A root document that is overwritten with a defaults list is found again, perhaps by another
path. -/
theorem rootDocument?_of_overwritten {dir p : Path} (h : Overwritten names (.text s) t t')
    (hfound : t.rootDocument? dir = some p) (hp : t'.readText p = .ok s)
    (hdefaults : t'.hasDefaults false p = true) :
    ∃ q, t'.rootDocument? dir = some q ∧ t'.readText q = .ok s := by
  have hmem : p ∈ t.topDocuments dir := by
    rw [rootDocument?] at hfound
    cases hfind : (t.topDocuments dir).find? (t.hasDefaults false) with
    | some q =>
      rw [hfind] at hfound
      cases hfound
      exact List.mem_of_find?_eq_some hfind
    | none =>
      rw [hfind] at hfound
      exact List.mem_of_mem_head? hfound
  obtain ⟨q, hq⟩ := Option.isSome_iff_exists.1
    (List.find?_isSome.2 ⟨p, hmem, hdefaults⟩ :
      ((t.topDocuments dir).find? (t'.hasDefaults false)).isSome)
  refine ⟨q, by rw [rootDocument?, h.topDocuments, hq]; rfl, ?_⟩
  rcases h.readText q with hsame | hnew
  · have hold : t.hasDefaults false q = true := by
      have hq := List.find?_some hq
      rwa [hasDefaults, document?_eq_of_readText hsame] at hq
    obtain ⟨p', hp'⟩ := Option.isSome_iff_exists.1
      (List.find?_isSome.2 ⟨q, List.mem_of_find?_eq_some hq, hold⟩ :
        ((t.topDocuments dir).find? (t.hasDefaults false)).isSome)
    rw [rootDocument?, hp'] at hfound
    cases hfound
    rw [← find?_agree hp' hq hdefaults hold]
    exact hp
  · exact hnew

end FileTree

namespace Workspace

variable {w : Workspace} {t t' : FileTree} {p : Path}

/-- The root document is still the root document after it has been overwritten with a defaults
list. -/
theorem document?_of_overwritten {s : Text} {names : Names}
    (h : FileTree.Overwritten names (.text s) t t')
    (hdocument : w.document? t = some p) (hp : t'.readText p = .ok s)
    (hdefaults : t'.hasDefaults false p = true) :
    ∃ q, w.document? t' = some q ∧ t'.readText q = .ok s := by
  rw [document?] at hdocument ⊢
  cases hselected : w.selected with
  | none =>
    rw [hselected] at hdocument
    exact FileTree.rootDocument?_of_overwritten h hdocument hp hdefaults
  | some chosen =>
    rw [hselected] at hdocument
    dsimp only at hdocument ⊢
    rw [h.isFile]
    split at hdocument
    · next hfile =>
      cases hdocument
      rw [if_pos hfile]
      exact ⟨p, rfl, hp⟩
    · next hfile =>
      rw [if_neg hfile]
      exact FileTree.rootDocument?_of_overwritten h hdocument hp hdefaults

/-- What a rewrite that succeeds has done. -/
theorem rewrite_eq_ok {old new : Rewrite.Selection} {s : Text} {modules : List ConfigModule}
    (hdocument : w.document? t = some p) (htext : t.readText p = .ok s)
    (h : w.rewrite t old new = .ok (modules, t')) :
    FileTree.Overwritten (t.spelled p) (.text (Rewrite.entry s old new).1) t t' ∧
      t'.readText p = .ok (Rewrite.entry s old new).1 ∧ modules = w.modules t' := by
  rw [rewrite, hdocument] at h
  obtain ⟨⟨u, n⟩, hfile, h⟩ := Outcome.bind_eq_ok.1 h
  cases h
  rw [Rewrite.inFile, htext] at hfile
  obtain ⟨_, htext', hfile⟩ := Outcome.bind_eq_ok.1 hfile
  cases htext'
  dsimp only at hfile
  split at hfile
  · cases hfile
  · obtain ⟨u, hwrite, hfile⟩ := Outcome.bind_eq_ok.1 hfile
    cases hfile
    have hwrite := Outcome.mapError_eq_ok.1 hwrite
    have hread := FileTree.readText_eq_ok.1 htext
    exact ⟨FileTree.overwritten_of_write (FileTree.isFile_iff.2 ⟨_, hread⟩) hwrite,
      FileTree.readText_eq_ok.2 (FileTree.read_of_write hwrite), rfl⟩

/-- **A rewrite selects the new module exactly if an entry for the old one carries over**, or if
another entry selects the new one anyway. -/
theorem rewrite_selects_iff {d : ListDocument} {old new : Choice} {modules : List ConfigModule}
    (hdocument : w.document? t = some p) (htext : t.readText p = .ok d.text)
    (hslash : '/' ∉ new.name.text) (hread : (Yaml.read (d.rewritten old new).text).isOk = true)
    (h : w.rewrite t old.selection new.selection = .ok (modules, t')) :
    (∃ m ∈ modules, m.group = new.group.text ∧ m.name = new.name.text) ↔
      ∃ e ∈ d.entries, e.IsFor old ∧ e.Carries t w.root old new ∨
        ¬ e.IsFor old ∧ e.Selects t w.root new := by
  have hentry : ∀ e : EntryLine, (e.rewritten old new).Selects t w.root new ↔
      e.IsFor old ∧ e.Carries t w.root old new ∨ ¬ e.IsFor old ∧ e.Selects t w.root new := by
    intro e
    by_cases hfor : e.IsFor old
    · simp [hfor, EntryLine.selects_rewritten hslash hfor]
    · simp [hfor, EntryLine.rewritten_of_not_isFor hfor]
  obtain ⟨hover, hp, rfl⟩ := rewrite_eq_ok hdocument htext h
  rw [ListDocument.text_rewritten] at hover hp
  cases hv : Yaml.read (d.rewritten old new).text with
  | error fault =>
    rw [hv] at hread
    cases hread
  | ok v =>
    obtain ⟨vs, es, -, rfl⟩ := ListDocument.read_eq_ok hv
    have hdefaults : t'.hasDefaults false p = true := by
      simp [FileTree.hasDefaults, FileTree.document?, hp, hv, Except.toOption, Entries.find?,
        Value.sameKey_refl]
    obtain ⟨q, hq, htext⟩ := document?_of_overwritten hover hdocument hp hdefaults
    rw [modules, hq]
    dsimp only
    rw [ListDocument.resolve_iff_selects hslash htext hv, ListDocument.entries_rewritten]
    simp only [List.mem_map, exists_exists_and_eq_and, EntryLine.selects_congr hover.isFile, hentry]

namespace Vanishing

/-- A root document whose entry can be rewritten to something that is no entry. -/
def tree (entry : Text) : FileTree where
  entries := [(["r"].map String.toList, .directory),
    (["r", "c.yaml"].map String.toList, .file (.text ("defaults:\n  - " ++ entry ++ ['\n']))),
    (["r", "x.yaml"].map String.toList, .file (.text "a: 1\n"))]
  workingDirectory := []

def workspace : Workspace := ⟨"/r", some "/r/c.yaml", Settings.standard⟩

def old : Choice :=
  ⟨⟨"db", by decide⟩, ⟨"mysql", by decide⟩⟩

def new : Choice :=
  ⟨⟨"db", by decide⟩, ⟨"5", by decide⟩⟩

/-- The document with the old choice as a path. -/
def document : ListDocument where
  above := []
  tail := []
  below := []
  indent := 2
  first := ⟨false, .scalar old.path, [], [], by simp [Yaml.isFiller_nil], by decide⟩
  others := []
  rest := []
  aboveFilled := by simp
  filled := by simp [Yaml.isFiller_nil]
  apart := by decide
  begins := by simp [Yaml.BeginsLine]

end Vanishing

open Vanishing in
/-- A path carries over even if its name is read as a number elsewhere. -/
theorem rewrite_selects_iff_path :
    workspace.rewrite (tree "db/mysql") old.selection new.selection =
      .ok ([⟨"db", "5", none, false⟩], tree "db/5") ∧
    ((∃ m ∈ [(⟨"db", "5", none, false⟩ : ConfigModule)],
        m.group = new.group.text ∧ m.name = new.name.text) ↔
      ∃ e ∈ document.entries, e.IsFor old ∧ e.Carries (tree "db/mysql") workspace.root old new ∨
        ¬ e.IsFor old ∧ e.Selects (tree "db/mysql") workspace.root new) := by
  have hrewrite : workspace.rewrite (tree "db/mysql") old.selection new.selection =
      .ok ([⟨"db", "5", none, false⟩], tree "db/5") := by
    decide +kernel
  have hdocument : workspace.document? (tree "db/mysql") = some "/r/c.yaml".toList := by
    decide +kernel
  have htext : (tree "db/mysql").readText "/r/c.yaml".toList = .ok document.text := by
    decide +kernel
  have hread : (Yaml.read (document.rewritten old new).text).isOk = true := by
    decide +kernel
  exact ⟨hrewrite, rewrite_selects_iff hdocument htext (by decide) hread hrewrite⟩

open Vanishing in
/-- **A rewrite that succeeds may leave nothing selected.** A name that is read as a number is no
name in an entry that is written as a mapping, and an entry marked `override` cannot be a bare
name. -/
theorem rewrite_vanishes :
    (workspace.modules (tree "db: mysql")).map ConfigModule.text = ["db=mysql".toList] ∧
      workspace.rewrite (tree "db: mysql") ⟨"db", "mysql"⟩ ⟨"db", "5"⟩ =
        .ok ([], tree "db: 5") ∧
      (workspace.modules (tree "override db: mysql")).map ConfigModule.text =
        ["db=mysql".toList] ∧
      workspace.rewrite (tree "override db: mysql") ⟨"db", "mysql"⟩ ⟨"root", "x"⟩ =
        .ok ([], tree "override x") := by
  refine ⟨?_, ?_, ?_, ?_⟩ <;> decide +kernel

end Workspace
end LayeredConfig
