import LayeredConfig.Files.Discovery
import LayeredConfig.Proofs.Files.Directory

/-!
# Overwriting a file

A file that is there and is written again. Everything in the tree stays where it is, so that the
same files are found as before; only what a path to this file reads is new.
-/
namespace LayeredConfig.FileTree

/-- A file that was there has been given another content, and nothing else has changed. -/
structure Overwritten (names : Names) (content : Content) (t t' : FileTree) : Prop where
  old : ∃ c, t.at? names = some (.file c)
  new : t' = t.put names (.file content)

theorem overwritten_of_write {t t' : FileTree} {p : Path} {c : Content} (hfile : t.isFile p = true)
    (h : t.write p c = .ok t') : Overwritten (t.spelled p) c t t' := by
  obtain ⟨old, hread⟩ := isFile_iff.1 hfile
  obtain ⟨names, htarget, rfl⟩ := write_eq_ok.1 h
  obtain rfl := (target_eq_ok htarget).2.1
  exact ⟨⟨old, (read_eq_ok hread).2⟩, rfl⟩

namespace Overwritten

variable {names : Names} {content : Content} {t t' : FileTree}

theorem names_ne_nil (h : Overwritten names content t t') : names ≠ [] := by
  rintro rfl
  obtain ⟨c, hc⟩ := h.old
  cases hc

theorem at?_self (h : Overwritten names content t t') : t'.at? names = some (.file content) := by
  rw [h.new, at?_put t h.names_ne_nil, if_pos rfl]

theorem at?_of_ne (h : Overwritten names content t t') {n : Names} (hn : n ≠ names) :
    t'.at? n = t.at? n := by
  rw [h.new, at?_put t h.names_ne_nil, if_neg hn]

theorem needDirectory (h : Overwritten names content t t') (n : Names) :
    t'.needDirectory n = t.needDirectory n := by
  by_cases hn : n = names
  · obtain ⟨c, hc⟩ := h.old
    rw [hn, FileTree.needDirectory, FileTree.needDirectory, h.at?_self, hc]
  · rw [FileTree.needDirectory, FileTree.needDirectory, h.at?_of_ne hn]

theorem walk (h : Overwritten names content t t') (n : Names) (segments : List Text) :
    t'.walk n segments = t.walk n segments := by
  induction segments generalizing n with
  | nil => rfl
  | cons s rest ih => simp only [FileTree.walk, h.needDirectory, ih]

theorem locate (h : Overwritten names content t t') (p : Path) : t'.locate p = t.locate p := by
  have hwd : t'.workingDirectory = t.workingDirectory := by
    rw [h.new, workingDirectory_put]
  simp only [FileTree.locate, h.walk, hwd]

/-- A path to the file reads the new content if it read the old one. -/
theorem stat (h : Overwritten names content t t') (p : Path) :
    t'.stat p = t.stat p ∨ t'.stat p = .ok (.file content) ∧
      ∃ c, t.at? names = some (.file c) ∧ t.stat p = .ok (.file c) := by
  rw [FileTree.stat, FileTree.stat, h.locate]
  cases t.locate p with
  | error f => exact Or.inl rfl
  | ok place =>
    rw [Outcome.ok_bind, Outcome.ok_bind]
    by_cases hn : place.names = names
    · obtain ⟨c, hc⟩ := h.old
      rw [hn, h.at?_self, hc]
      cases place.slashed with
      | true => exact Or.inl rfl
      | false => exact Or.inr ⟨rfl, c, rfl, rfl⟩
    · rw [h.at?_of_ne hn]
      exact Or.inl rfl

theorem isFile (h : Overwritten names content t t') (p : Path) : t'.isFile p = t.isFile p := by
  rw [FileTree.isFile, FileTree.isFile]
  rcases h.stat p with hsame | ⟨hnew, c, -, hold⟩
  · rw [hsame]
  · rw [hnew, hold]

theorem readText {s : Text} (h : Overwritten names (.text s) t t') (p : Path) :
    t'.readText p = t.readText p ∨ t'.readText p = .ok s := by
  rcases h.stat p with hsame | ⟨hnew, -, -⟩
  · left
    rw [FileTree.readText, FileTree.readText, read, read, hsame]
  · right
    rw [FileTree.readText, read, hnew]
    rfl

theorem children (h : Overwritten names content t t') (n : Names) :
    t'.children n = t.children n := by
  have hmem : names ∈ t.keys := by
    obtain ⟨c, hc⟩ := h.old
    rw [mem_keys_iff h.names_ne_nil, hc]
    exact Option.some_ne_none _
  rw [children_eq, children_eq, h.new, keys_put, if_pos hmem]

theorem list (h : Overwritten names content t t') (p : Path) : t'.list p = t.list p := by
  simp only [FileTree.list, h.locate, h.needDirectory, h.children]

theorem topDocuments (h : Overwritten names content t t') (dir : Path) :
    t'.topDocuments dir = t.topDocuments dir := by
  simp only [FileTree.topDocuments, h.list, h.isFile]

end Overwritten
end LayeredConfig.FileTree
