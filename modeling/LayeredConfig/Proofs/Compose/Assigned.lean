import LayeredConfig.Proofs.Compose.Lenient
import LayeredConfig.Proofs.Document.Lookup
import Mathlib.Data.List.Induction

/-!
# The last assignment

Overrides are laid over a lenient composition under string keys. The value of the last of them
lies along the string keys of its path whatever was composed, but a number or a boolean with the
text of a segment keeps its place in front of them, and is read first.
-/
namespace LayeredConfig

open Outcome

/-- The value of an argument has no key twice. -/
theorem Value.ofArgument_keyed (raw : Text) : (ofArgument raw).Keyed := by
  unfold ofArgument
  dsimp only
  split
  · trivial
  cases hread : Yaml.read (Text.trim raw) with
  | error e => trivial
  | ok v =>
    have hv := Yaml.read_keyed hread
    cases v with
    | sequence items =>
      dsimp only
      split
      · exact hv
      · trivial
    | mapping es =>
      dsimp only
      split
      · exact hv
      · trivial
    | tagged => trivial
    | _ => exact hv

namespace Assignment

theorem branch_keyed (a : Assignment) : a.branch.Keyed :=
  Value.nest_keyed (Value.ofArgument_keyed a.2) _

theorem tree_concat (as : List Assignment) (a : Assignment) :
    tree (as ++ [a]) = (tree as).merge a.branch := by
  rw [tree, List.foldl_append]
  rfl

theorem tree_keyed (as : List Assignment) : (tree as).Keyed := by
  induction as using List.reverseRecOn with
  | nil => exact Value.keyed_empty
  | append_singleton as a ih =>
    rw [tree_concat]
    exact ih.merge (branch_keyed a)

/-- The value of the last assignment lies at its path, whatever the earlier ones are. -/
theorem atKeys?_tree {as : List Assignment} {a : Assignment} (h : as.getLast? = some a)
    (hv : (Value.ofArgument a.2).isMapping = false) :
    (tree as).atKeys? (Value.stringKeys (Text.splitAll '.' a.1)) = some (.ofArgument a.2) := by
  obtain ⟨as, rfl⟩ := List.getLast?_eq_some_iff.1 h
  rw [tree_concat]
  exact (Value.atKeys?_merge_eq_some (branch_keyed a) hv).2 (Or.inl (Value.atKeys?_nest _ _))

end Assignment

namespace Lenient

variable {t : FileTree} {root p : Path} {raws : List Text} {document d : Value}

/-- **The last assignment wins, unless another key is read before it.** Whatever is composed, the
value of the last assignment lies along the string keys of its path. It is what is read at the path
exactly if the reading is not led elsewhere, or to the same value. Only a number or a boolean with
the text of a segment can lead it elsewhere, from a mapping along the string keys. -/
theorem compose_last_assignment {key value : Text} (h : compose t root p raws = .ok d)
    (hlast : (raws.filterMap Assignment.parse?).getLast? = some (key, value))
    (hv : (Value.ofArgument value).isMapping = false) :
    d.atKeys? (Value.stringKeys (Text.splitAll '.' key)) = some (.ofArgument value) ∧
    (d.get? (Text.splitAll '.' key) = some (.ofArgument value) ↔
      ∀ n rest, d.detour? (Text.splitAll '.' key) = some (n, rest) →
        n.get? rest = some (.ofArgument value)) ∧
    ∀ n rest, d.detour? (Text.splitAll '.' key) = some (n, rest) →
      ∃ before s es k, Text.splitAll '.' key = before ++ s :: rest ∧
        d.atKeys? (Value.stringKeys before) = some (.mapping es) ∧ (k, n) ∈ es ∧
        k.matchesSegment s = true ∧ ∀ t, k ≠ .string t := by
  obtain ⟨document, -, h⟩ := compose_eq_ok.1 h
  rw [composeValue_eq] at h
  obtain ⟨v, -, rfl⟩ := map_eq_ok.1 h
  have hsome : (raws.filterMap Assignment.parse?).isEmpty = false := by
    cases has : raws.filterMap Assignment.parse? with
    | nil => rw [has] at hlast; cases hlast
    | cons a as => rfl
  have hat : (v.merge (Assignment.tree (raws.filterMap Assignment.parse?))).atKeys?
      (Value.stringKeys (Text.splitAll '.' key)) = some (.ofArgument value) :=
    (Value.atKeys?_merge_eq_some (Assignment.tree_keyed _) hv).2
      (Or.inl (Assignment.atKeys?_tree hlast hv))
  rw [assigned, hsome, if_neg Bool.false_ne_true]
  exact ⟨hat, Value.get?_eq_some_iff hat, fun n rest => Value.detour?_eq_some⟩

/-- Two root documents with a port for a key: in the first it is a number, and in the second a
module has put the string in front of the number. -/
def numbered : FileTree where
  entries := [
    (["conf".toList], .directory),
    (["conf".toList, "config.yaml".toList], .file (.text "ports:\n  80: http\n")),
    (["conf".toList, "named.yaml".toList], .file (.text "defaults:\n- base\nports:\n  80: http\n")),
    (["conf".toList, "base.yaml".toList], .file (.text "ports:\n  '80': web\n"))]
  workingDirectory := []

theorem compose_last_assignment_named :
    let d : Value := .mapping [(.string "ports", .mapping [(.string "80", .string "proxy"),
      (.number (.int 80), .string "http"), (.string "443", .string "tls")])]
    compose numbered "/conf" "/conf/named.yaml" ["ports.443=tls", "ports.80=proxy"] = .ok d ∧
      d.atKeys? (Value.stringKeys ["ports", "80"]) = some (.string "proxy") ∧
      d.get? ["ports", "80"] = some (.string "proxy") := by
  intro d
  have h : compose numbered "/conf" "/conf/named.yaml" ["ports.443=tls", "ports.80=proxy"] =
      .ok d := by
    decide +kernel
  have hlast : (["ports.443=tls".toList, "ports.80=proxy".toList].filterMap
      Assignment.parse?).getLast? = some ("ports.80".toList, "proxy".toList) := by decide +kernel
  obtain ⟨hat, hiff, -⟩ := compose_last_assignment h hlast (by decide +kernel)
  have hsegments : Text.splitAll '.' "ports.80" = ["ports".toList, "80".toList] := by decide +kernel
  have hvalue : Value.ofArgument "proxy" = .string "proxy" := by decide +kernel
  rw [hsegments, hvalue] at hat hiff
  have hnone : d.detour? ["ports", "80"] = none := by decide +kernel
  refine ⟨h, hat, hiff.2 fun n rest hn => ?_⟩
  rw [hnone] at hn
  cases hn

/-- A number is read before the string key that holds the assigned value. -/
theorem compose_last_assignment_hidden :
    let d : Value := .mapping [(.string "ports", .mapping [(.number (.int 80), .string "http"),
      (.string "80", .string "proxy")])]
    compose numbered "/conf" "/conf/config.yaml" ["ports.80=proxy"] = .ok d ∧
      ["ports.80=proxy".toList].filterMap Assignment.parse? =
        [("ports.80".toList, "proxy".toList)] ∧
      Value.ofArgument "proxy" = .string "proxy" ∧
      d.get? (Text.splitAll '.' "ports.80") = some (.string "http") := by
  decide +kernel

end Lenient
end LayeredConfig
