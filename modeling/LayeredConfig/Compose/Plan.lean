import LayeredConfig.Compose.Error
import LayeredConfig.Defaults.Module
import LayeredConfig.Override.Basic

/-!
# Plans

What is composed, in order: the root document's own keys, files beside it, and names selected
from groups. Entries marked `override` and overrides from outside change the selections of a
plan and not its order.
-/
namespace LayeredConfig

/-- One layer of a composition. -/
inductive Step where
  /-- The root document's own keys. -/
  | ownKeys
  /-- A file beside the root document, merged at the top level. -/
  | rootFile (name : Text)
  /-- A group's file, merged under the group's package. -/
  | group (group name : Text)
deriving DecidableEq, Inhabited

def Step.selects (group : Text) : Step → Bool
  | .group g _ => g = group
  | _ => false

abbrev Plan := List Step

namespace Plan

def selects (p : Plan) (group : Text) : Bool := p.any (Step.selects group)

/-- The plan with another name in the first step of a group. -/
def switch (group name : Text) : Plan → Plan
  | [] => []
  | s :: rest => if s.selects group then .group group name :: rest else s :: switch group name rest

/-- The plan without the first step of a group. -/
def deselect (group : Text) (p : Plan) : Plan := p.eraseP (Step.selects group)

/-- Adds the steps of a defaults entry to a plan. -/
def add (t : FileTree) (root : Path) (p : Plan) : DefaultsEntry → Except ComposeError Plan
  | .selfMarker => .ok (p ++ [.ownKeys])
  | .bare name =>
    if t.isFile (modulePath root Defaults.rootGroup name) then .ok (p ++ [.rootFile name])
    else .error (.unsupportedEntry ("'" ++ name ++ "' matches no file and has no group selection"))
  | .group s =>
    if s.isOverride then
      if p.selects s.group then .ok (p.switch s.group s.name)
      else .error (.overrideWithoutTarget s.group)
    else .ok (p ++ [.group s.group s.name])
  | .unrecognized raw => .error (.unsupportedEntry raw)

/-- The root document's own keys come last where nothing else is said. -/
def close (p : Plan) : Plan := if p.contains .ownKeys then p else p ++ [.ownKeys]

/-- The plan of a defaults list. -/
def ofEntries (t : FileTree) (root : Path) (entries : List DefaultsEntry) :
    Except ComposeError Plan := do
  .ok (close (← entries.foldlM (add t root) []))

/-- What becomes of an override that meets a plan. -/
inductive Outcome where
  /-- It changes the plan. -/
  | changed (p : Plan)
  /-- It is left for the composed document. -/
  | left
deriving DecidableEq

/-- Applies an override to a plan. An override whose key is a selected group switches, removes
or clashes with that selection; one that adds a group for which there is a file selects it. -/
def meet (t : FileTree) (root : Path) (p : Plan) (o : Override) : Except ComposeError Outcome :=
  let name := Text.trim (o.value.getD [])
  let hasFile := ¬ name.isEmpty && t.isFile (modulePath root o.key name)
  match o.kind, p.selects o.key with
  | .assign, true | .forceAdd, true => .ok (.changed (p.switch o.key name))
  | .append, true => if hasFile then .error (.keyExists o.key) else .ok .left
  | .append, false | .forceAdd, false =>
    if hasFile then .ok (.changed (p ++ [.group o.key name])) else .ok .left
  | .delete, true => .ok (.changed (p.deselect o.key))
  | .delete, false | .assign, false => .ok .left

/-- Applies the overrides that address the plan, in order; gives it and the others. -/
def applyOverrides (t : FileTree) (root : Path) (p : Plan) :
    List Override → Except ComposeError (Plan × List Override)
  | [] => .ok (p, [])
  | o :: os => do
    match ← p.meet t root o with
    | .changed q => q.applyOverrides t root os
    | .left =>
      let (q, rest) ← p.applyOverrides t root os
      .ok (q, o :: rest)

end Plan
end LayeredConfig
