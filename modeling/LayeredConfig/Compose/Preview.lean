import LayeredConfig.Compose.Lenient
import LayeredConfig.Interpolation.Resolver

/-!
# Previews

The text that shows a composed configuration. It can always be shown: failures stand in front of
it, or in place of it, as comment lines.
-/
namespace LayeredConfig

/-- Which compositions are tried. -/
inductive MergeStrategy where
  /-- The strict one, and if that fails the lenient one. -/
  | auto
  /-- The strict one only. -/
  | native
  /-- The lenient one only. -/
  | manual
deriving DecidableEq, Inhabited

namespace MergeStrategy

/-- The strategy a word names. -/
def ofWord? (s : Text) : Option MergeStrategy :=
  let word := Text.lower (Text.trim s)
  if word = "auto".toList then some .auto
  else if word = "native".toList ∨ word = "hydra".toList then some .native
  else if word = "manual".toList then some .manual
  else none

end MergeStrategy

structure MergeSettings where
  strategy : MergeStrategy
  /-- Whether interpolations of a strict composition are resolved. -/
  resolveInterpolations : Bool
deriving DecidableEq, Inhabited

/-- The names of the two compositions. -/
def composerNames : List Text := ["native", "manual"]

/-- The variables of the environment. -/
abbrev Environment := List (Text × Text)

namespace Preview

/-- Every line of a message as a comment. -/
def commentLines (message : Text) : Text :=
  (Text.lines message).flatMap fun line => "# " ++ line ++ "\n"

def errorText (wording : Wording) (e : ComposeError) : Text :=
  "# Error merging config:\n" ++ commentLines (e.message wording)

def rendered (v : Value) : Except ComposeError Text :=
  match Yaml.render? v with
  | some s => .ok s
  | none => .error .render

/-- The warning in front of a document some of whose interpolations are left. -/
def warning (failures : List Interpolation.Failure) : Text :=
  match failures with
  | [] => []
  | first :: more =>
    let head : Text := "# Warning: some interpolations could not be resolved\n#   (" ++
      Text.singleLine first.message ++ ")\n"
    if more.isEmpty then head
    else head ++ "#   unresolved: " ++
      Text.joinWith ", " (failures.map fun f => Text.singleLine f.expression) ++ "\n"

/-- The strict composition with its interpolations resolved as far as possible. -/
def native (env : Environment) (t : FileTree) (root p : Path) (resolve : Bool)
    (overrides : List Text) : Except ComposeError Text := do
  let v ← Strict.compose t root p overrides
  if resolve then
    let r := Interpolation.resolve (fun name => env.lookup name) v
    .ok (warning r.failures ++ (← rendered r.value))
  else rendered v

/-- The lenient composition, or the reason why there is none. -/
def manual (t : FileTree) (root p : Path) (overrides : List Text) (wording : Wording) : Text :=
  match (Lenient.compose t root p overrides).bind rendered with
  | .ok s => s
  | .error e => errorText wording e

/-- The composed configuration of a root document. -/
def merge (env : Environment) (t : FileTree) (root : Path) (settings : MergeSettings)
    (document : Option Path) (overrides : List Text) (wording : Wording := .marked) : Text :=
  match document with
  | none => errorText wording .noRootDocument
  | some p =>
    match settings.strategy with
    | .manual => manual t root p overrides wording
    | .native =>
      match native env t root p settings.resolveInterpolations overrides with
      | .ok s => s
      | .error e => errorText wording e
    | .auto =>
      match native env t root p settings.resolveInterpolations overrides with
      | .ok s => s
      | .error e =>
        "# Native compose failed (" ++ Text.singleLine (e.message wording) ++
          "); showing manual merge\n" ++ manual t root p overrides wording

end Preview
end LayeredConfig
