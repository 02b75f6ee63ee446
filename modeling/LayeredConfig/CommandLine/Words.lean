import LayeredConfig.Defaults.Rewrite

/-!
# Words of the command line

Arguments that stand for a value: a selection, and where log lines go.
-/
namespace LayeredConfig

/-- Where log lines go. -/
inductive LogTarget where
  | off
  | stdout
  | stderr
  /-- A file that log lines are added to. -/
  | file (p : Path)
deriving DecidableEq, Inhabited

/-- The target an argument names. What is no known word is a file. -/
def LogTarget.ofArgument (s : Text) : LogTarget :=
  if s = "0".toList ∨ s = "off".toList then .off
  else if s = "1".toList ∨ s = "stdout".toList then .stdout
  else if s = "2".toList ∨ s = "stderr".toList then .stderr
  else .file s

namespace Rewrite.Selection

/-- A selection as `group/name`. -/
def text (s : Selection) : Text := s.group ++ '/' :: s.name

/-- The selection an argument names: a group and, after the last slash, a name. A name alone
belongs to the root group. -/
def ofArgument? (s : Text) : Option Selection :=
  let s := Text.trim s
  let (group, name) := (Text.splitLast '/' s).getD (Defaults.rootGroup, s)
  if group.isEmpty ∨ name.isEmpty then none else some ⟨group, name⟩

/-- Why an argument names no selection. -/
def refusal (s : Text) : Text :=
  "Invalid selection '" ++ Text.trim s ++ "'. Expected group/name"

end Rewrite.Selection
end LayeredConfig
