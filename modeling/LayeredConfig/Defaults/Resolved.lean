import LayeredConfig.Files.Discovery

/-!
# Resolved modules

The modules that a defaults list selects, in order, each with its file if there is one.
-/
namespace LayeredConfig

structure ConfigModule where
  group : Text
  name : Text
  /-- The module's file; nothing if it is missing. -/
  path : Option Path
  isOverride : Bool
deriving DecidableEq, Inhabited

namespace ConfigModule

def resolved (m : ConfigModule) : Bool := m.path.isSome

def locate (t : FileTree) (root : Path) (group name : Text) (isOverride : Bool) : ConfigModule :=
  let p := modulePath root group name
  ⟨group, name, if t.isFile p then some p else none, isOverride⟩

/-- The path of the module's file below the root. -/
def relative? (m : ConfigModule) (root : Path) : Option Text := m.path.bind (Path.relative? root)

/-- A module as `group=name`. -/
def text (m : ConfigModule) : Text := m.group ++ '=' :: m.name

/-- The module of a defaults entry. A bare name without a file, the marker and entries that are
not recognized have none. -/
def select? (t : FileTree) (root : Path) : DefaultsEntry → Option ConfigModule
  | .group s => some (locate t root s.group s.name s.isOverride)
  | .bare name =>
    let m := locate t root Defaults.rootGroup name false
    if m.resolved then some m else none
  | .selfMarker | .unrecognized _ => none

/-- The modules of a root document; none if it cannot be read. -/
def resolve (t : FileTree) (root document : Path) : List ConfigModule :=
  match (t.document? document).bind Defaults.ofDocument? with
  | some entries => entries.filterMap (select? t root)
  | none => []

end ConfigModule
end LayeredConfig
