import LayeredConfig.Settings.Basic

/-!
# Tiers of settings

Settings come from the built-in values, a user's file, a file at the configuration root and the
environment, each over the ones before. A null says nothing, so it leaves what lies below.
-/
namespace LayeredConfig

/-- The tiers, the lowest first. -/
inductive SettingsTier where
  | defaults
  | user
  | project
  | environment
deriving DecidableEq, Inhabited

namespace SettingsTier

def all : List SettingsTier := [.defaults, .user, .project, .environment]

def name : SettingsTier → Text
  | .defaults => "defaults"
  | .user => "user"
  | .project => "project"
  | .environment => "environment"

end SettingsTier

/-- Why an explicit settings file cannot be used. -/
inductive SettingsFault where
  | io (path : Path) (fault : FileFault)
  | parse (path : Path) (fault : Yaml.Fault)
  | invalid
deriving DecidableEq

def SettingsFault.message (e : SettingsFault) (wording : Wording := .marked) : Text :=
  match e with
  | .io path fault => "failed to read settings file " ++ path ++ ": " ++ fault.message
  | .parse path fault =>
    "failed to parse settings file " ++ path ++ ": " ++ wording.document path fault
  | .invalid => "invalid merged settings: " ++ wording.settings

/-- Where the files of the tiers lie. -/
structure SettingsPaths where
  userDir : Option Path
  projectFile : Option Path
deriving DecidableEq, Inhabited

/-- Settings and the files they come from, the lowest tier first. -/
structure LoadedSettings where
  settings : Settings
  sources : List (SettingsTier × Path)
deriving DecidableEq

namespace Settings

def projectFileName : Text := ".hydra-compose.yaml"

def userFileName : Text := "settings.yaml"

/-- The files of the tiers for a configuration root. -/
def pathsFor (env : Environment) (root : Path) : SettingsPaths :=
  let home := (env.lookup "HOME".toList).filter fun h => ¬ h.isEmpty
  { userDir := (env.lookup "HYDRA_COMPOSE_USER_DIR".toList).orElse fun _ =>
      home.map fun h => Path.join h ".hydra-compose"
    projectFile := some (Path.join root projectFileName) }

/-- What the environment sets. A strategy it does not know is no setting. -/
def applyEnvironment (env : Environment) (s : Settings) : Settings :=
  let s := match env.lookup "HYDRA_COMPOSE_BACKUP_DIR".toList with
    | some dir => { s with backups := { s.backups with dirName := dir } }
    | none => s
  match (env.lookup "HYDRA_COMPOSE_MERGE_STRATEGY".toList).bind MergeStrategy.ofWord? with
  | some strategy => { s with merge := { s.merge with strategy := strategy } }
  | none => s

/-- The layer of a tier's file; nothing if there is no such file or it cannot be read. -/
def layer? (t : FileTree) (tier : SettingsTier) (file : Option Path) :
    Option (Value × SettingsTier × Path) := do
  let p ← file
  let v ← t.document? p
  some (v, tier, p)

/-- The settings of all tiers. Where the files do not hold settings, the built-in values
count. -/
def load (env : Environment) (t : FileTree) (paths : SettingsPaths) : LoadedSettings :=
  let userFile := paths.userDir.map fun d => Path.join d userFileName
  let layers := (layer? t .user userFile).toList ++ (layer? t .project paths.projectFile).toList
  let merged := Value.mergeAll .keepBase (standard.toValue :: layers.map (·.1))
  ⟨applyEnvironment env ((ofValue? merged).getD standard), layers.map (·.2)⟩

/-- The settings of one file over the built-in values. -/
def loadFile (env : Environment) (t : FileTree) (p : Path) :
    Except SettingsFault LoadedSettings := do
  let s ← (t.readText p).mapError (.io p)
  let v ← (Yaml.read s).mapError (.parse p)
  match ofValue? (Value.mergeAll .keepBase [standard.toValue, v]) with
  | some settings => .ok ⟨applyEnvironment env settings, [(.project, p)]⟩
  | none => .error .invalid

end Settings
end LayeredConfig
