import LayeredConfig.CommandLine.Arguments

/-!
# Running commands

What a command prints and what becomes of the files. A failure is reported with its causes, and
leaves the exit code 1; arguments that are not understood leave 2.
-/
namespace LayeredConfig.CommandLine

/-- A failure with what caused it, outermost first. -/
structure Failure where
  message : Text
  causes : List Text
deriving DecidableEq, Inhabited

namespace Failure

def plain (message : Text) : Failure := ⟨message, []⟩

/-- A failure seen from further outside. -/
def within (context : Text) (f : Failure) : Failure := ⟨context, f.message :: f.causes⟩

def ofSettings (wording : Wording) (e : SettingsFault) : Failure :=
  ⟨e.message wording, match e with
    | .io _ fault => [fault.message]
    | .parse p fault => [wording.document p fault]
    | .invalid => [wording.settings]⟩

def ofRewrite (e : Rewrite.Fault) : Failure :=
  ⟨e.message, match e with
    | .io _ fault => [fault.message]
    | .noRootDocument | .entryNotFound .. => []⟩

def ofSnapshot (wording : Wording) (e : SnapshotError) : Failure :=
  ⟨e.message wording, match e with
    | .io _ fault => [fault.message]
    | .manifestInvalid p => [wording.manifest p]
    | .manifestMissing _ => []⟩

/-- A cause under a first text that is as wide as the indentation of its further lines. -/
def causeText (first indentation cause : Text) : Text :=
  '\n' :: first ++ Text.joinWith ('\n' :: indentation) (Text.splitAll '\n' cause)

def numbered : (n : Nat) → List Text → Text
  | _, [] => []
  | n, cause :: rest =>
    causeText (Text.padLeft 5 (Text.ofNat n) ++ ": ") "       " cause ++ numbered (n + 1) rest

/-- The report of a failure. Causes are numbered where there are several. -/
def text (f : Failure) : Text :=
  "Error: " ++ f.message ++ (match f.causes with
    | [] => []
    | [cause] => "\n\nCaused by:" ++ causeText "    " "    " cause
    | causes => "\n\nCaused by:" ++ numbered 0 causes) ++ "\n"

end Failure

/-- What a run leaves behind. -/
structure Result where
  code : Nat
  out : Text
  err : Text
  tree : FileTree
deriving Inhabited

/-- What a command prints or why it fails, and the files afterwards. -/
abbrev Action := Except Failure Text × FileTree

def versionText : Text := "hydra-compose 0.2.1\n"

/-- Makes sure that there is a log file. -/
def openLog (t : FileTree) : LogTarget → Except Failure FileTree
  | .file p =>
    match t.target p with
    | .error fault => .error ⟨"cannot open log file " ++ p, [fault.message]⟩
    | .ok names => .ok (if (t.at? names).isSome then t else t.put names (.file (.text [])))
  | .off | .stdout | .stderr => .ok t

/-- The configuration root: what has been named, or the working directory if one of its documents
has a defaults list. -/
def configRoot (t : FileTree) : Option Path → Except Failure Path
  | some dir => .ok dir
  | none =>
    if t.isConfigRoot false t.currentPath then .ok t.currentPath
    else .error (.plain ("no root document with a defaults list in " ++ t.currentPath ++
      "; pass --config-dir"))

/-- The root document that has been named, in the working directory or else below the root. -/
def namedDocument (t : FileTree) (root p : Path) : Except Failure Path :=
  if t.isFile p then .ok p
  else
    let below := Path.join root p
    if t.isFile below then .ok below
    else .error (.plain ("root document " ++ below ++ " does not exist"))

def openWorkspace (wording : Wording) (env : Environment) (t : FileTree) (r : Request) :
    Except Failure Workspace := do
  let root ← configRoot t r.configDir
  if ¬ t.isDirectory root then
    .error (.plain ("configuration root " ++ root ++ " is not a directory"))
  else
    let w ← match r.settings with
      | none => .ok (Workspace.ofTiers env t root)
      | some p =>
        match Settings.loadFile env t p with
        | .ok loaded => .ok (Workspace.ofSettings t root loaded.settings)
        | .error e => .error (Failure.ofSettings wording e)
    match r.document with
    | none => .ok w
    | some p => do .ok (w.select t (← namedDocument t root p))

def modulesText (w : Workspace) (t : FileTree) : Text :=
  Listing.modulesText (w.modules t) (w.document? t) w.root

/-- The directory of a snapshot that is named by a path, or by its name in the backup directory. -/
def snapshotPath (w : Workspace) (t : FileTree) (p : Path) : Path :=
  if t.isDirectory p then p else Path.join w.snapshots.directory p

def skippedLine (rel : Text) : Text := "  skipped " ++ rel ++ "\n"

def restoredText (dir : Path) (r : RestoreReport) : Text :=
  "Restored " ++ Text.ofNat r.restored.length ++ " file(s) from " ++ dir ++
    " (safety snapshot: " ++ r.safety ++ ")\n" ++ r.skipped.flatMap skippedLine

def perform (wording : Wording) (env : Environment) (now : Int) (w : Workspace) (t : FileTree) :
    Command → Action
  | .modules .text => (.ok (modulesText w t), t)
  | .modules .json =>
    (.ok ((Listing.modulesJson (w.modules t) (w.document? t) w.root).text ++ "\n"), t)
  | .roots => (.ok (Listing.rootsText (w.candidates t) (w.document? t) w.root), t)
  | .merge overrides | .watch overrides =>
    (.ok (w.merge env t (overrides.filter Override.looksValid) wording), t)
  | .rewrite old new =>
    match w.rewrite t old new with
    | .error e => (.error (.ofRewrite e), t)
    | .ok (modules, t) =>
      (.ok ("Rewrote " ++ old.text ++ " -> " ++ new.text ++ "\n" ++
        Listing.modulesText modules (w.document? t) w.root), t)
  | .createSnapshot tag =>
    match w.createSnapshot now tag t with
    | (.error e, t) => (.error (.ofSnapshot wording e), t)
    | (.ok dir, t) => (.ok ("Created snapshot " ++ dir ++ "\n"), t)
  | .listSnapshots .text => (.ok (Listing.snapshotsText (w.snapshots.list t)), t)
  | .listSnapshots .json => (.ok ((Listing.snapshotsJson (w.snapshots.list t)).text ++ "\n"), t)
  | .restoreSnapshot p =>
    let dir := snapshotPath w t p
    match w.restoreSnapshot now dir t with
    | (.error e, t) =>
      (.error ((Failure.ofSnapshot wording e).within ("cannot restore " ++ dir)), t)
    | (.ok report, t) => (.ok (restoredText dir report), t)

/-- Does what is asked for. -/
def fulfil (wording : Wording) (env : Environment) (now : Int) (t : FileTree) (r : Request) :
    Action :=
  match openLog t r.log with
  | .error f => (.error f, t)
  | .ok t =>
    match openWorkspace wording env t r with
    | .error f => (.error f, t)
    | .ok w => perform wording env now w t r.command

/-- Runs the program with its arguments at a time, which is given in microseconds. -/
def run (env : Environment) (now : Int) (t : FileTree) (args : List Text)
    (wording : Wording := .marked) : Result :=
  match Request.ofArguments args with
  | .error .usage => ⟨2, [], [], t⟩
  | .error .help => ⟨0, [], [], t⟩
  | .error .version => ⟨0, versionText, [], t⟩
  | .ok request =>
    match fulfil wording env now t request with
    | (.ok out, t) => ⟨0, out, [], t⟩
    | (.error f, t) => ⟨1, [], f.text, t⟩

end LayeredConfig.CommandLine
