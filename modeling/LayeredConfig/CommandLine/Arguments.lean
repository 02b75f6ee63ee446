import LayeredConfig.CommandLine.Words
import LayeredConfig.Workspace.Listing

/-!
# Arguments

What is asked for on the command line. Options may stand at every level of commands; one that is
given at several levels counts as given at the innermost. Overrides may begin with a hyphen, and
after the first of them every argument is one.
-/
namespace LayeredConfig.CommandLine

/-- What is to be done. -/
inductive Command where
  | modules (format : ListingFormat)
  | roots
  | merge (overrides : List Text)
  | rewrite (old new : Rewrite.Selection)
  | createSnapshot (tag : Text)
  | listSnapshots (format : ListingFormat)
  | restoreSnapshot (dir : Path)
  | watch (overrides : List Text)
deriving DecidableEq, Inhabited

structure Request where
  configDir : Option Path
  document : Option Path
  settings : Option Path
  verbose : Bool
  log : LogTarget
  command : Command
deriving DecidableEq, Inhabited

/-- Why there is nothing to be done. -/
inductive Stop where
  /-- The arguments are not understood. -/
  | usage
  | help
  | version
deriving DecidableEq, Inhabited

/-- The commands, and the program itself. -/
inductive Level where
  | program
  | modules
  | roots
  | merge
  | rewrite
  | snapshot
  | snapshotCreate
  | snapshotList
  | snapshotRestore
  | watch
deriving DecidableEq, Inhabited

inductive Opt where
  | configDir
  | document
  | settings
  | log
  | format
  | verbose
  | help
  | version
deriving DecidableEq, Inhabited

def Opt.takesValue : Opt → Bool
  | .configDir | .document | .settings | .log | .format => true
  | .verbose | .help | .version => false

namespace Level

def subcommands : Level → List (Text × Level)
  | .program => [("modules", .modules), ("roots", .roots), ("merge", .merge),
      ("rewrite", .rewrite), ("snapshot", .snapshot), ("watch", .watch)]
  | .snapshot => [("create", .snapshotCreate), ("list", .snapshotList),
      ("restore", .snapshotRestore)]
  | _ => []

/-- Whether one of its commands has to be named. -/
def needsCommand (l : Level) : Bool := ¬ l.subcommands.isEmpty

/-- Whether the arguments of the command are overrides. -/
def takesOverrides : Level → Bool
  | .merge | .watch => true
  | _ => false

/-- The number of arguments of the other commands. -/
def arity : Level → Nat
  | .rewrite => 2
  | .snapshotCreate | .snapshotRestore => 1
  | _ => 0

def shorts (l : Level) : List (Char × Opt) :=
  [('C', .configDir), ('r', .document), ('v', .verbose), ('l', .log), ('h', .help)] ++
    match l with
    | .program => [('V', .version)]
    | .modules | .snapshotList => [('f', .format)]
    | _ => []

def longs (l : Level) : List (Text × Opt) :=
  [("config-dir".toList, .configDir), ("root".toList, .document), ("settings".toList, .settings),
    ("verbose".toList, .verbose), ("log".toList, .log), ("help".toList, .help)] ++
    match l with
    | .program => [("version".toList, .version)]
    | .modules | .snapshotList => [("format".toList, .format)]
    | _ => []

end Level

/-- What has been given at one level. -/
structure Given where
  configDir : Option Path
  document : Option Path
  settings : Option Path
  log : Option LogTarget
  format : Option ListingFormat
  verbose : Bool
  words : List Text
deriving DecidableEq, Inhabited

namespace Given

def nothing : Given := ⟨none, none, none, none, none, false, []⟩

/-- Sets a value that has not been given before. -/
def once {α : Type} (old new : Option α) : Option (Option α) :=
  match old, new with
  | none, some a => some (some a)
  | _, _ => none

def nonempty? (s : Text) : Option Path := if s.isEmpty then none else some s

/-- The format an argument names, which has to be written in lower case. -/
def format? (s : Text) : Option ListingFormat :=
  if s = "text".toList then some .text
  else if s = "json".toList then some .json
  else none

/-- Takes the value of an option. An option may be given once a level. -/
def accept? (g : Given) (o : Opt) (value : Text) : Option Given :=
  match o with
  | .configDir => (once g.configDir (nonempty? value)).map fun v => { g with configDir := v }
  | .document => (once g.document (nonempty? value)).map fun v => { g with document := v }
  | .settings => (once g.settings (nonempty? value)).map fun v => { g with settings := v }
  | .log => (once g.log (some (.ofArgument value))).map fun v => { g with log := v }
  | .format => (once g.format (format? value)).map fun v => { g with format := v }
  | .verbose => if g.verbose then none else some { g with verbose := true }
  | .help | .version => none

/-- The options of two levels together. -/
def overlay (outer inner : Given) : Given :=
  { inner with
    configDir := inner.configDir.orElse fun _ => outer.configDir
    document := inner.document.orElse fun _ => outer.document
    settings := inner.settings.orElse fun _ => outer.settings
    log := inner.log.orElse fun _ => outer.log
    verbose := inner.verbose || outer.verbose }

end Given

/-- What the next argument may be. -/
inductive Expecting where
  | anything
  /-- The value of the option that was named last. -/
  | value
  /-- Overrides only. -/
  | override
deriving DecidableEq, Inhabited

structure State where
  level : Level
  given : Given
  /-- The options of the levels around. -/
  outer : Given
  /-- An option of a level around has been refused. -/
  refused : Bool
  /-- The option that was named last, with its value if that has been read. -/
  pending : Option (Opt × Option Text)
  expecting : Expecting
  /-- No more options follow. -/
  closed : Bool
deriving DecidableEq, Inhabited

namespace State

def start : State := ⟨.program, .nothing, .nothing, false, none, .anything, false⟩

/-- Takes the pending option. -/
def settle? (s : State) : Option State :=
  match s.pending with
  | none => some s
  | some (_, none) => none
  | some (o, some value) => (s.given.accept? o value).map fun g =>
      { s with given := g, pending := none }

def settle (s : State) : Except Stop State :=
  match s.settle? with
  | some s => .ok s
  | none => .error .usage

/-- Goes on to a command of the level. A pending option that is refused shows at the end. -/
def descend (s : State) (level : Level) : State :=
  let settled := s.settle?
  let given := (settled.map (·.given)).getD s.given
  { s with
    level := level
    given := .nothing
    outer := s.outer.overlay given
    refused := s.refused || settled.isNone
    pending := none
    expecting := .anything }

/-- Whether an argument of the command can be understood. -/
def understands (l : Level) (word : Text) : Bool :=
  match l with
  | .rewrite => (Rewrite.Selection.ofArgument? word).isSome
  | .snapshotRestore => ¬ word.isEmpty
  | _ => true

/-- Takes an argument of the command. -/
def word (s : State) (w : Text) : Except Stop State := do
  let s ← s.settle
  let taken : State := { s with given := { s.given with words := s.given.words ++ [w] } }
  if s.level.takesOverrides then .ok { taken with expecting := .override }
  else if s.given.words.length < s.level.arity && understands s.level w then
    .ok { taken with expecting := .anything }
  else .error .usage

/-- Takes an argument that is no option: the value that is expected, or an argument of the
command. -/
def plain (s : State) (arg : Text) : Except Stop State :=
  match s.expecting, s.pending with
  | .value, some (o, _) => .ok { s with pending := some (o, some arg), expecting := .anything }
  | _, _ => s.word arg

/-- Takes an option without a value. -/
def flag (s : State) (o : Opt) : Except Stop State := do
  let s ← s.settle
  match o with
  | .help => .error .help
  | .version => .error .version
  | o =>
    match s.given.accept? o [] with
    | some g => .ok { s with given := g, expecting := .anything }
    | none => .error .usage

/-- Takes an option with the value that is attached to it, or waits for its value. -/
def option (s : State) (o : Opt) (attached : Option Text) : Except Stop State := do
  let s ← s.settle
  match attached with
  | some value =>
    let s ← { s with pending := some (o, some value) }.settle
    .ok { s with expecting := .anything }
  | none => .ok { s with pending := some (o, none), expecting := .value }

/-- Takes an argument that begins with two hyphens, without these. -/
def long (s : State) (body : Text) : Except Stop State :=
  let (name, value) := match Text.splitFirst '=' body with
    | some (name, value) => (name, some value)
    | none => (body, none)
  match s.level.longs.lookup name with
  | some o =>
    if o.takesValue then s.option o value
    else if value.isSome then .error .usage
    else s.flag o
  | none => if s.level.takesOverrides then s.plain ('-' :: '-' :: body) else .error .usage

/-- Takes the letters after one hyphen. The letters after an option with a value are its value,
perhaps after an equals sign. -/
def letters (s : State) : Text → Except Stop State
  | [] => .ok s
  | c :: rest =>
    match s.level.shorts.lookup c with
    | none => .error .usage
    | some o =>
      if o.takesValue then
        match rest with
        | [] => s.option o none
        | '=' :: value => s.option o (some value)
        | value => s.option o (some value)
      else do (← s.flag o).letters rest

/-- Takes an argument that begins with one hyphen, without it. -/
def short (s : State) (body : Text) : Except Stop State :=
  if s.level.takesOverrides && body.any fun c => (s.level.shorts.lookup c).isNone then
    s.plain ('-' :: body)
  else s.letters body

/-- Takes an argument that names no command. -/
def argument (s : State) (arg : Text) : Except Stop State :=
  if s.closed then s.word arg
  else if s.expecting = .override then s.plain arg
  else
    match arg with
    | ['-', '-'] => .ok { s with closed := true }
    | '-' :: '-' :: body => s.long body
    | ['-'] => s.plain arg
    | '-' :: body => s.short body
    | _ => s.plain arg

/-- The command of the level that an argument names, if one may stand there. -/
def command? (s : State) (arg : Text) : Option Level :=
  if ¬ s.closed && s.expecting = .anything then s.level.subcommands.lookup arg else none

/-- Whether an argument asks for help about commands. -/
def asksHelp (s : State) (arg : Text) : Bool :=
  ¬ s.closed && s.expecting = .anything && s.level.needsCommand && arg = "help".toList

/-- What is answered to a question about commands: help, if they all exist. -/
def helpFor (l : Level) : List Text → Stop
  | [] => .help
  | name :: rest =>
    match l.subcommands.lookup name with
    | some l => helpFor l rest
    | none =>
      if l.needsCommand && name = "help".toList && rest.isEmpty then .help else .usage

def readAll (s : State) : List Text → Except Stop State
  | [] => .ok s
  | arg :: rest =>
    if s.asksHelp arg then .error (helpFor s.level rest)
    else
      match s.command? arg with
      | some level => (s.descend level).readAll rest
      | none => do (← s.argument arg).readAll rest

/-- The command that has been asked for, if it has its arguments. -/
def command (s : State) : Option Command :=
  let format := s.given.format.getD .text
  match s.level, s.given.words with
  | .modules, [] => some (.modules format)
  | .roots, [] => some .roots
  | .merge, overrides => some (.merge overrides)
  | .watch, overrides => some (.watch overrides)
  | .rewrite, [old, new] => do
    some (.rewrite (← Rewrite.Selection.ofArgument? old) (← Rewrite.Selection.ofArgument? new))
  | .snapshotCreate, [tag] => some (.createSnapshot tag)
  | .snapshotList, [] => some (.listSnapshots format)
  | .snapshotRestore, [dir] => some (.restoreSnapshot dir)
  | _, _ => none

end State

/-- What the arguments ask for. -/
def Request.ofArguments (args : List Text) : Except Stop Request := do
  let s ← State.start.readAll args
  let s ← s.settle
  match s.command with
  | some command =>
    let g := s.outer.overlay s.given
    if s.refused then .error .usage
    else .ok ⟨g.configDir, g.document, g.settings, g.verbose, g.log.getD .stderr, command⟩
  | none => .error .usage

end LayeredConfig.CommandLine
