import LayeredConfig.Compose.Plan

/-!
# Strict composition

Composes a root document with the modules its defaults list selects. What cannot be represented
faithfully is an error: missing modules, package headers, nested defaults lists, entries and
overrides that address nothing.
-/
namespace LayeredConfig.Strict

/-- The text and the value of a document file. -/
def readDocument (t : FileTree) (p : Path) : Except ComposeError (Text × Value) := do
  let s ← (t.readText p).mapError (.io p)
  let v ← (Yaml.read s).mapError (.parse p)
  .ok (s, v)

/-- Whether a line of the text declares another package. -/
def declaresPackage (s : Text) : Bool :=
  (Text.lines s).any fun line => Text.startsWith "# @package" (Text.trimStart line)

/-- The mapping a module file holds; an empty file holds an empty one. -/
def readFragment (t : FileTree) (p : Path) (label : Text) : Except ComposeError Value := do
  let (s, v) ← readDocument t p
  if declaresPackage s then .error (.unsupportedEntry (label ++ " declares a @package header"))
  else match v with
    | .null => .ok (.mapping [])
    | .mapping es =>
      if Entries.has es (.string Defaults.listKey) then
        .error (.unsupportedEntry (label ++ " has its own defaults list"))
      else .ok (.mapping es)
    | _ => .error (.unsupportedEntry (label ++ " is not a mapping"))

/-- What a step contributes to the composition. -/
def contribution (t : FileTree) (root : Path) (own : Value) : Step → Except ComposeError Value
  | .ownKeys => .ok own
  | .rootFile name =>
    readFragment t (modulePath root Defaults.rootGroup name) (Defaults.rootGroup ++ '/' :: name)
  | .group group name => do
    let p := modulePath root group name
    if t.isFile p then
      let v ← readFragment t p (group ++ '/' :: name)
      .ok (Value.nest (Defaults.packageOf group) v)
    else .error (.missingModule group name p)

/-- The contributions of all steps, each over those before it. -/
def layer (t : FileTree) (root : Path) (own : Value) (p : Plan) : Except ComposeError Value :=
  p.foldlM (fun acc step => do .ok (acc.merge (← contribution t root own step))) (.mapping [])

def setValue (v : Value) (o : Override) : Except ComposeError Value :=
  (v.set o.segments o.parsedValue).mapError fun e => .notAMapping e.key e.parent

/-- Applies an override to a composed document. -/
def applyOverride (v : Value) (o : Override) : Except ComposeError Value :=
  match o.kind with
  | .assign => if v.contains o.segments then setValue v o else .error (.keyNotFound o.key)
  | .append => if v.contains o.segments then .error (.keyExists o.key) else setValue v o
  | .forceAdd => setValue v o
  | .delete =>
    match Value.remove? o.segments v with
    | some (_, rest) => .ok rest
    | none => .error (.deleteMissing o.key)

def parseOverrides (raws : List Text) : Except ComposeError (List Override) :=
  raws.mapM fun raw =>
    match Override.parse? raw with
    | some o => .ok o
    | none => .error (.invalidOverride raw)

/-- The keys of a root document without its defaults list. -/
def ownKeys (p : Path) : Value → Except ComposeError Value
  | .null => .ok (.mapping [])
  | .mapping es => .ok (.mapping (Entries.erase es (.string Defaults.listKey)))
  | _ => .error (.unsupportedEntry (p ++ " is not a mapping"))

/-- Composes a root document that has been read. -/
def composeValue (t : FileTree) (root p : Path) (document : Value) (raws : List Text) :
    Except ComposeError Value := do
  let own ← ownKeys p document
  let overrides ← parseOverrides raws
  let plan ← Plan.ofEntries t root ((Defaults.ofDocument? document).getD [])
  let (plan, rest) ← plan.applyOverrides t root overrides
  rest.foldlM applyOverride (← layer t root own plan)

/-- Composes the root document at a path. -/
def compose (t : FileTree) (root p : Path) (raws : List Text) : Except ComposeError Value := do
  let (_, document) ← readDocument t p
  composeValue t root p document raws

end LayeredConfig.Strict
