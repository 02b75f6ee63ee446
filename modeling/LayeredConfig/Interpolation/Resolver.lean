import LayeredConfig.Interpolation.Pieces
import LayeredConfig.Override.Argument
import LayeredConfig.Document.Path
import LayeredConfig.Yaml.Inspect

/-!
# Resolving interpolations

A reference `${a.b}` stands for the value at that path of the document, resolved in turn; with
leading dots it starts from the node that holds it. `${oc.env:NAME}` stands for an environment
variable. A text whose references cannot all be resolved is left as it is and reported.

The targets that are being resolved form a chain. No target enters it twice and it has at most
`depthLimit` members, so resolving ends: each nested expression is shorter than the text around
it, and each reference leaves less room in the chain.
-/
namespace LayeredConfig.Interpolation

/-- The longest chain of references. -/
def depthLimit : Nat := 64

/-- Why a text cannot be resolved. -/
inductive Reason where
  | unterminated (text : Text)
  | tooDeep
  | cycle (key : Text)
  | notFound (key : Text)
  | notSet (name : Text)
  | unsupported (resolver : Text)
  | aboveRoot (expression : Text)
  | empty
  | notScalar
deriving DecidableEq

def Reason.message : Reason → Text
  | .unterminated s => "unterminated interpolation in '" ++ s ++ "'"
  | .tooDeep => "interpolation nesting too deep"
  | .cycle key => "interpolation cycle through '" ++ key ++ "'"
  | .notFound key => "interpolation key '" ++ key ++ "' not found"
  | .notSet name => "environment variable '" ++ name ++ "' is not set"
  | .unsupported name => "unsupported resolver '" ++ name ++ "'"
  | .aboveRoot e => "relative interpolation '" ++ e ++ "' climbs above the root"
  | .empty => "empty interpolation"
  | .notScalar => "cannot embed a mapping or sequence inside a string"

/-- What references are resolved against. -/
structure Context where
  document : Value
  environment : Text → Option Text

def scalarText (v : Value) : Except Reason Text :=
  match v.scalarText? with
  | some s => .ok s
  | none => .error .notScalar

def isNameStart (c : Char) : Bool := c.isAlpha || c == '_'

def isNameChar (c : Char) : Bool := c.isAlphanum || c == '_' || c == '.'

/-- The name and the arguments of a call, if an expression is one. -/
def call? (e : Text) : Option (Text × Text) := do
  let (name, args) ← Text.splitFirst ':' e
  guard (name.head?.any isNameStart && name.all isNameChar)
  some (name, args)

/-- The value of a call. -/
def evalCall (ctx : Context) (name args : Text) : Except Reason Value :=
  if name = "oc.env".toList ∨ name = "env".toList then
    let (var, default) := match Text.splitFirst ',' args with
      | some (v, d) => (Text.trim v, some (Text.trim d))
      | none => (Text.trim args, none)
    match ctx.environment var, default with
    | some v, _ => .ok (.string v)
    | none, some d => .ok (.ofArgument d)
    | none, none => .error (.notSet var)
  else .error (.unsupported name)

/-- The path an expression means at the location `here`. One leading dot is the node around it,
and each further one a level above. -/
def target (e : Text) (here : List Text) : Except Reason (List Text) :=
  let dots := (e.takeWhile (· = '.')).length
  let rest := e.dropWhile (· = '.')
  let segments := (Text.splitAll '.' rest).filter fun s => ¬ s.isEmpty
  if dots = 0 then if rest.isEmpty then .error .empty else .ok segments
  else if here.length < dots then .error (.aboveRoot e)
  else .ok (here.take (here.length - dots) ++ segments)

/-- The text of all pieces, the first that has none deciding the failure. -/
def concatPieces (eval : Text → Except Reason Value) : List Piece → Except Reason Text
  | [] => .ok []
  | p :: ps => do
    let s ← match p with
      | .text s => .ok s
      | .escape => .ok opening
      | .body e => do scalarText (← eval e)
    .ok (s ++ (← concatPieces eval ps))

/-- The value of a text. A text that is one body has that body's value; any other text is the
concatenation of its pieces. Expressions inside an expression are expanded first; `refer` gives
the value of one that holds none. -/
def expand (refer : Text → Except Reason Value) : (fuel : Nat) → Text → Except Reason Value
  | 0, _ => .error .tooDeep
  | fuel + 1, s =>
    let eval (e : Text) : Except Reason Value := do
      let e ← if hasOpening e then scalarText (← expand refer fuel e) else .ok e
      refer (Text.trim e)
    match pieces? s with
    | none => .error (.unterminated s)
    | some [.body e] => eval e
    | some ps => do .ok (.string (← concatPieces eval ps))

mutual
/-- The value of a node all of whose texts can be resolved by `text`. -/
def resolveAll (text : List Text → Text → Except Reason Value) (here : List Text) :
    Value → Except Reason Value
  | .string s => if hasOpening s then text here s else .ok (.string s)
  | .mapping es => do .ok (.mapping (← resolveEntries text here es))
  | .sequence items => do .ok (.sequence (← resolveItems text here 0 items))
  | v => .ok v

def resolveEntries (text : List Text → Text → Except Reason Value) (here : List Text) :
    List (Value × Value) → Except Reason Entries
  | [] => .ok []
  | (k, v) :: rest => do
    let v ← resolveAll text (here ++ [k.keyText]) v
    .ok ((k, v) :: (← resolveEntries text here rest))

def resolveItems (text : List Text → Text → Except Reason Value) (here : List Text) :
    (index : Nat) → List Value → Except Reason (List Value)
  | _, [] => .ok []
  | i, v :: rest => do
    let v ← resolveAll text (here ++ [Text.ofNat i]) v
    .ok (v :: (← resolveItems text here (i + 1) rest))
end

/-- The node a path means and its place in the chain. -/
def enter (ctx : Context) (chain : List Text) (path : List Text) : Except Reason (Text × Value) :=
  let key := Text.joinWith "." path
  if chain.contains key then .error (.cycle key)
  else match ctx.document.get? path with
    | some node => .ok (key, node)
    | none => .error (.notFound key)

/-- The value of a text at a location, while the targets in `chain` are being resolved. There is
room for `room` more. -/
def resolveText (ctx : Context) : (room : Nat) → (chain : List Text) → (here : List Text) →
    Text → Except Reason Value
  | 0, _, _, s =>
    match pieces? s with
    | none => .error (.unterminated s)
    | some ps => do .ok (.string (← concatPieces (fun _ => .error .tooDeep) ps))
  | room + 1, chain, here, s =>
    expand (fun e =>
      match call? e with
      | some (name, args) => evalCall ctx name args
      | none => do
        let path ← target e here
        let (key, node) ← enter ctx chain path
        resolveAll (resolveText ctx room (key :: chain)) path node) (s.length + 1) s

/-- A text that was left as it is. -/
structure Failure where
  location : List Text
  expression : Text
  reason : Reason
deriving DecidableEq

def Failure.message (f : Failure) : Text :=
  f.expression ++ " at '" ++ Text.joinWith "." f.location ++ "': " ++ f.reason.message

/-- A document with its interpolations resolved as far as possible. -/
structure Resolution where
  value : Value
  failures : List Failure

mutual
/-- Resolves each text of a node by itself. -/
def resolveNode (ctx : Context) (here : List Text) : Value → Value × List Failure
  | .string s =>
    if hasOpening s then
      match resolveText ctx depthLimit [] here s with
      | .ok v => (v, [])
      | .error reason => (.string s, [⟨here, s, reason⟩])
    else (.string s, [])
  | .mapping es =>
    let (es, fs) := resolveEachEntry ctx here es
    (.mapping es, fs)
  | .sequence items =>
    let (items, fs) := resolveEachItem ctx here 0 items
    (.sequence items, fs)
  | v => (v, [])

def resolveEachEntry (ctx : Context) (here : List Text) :
    List (Value × Value) → Entries × List Failure
  | [] => ([], [])
  | (k, v) :: rest =>
    let (v, fs) := resolveNode ctx (here ++ [k.keyText]) v
    let (rest, gs) := resolveEachEntry ctx here rest
    ((k, v) :: rest, fs ++ gs)

def resolveEachItem (ctx : Context) (here : List Text) :
    (index : Nat) → List Value → List Value × List Failure
  | _, [] => ([], [])
  | i, v :: rest =>
    let (v, fs) := resolveNode ctx (here ++ [Text.ofNat i]) v
    let (rest, gs) := resolveEachItem ctx here (i + 1) rest
    (v :: rest, fs ++ gs)
end

/-- Resolves the interpolations of a document. -/
def resolve (environment : Text → Option Text) (document : Value) : Resolution :=
  let (value, failures) := resolveNode ⟨document, environment⟩ [] document
  ⟨value, failures⟩

end LayeredConfig.Interpolation
