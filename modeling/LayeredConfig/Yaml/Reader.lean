import LayeredConfig.Yaml.Node
import LayeredConfig.Yaml.Scalar

/-!
# Reading documents

From the nodes of a document to its value: scalars get their types, references are replaced by
what they refer to, and no mapping has a key twice.
-/
namespace LayeredConfig.Yaml

/-- The deepest nesting of collections that is read. -/
def depthLimit : Nat := 128

/-- A tag's name without its mark, which a lone mark keeps. -/
def dropBang (tag : Text) : Text :=
  match tag with
  | '!' :: c :: r => c :: r
  | _ => tag

/-- The name of a local tag; other tags have none. -/
def localTag? (tag : Option Text) : Option Text :=
  match tag with
  | some ('!' :: r) => some (dropBang (dropBang ('!' :: r)))
  | _ => none

def coreTag (name : Text) : Text := "tag:yaml.org,2002:" ++ name

def orMistyped (v : Option Value) : Except Fault Value :=
  match v with
  | some v => .ok v
  | none => .error .mistyped

/-- The value of a scalar: a local tag is kept, a core tag sets the type. -/
def scalarValue (tag : Option Text) (s : Text) (plain : Bool) : Except Fault Value :=
  let untagged := orMistyped (if plain then Scalar.plain? s else some (.string s))
  match localTag? tag, tag with
  | some name, _ => untagged.map (.tagged name)
  | none, none => untagged
  | none, some tag =>
    if tag = coreTag "bool" then orMistyped ((Scalar.bool? s).map .bool)
    else if tag = coreTag "int" then orMistyped ((Scalar.int? s).map fun i => .number (.int i))
    else if tag = coreTag "float" then
      orMistyped ((Scalar.float? s).map fun d => .number (.float d))
    else if tag = coreTag "null" then
      orMistyped (if Scalar.isNullWord s then some .null else none)
    else .ok (.string s)

def withTag (tag : Option Text) (v : Value) : Value :=
  match localTag? tag with
  | some name => .tagged name v
  | none => v

/-- The anchored nodes, the last one of a number first, and the limit of references. -/
structure Anchors where
  nodes : List (Nat × Node)
  limit : Nat

def Anchors.of (n : Node) : Anchors := ⟨n.anchored.reverse, 100 * n.eventCount⟩

/-- The node itself or the one it refers to, and the references followed so far. -/
def Anchors.follow (a : Anchors) (n : Node) (followed : Nat) : Except Fault (Node × Nat) :=
  match n with
  | .reference k =>
    if a.limit < followed + 1 then .error .tooManyReferences
    else match a.nodes.lookup k with
      | some target => .ok (target, followed + 1)
      | none => .error .unknownAnchor
  | n => .ok (n, followed)

/-- The items of a list one after the other, with the count carried along. -/
def inTurn {α β : Type} (f : α → Nat → Except Fault (β × Nat)) : List α → Nat →
    Except Fault (List β × Nat)
  | [], k => .ok ([], k)
  | x :: xs, k => do
    let (y, k) ← f x k
    let (ys, k) ← inTurn f xs k
    .ok (y :: ys, k)

def hasRepeatedKey : Entries → Bool
  | [] => false
  | e :: rest => Entries.has rest e.1 || hasRepeatedKey rest

/-- The value of a node under at most `depth` more levels of collections. -/
def build (a : Anchors) : (depth : Nat) → Node → (followed : Nat) → Except Fault (Value × Nat)
  | 0, n, followed => do
    match ← a.follow n followed with
    | (.scalar _ tag s plain, followed) => .ok (← scalarValue tag s plain, followed)
    | _ => .error .tooDeep
  | depth + 1, n, followed => do
    match ← a.follow n followed with
    | (.scalar _ tag s plain, followed) => .ok (← scalarValue tag s plain, followed)
    | (.sequence _ tag items, followed) =>
      let (vs, followed) ← inTurn (build a depth) items followed
      .ok (withTag tag (.sequence vs), followed)
    | (.mapping _ tag entries, followed) =>
      let (es, followed) ← inTurn (pair (build a depth)) entries followed
      if hasRepeatedKey es then .error .duplicateKey
      else .ok (withTag tag (.mapping es), followed)
    | (.reference _, _) => .error .unknownAnchor
where
  /-- Key and value of an entry. -/
  pair (value : Node → Nat → Except Fault (Value × Nat)) (e : Node × Node) (followed : Nat) :
      Except Fault ((Value × Value) × Nat) := do
    let (k, followed) ← value e.1 followed
    let (v, followed) ← value e.2 followed
    .ok ((k, v), followed)

/-- The value of a text that holds one document. -/
def read (s : Text) : Except Fault Value := do
  let n ← Node.ofTokens (← tokens s)
  let (v, _) ← build (.of n) depthLimit n 0
  .ok v

end LayeredConfig.Yaml
