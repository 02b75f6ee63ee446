import LayeredConfig.Yaml.Value

/-!
# Dotted paths

Reading, setting and removing a value at a path of segments. A segment names a string, number or
boolean key by its text and an item of a sequence by its position.
-/
namespace LayeredConfig

/-- Why a path cannot be set: a node on it is neither a mapping nor empty. `parent` spells the path
as far as the segment that does not lead on from there. -/
structure NotAMapping where
  key : Text
  parent : Text
deriving DecidableEq

namespace Value

/-- Whether a segment names a mapping key. -/
def matchesSegment (key : Value) (segment : Text) : Bool :=
  match key with
  | .string s => s = segment
  | .number n => n.text = segment
  | .bool b => (if b then "true".toList else "false".toList) = segment
  | _ => false

def entryNamed? (es : Entries) (segment : Text) : Option (Value × Value) :=
  List.find? (fun e => e.1.matchesSegment segment) es

/-- The value one segment below a node. -/
def child? (v : Value) (segment : Text) : Option Value :=
  match v with
  | .mapping es => (entryNamed? es segment).map (·.2)
  | .sequence items => (Text.index? segment).bind fun i => items[i]?
  | _ => none

/-- The value at a path. -/
def get? (v : Value) : (segments : List Text) → Option Value
  | [] => some v
  | s :: rest => (v.child? s).bind fun c => c.get? rest

def contains (v : Value) (segments : List Text) : Bool := (v.get? segments).isSome

/-- `v` below the segments, each a mapping of one entry. -/
def nest (segments : List Text) (v : Value) : Value := segments.foldr single v

/-- Gives the first entry that a segment names another value. -/
def replaceEntry (segment : Text) (v : Value) : Entries → Entries
  | [] => []
  | e :: rest =>
    if e.1.matchesSegment segment then (e.1, v) :: rest else e :: replaceEntry segment v rest

/-- The value that a segment names, and the node with another value in its place. -/
def slot? (v : Value) (segment : Text) : Option (Value × (Value → Value)) :=
  match v with
  | .mapping es =>
    (entryNamed? es segment).map fun e => (e.2, fun c => .mapping (replaceEntry segment c es))
  | .sequence items => do
    let i ← Text.index? segment
    let item ← items[i]?
    some (item, fun c => .sequence (items.set i c))
  | _ => none

/-- A node that a path is to lead through: null becomes an empty mapping. -/
def opened (v : Value) : Value := if v.isNull then .mapping [] else v

/-- A mapping with a value under a string key. -/
def inserted? (v : Value) (key : Text) (c : Value) : Option Value :=
  match v with
  | .mapping es => some (.mapping (Entries.insert es (.string key) c))
  | _ => none

/-- The failure of setting a path at one of its segments. -/
def blockedAt (path : List Text) (depth : Nat) : NotAMapping where
  key := Text.joinWith "." path
  parent := Text.joinWith "." (path.take (min depth (path.length - 1) + 1))

/-- Sets the last segment of a path below the `parents` that are left of it. The node is changed on
the way: a null is made a mapping, and a mapping gets what it lacks. Gives what has become of the
node, whether or not the end of the path is reached. -/
def setAlong (path : List Text) (last : Text) (new : Value) (depth : Nat) :
    (parents : List Text) → Value → Value × Except NotAMapping Unit
  | [], v =>
    let v := v.opened
    match v.slot? last with
    | some (_, put) => (put new, .ok ())
    | none =>
      match v.inserted? last new with
      | some v => (v, .ok ())
      | none => (v, .error (blockedAt path depth))
  | s :: parents, v =>
    let v := v.opened
    match if (v.child? s).isSome then some v else v.inserted? s (.mapping []) with
    | none => (v, .error (blockedAt path depth))
    | some v =>
      match v.slot? s with
      | none => (v, .error (blockedAt path depth))
      | some (c, put) =>
        let (c, result) := setAlong path last new (depth + 1) parents c
        (put c, result)

/-- Sets the value at a path in place. Gives the document afterwards, also when the setting
fails. -/
def setInPlace (v : Value) (path : List Text) (new : Value) : Value × Except NotAMapping Unit :=
  match path.getLast? with
  | none => (new, .ok ())
  | some last => setAlong path last new 0 path.dropLast v

/-- The document with another value at a path. -/
def set (v : Value) (path : List Text) (new : Value) : Except NotAMapping Value :=
  let (after, result) := v.setInPlace path new
  result.map fun _ => after

/-- Removes the value at a path; gives it and what is left. -/
def remove? : (segments : List Text) → Value → Option (Value × Value)
  | [], _ => none
  | s :: rest, v =>
    match v with
    | .mapping es => do
      let e ← entryNamed? es s
      if rest.isEmpty then some (e.2, .mapping (Entries.erase es e.1))
      else
        let (gone, c) ← remove? rest e.2
        some (gone, .mapping (replaceEntry s c es))
    | .sequence items => do
      let i ← Text.index? s
      let item ← items[i]?
      if rest.isEmpty then some (item, .sequence (items.eraseIdx i))
      else
        let (gone, c) ← remove? rest item
        some (gone, .sequence (items.set i c))
    | _ => none

end Value
end LayeredConfig
