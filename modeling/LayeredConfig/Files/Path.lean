import LayeredConfig.Text.Basic

/-!
# Paths

A path is a text. What it means is given by its components: doubled and trailing slashes and
inner `.` segments have none, `..` is kept. Joining works on the text.
-/
namespace LayeredConfig

inductive Component where
  | root
  /-- A leading `.`. -/
  | current
  /-- A `..`. -/
  | parent
  | name (s : Text)
deriving DecidableEq, Inhabited

def Component.text : Component → Text
  | .root => "/"
  | .current => "."
  | .parent => ".."
  | .name s => s

abbrev Path := Text

namespace Path

def isAbsolute (p : Path) : Bool := p.head? = some '/'

/-- The component of a segment that is not the first. -/
def segment? (s : Text) : Option Component :=
  if s.isEmpty ∨ s = ".".toList then none
  else if s = "..".toList then some .parent
  else some (.name s)

def components (p : Path) : List Component :=
  match Text.splitAll '/' p with
  | [] => []
  | first :: rest =>
    let head : List Component :=
      if isAbsolute p then [.root]
      else if first = ".".toList then [.current]
      else (segment? first).toList
    head ++ rest.filterMap segment?

/-- Whether two paths have the same components. -/
def same (p q : Path) : Bool := components p = components q

/-- `p` with `q` below it; an absolute `q` stands alone. -/
def join (p q : Path) : Path :=
  if isAbsolute q then q
  else if p.isEmpty ∨ p.getLast? = some '/' then p ++ q
  else p ++ '/' :: q

/-- The last component, if it is a name. -/
def fileName? (p : Path) : Option Text :=
  match (components p).getLast? with
  | some (.name s) => some s
  | _ => none

/-- What follows the last point of the file name, unless nothing stands before that point. -/
def extension? (p : Path) : Option Text := do
  let name ← fileName? p
  let (stem, ext) ← Text.splitLast '.' name
  if stem.isEmpty then none else some ext

/-- The components of `p` below `base`, if it begins with those of `base`. -/
def below? (base p : Path) : Option (List Component) :=
  go (components base) (components p)
where
  go : List Component → List Component → Option (List Component)
    | [], cs => some cs
    | _ :: _, [] => none
    | b :: bs, c :: cs => if b = c then go bs cs else none

def startsWith (base p : Path) : Bool := (below? base p).isSome

/-- The segments without those at the end that have no component. The first segment is kept. -/
def dropBlankEnd (segments : List Text) : List Text :=
  match segments with
  | [] => []
  | first :: rest =>
    first :: (rest.reverse.dropWhile fun s => (segment? s).isNone).reverse

/-- The text of segments; of a path that has nothing after its root, the root. -/
def ofSegments (segments : List Text) : Path :=
  if segments = [[]] then "/" else Text.joinWith "/" segments

/-- The path without its last component. -/
def parent? (p : Path) : Option Path :=
  match (components p).getLast? with
  | none | some .root => none
  | some _ =>
    let kept := (dropBlankEnd (Text.splitAll '/' p)).dropLast
    if kept.isEmpty then some [] else some (ofSegments (dropBlankEnd kept))

/-- A path that does not depend on the directory `base`. Inner `.` segments and doubled slashes
are dropped, a trailing slash is kept, and so is a doubled one at the start. -/
def absolute (base p : Path) : Path :=
  if p.isEmpty then p
  else
    let start : Path := if isAbsolute p then
      (match p with
        | '/' :: '/' :: '/' :: _ => "/"
        | '/' :: '/' :: _ => "//"
        | _ => "/") else base
    let named := (components p).filterMap fun
      | .root | .current => none
      | c => some c.text
    let whole := named.foldl join start
    if p.getLast? = some '/' then join whole [] else whole

/-- Whether the file name ends in `.yaml` or `.yml`. -/
def isYaml (p : Path) : Bool :=
  extension? p = some "yaml".toList ∨ extension? p = some "yml".toList

/-- The components of `p` below `base`, joined by slashes; nothing for `base` itself. -/
def relative? (base p : Path) : Option Text :=
  match below? base p with
  | none | some [] => none
  | some cs => some (Text.joinWith "/" (cs.map Component.text))

/-- `base` with the names of a relative path below it; nothing if the path has no name, is
absolute or holds `..`. -/
def confine? (base : Path) (rel : Text) : Option Path :=
  go false base (components rel)
where
  go (named : Bool) (p : Path) : List Component → Option Path
    | [] => if named then some p else none
    | .name s :: cs => go true (join p s) cs
    | .current :: cs => go named p cs
    | .parent :: _ | .root :: _ => none

/-- The path of names below the root. -/
def ofNames (names : List Text) : Path := '/' :: Text.joinWith "/" names

end Path
end LayeredConfig
