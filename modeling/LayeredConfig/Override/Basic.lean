import LayeredConfig.Override.Argument
import LayeredConfig.Document.Merge
import LayeredConfig.Document.Path

/-!
# Overrides

Changes to a composed document, written `key=value`, with `+` in front to add a key, `++` to add
or change one and `~` to remove one.
-/
namespace LayeredConfig

inductive OverrideKind where
  /-- Written `key=value`: changes a key that is there. -/
  | assign
  /-- Written `+key=value`: adds a key that is not there. -/
  | append
  /-- Written `++key=value`: adds or changes a key. -/
  | forceAdd
  /-- Written `~key` or `~key=value`: removes a key. -/
  | delete
deriving DecidableEq, Inhabited

structure Override where
  kind : OverrideKind
  key : Text
  /-- The text after the equals sign; only a removal can be without one. -/
  value : Option Text
deriving DecidableEq, Inhabited

namespace Override

/-- A key without the white space around it, if anything is left. -/
def key? (s : Text) : Option Text :=
  let key := Text.trim s
  if key.isEmpty then none else some key

def parseRemoval (body : Text) : Option Override :=
  let (key, value) := match Text.splitFirst '=' body with
    | some (k, v) => (k, some v)
    | none => (body, none)
  (key? key).map fun key => ⟨.delete, key, value⟩

def parseChange (kind : OverrideKind) (body : Text) : Option Override := do
  let (key, value) ← Text.splitFirst '=' body
  let key ← key? key
  some ⟨kind, key, some value⟩

/-- Reads an override. The white space around it and around its key does not count. -/
def parse? (raw : Text) : Option Override :=
  match Text.trim raw with
  | '~' :: body => parseRemoval body
  | '+' :: '+' :: body => parseChange .forceAdd body
  | '+' :: body => parseChange .append body
  | body => parseChange .assign body

/-- The dotted segments of the key. -/
def segments (o : Override) : List Text := Text.splitAll '.' o.key

def parsedValue (o : Override) : Value :=
  match o.value with
  | some s => .ofArgument s
  | none => .null

def sign : OverrideKind → Text
  | .assign => ""
  | .append => "+"
  | .forceAdd => "++"
  | .delete => "~"

/-- The written form. -/
def text (o : Override) : Text :=
  match o.value with
  | some v => sign o.kind ++ o.key ++ '=' :: v
  | none => sign o.kind ++ o.key

/-- Whether an argument of the command line is taken for an override at all. -/
def looksValid (raw : Text) : Bool :=
  raw.contains '=' || (raw.head? = some '~' && 1 < raw.length)

end Override

/-- An assignment without a sign: a key and the text of its value. -/
abbrev Assignment := Text × Text

namespace Assignment

/-- Reads an override as a plain assignment. Signs of addition are dropped; a removal and a text
without an equals sign are no assignments. -/
def parse? (raw : Text) : Option Assignment :=
  let s := Text.trim raw
  if s.head? = some '~' then none
  else do
    let (key, value) ← Text.splitFirst '=' s
    let key := match key with
      | '+' :: '+' :: k => k
      | '+' :: k => k
      | k => k
    let key ← Override.key? key
    some (key, value)

/-- The document that holds one assignment. -/
def branch (a : Assignment) : Value := Value.nest (Text.splitAll '.' a.1) (.ofArgument a.2)

/-- The document that holds all assignments, the later ones over the earlier. -/
def tree (as : List Assignment) : Value :=
  as.foldl (fun acc a => acc.merge a.branch) (.mapping [])

end Assignment
end LayeredConfig
