import LayeredConfig.Yaml.Scalar
import LayeredConfig.Yaml.Cursor

/-!
# How a scalar is written

Plain where the text reads back as it is, in single quotes where it would read back as another
type or begins like an indicator, as a literal block where it has several lines, and in double
quotes where nothing else can hold it.
-/
namespace LayeredConfig.Yaml.Printer

inductive Style where
  | plain
  | single
  | double
  | literal
deriving DecidableEq

/-- The characters that are written as they are. -/
def isPrintable (c : Char) : Bool :=
  let n := c.toNat
  n == 0x0A || (0x20 ≤ n && n ≤ 0x7E) || (0xA0 ≤ n && n ≤ 0xD7FF) ||
    (0xE000 ≤ n && n ≤ 0xFFFD && n != 0xFEFF)

/-- What the characters of a text allow. -/
structure Shape where
  /-- Whether there is a line break. -/
  multiline : Bool
  plain : Bool
  single : Bool
  literal : Bool

def isGap (c : Char) : Bool := isSpaceOrTab c || isBreak c || c == '\r' || c == '\u0085'

/-- Whether a text begins like an indicator. -/
def beginsLikeIndicator : Text → Bool
  | [] => false
  | c :: r =>
    ['#', ',', '[', ']', '\x7b', '\x7d', '&', '*', '!', '|', '>', '\'', '"', '%', '@',
      '\x60'].contains c ||
    ((c == '?' || c == ':' || c == '-') && r.head?.all isGap)

/-- Whether a colon before white space or a comment sign after it stands behind the first
character. -/
def holdsIndicator : (previous : Char) → Text → Bool
  | _, [] => false
  | p, c :: r =>
    (c == ':' && r.head?.all isGap) || (c == '#' && isGap p) || holdsIndicator c r

/-- Whether `first` stands right before `second` somewhere in the text. -/
def holdsPair (first second : Char → Bool) : Text → Bool
  | c :: d :: r => (first c && second d) || holdsPair first second (d :: r)
  | _ => false

def isLineEnd (c : Char) : Bool := isBreak c || c == '\r' || c == '\u0085'

def Shape.of (s : Text) : Shape :=
  if s.isEmpty then ⟨false, true, true, false⟩
  else
    let special := s.any (fun c => ¬ isPrintable c) || holdsPair (· == ' ') isLineEnd s
    let multiline := s.any isLineEnd
    let leads := s.head?.any fun c => c == ' ' || isLineEnd c
    let trails := s.getLast?.any fun c => c == ' ' || isLineEnd c
    let indented := holdsPair isLineEnd (· == ' ') s
    let indicator :=
      Text.startsWith "---" s || Text.startsWith "..." s || beginsLikeIndicator s ||
        holdsIndicator (s.headD ' ') s.tail
    { multiline := multiline
      plain := ¬ (special || multiline || leads || trails || indented || indicator)
      single := ¬ (special || indented)
      literal := ¬ (special || s.getLast? = some ' ') }

/-- The style a string asks for. -/
def Style.wanted (s : Text) : Style :=
  if s.contains '\n' then .literal
  else match Scalar.plain? s with
    | some (.string _) => if Scalar.hasLeadingZero s then .single else .plain
    | _ => .single

/-- The style that is used: the wanted one if the text allows it in its place. -/
def Style.fit (shape : Shape) (empty simpleKey : Bool) (wanted : Style) : Style :=
  let style := if simpleKey && shape.multiline then .double else wanted
  let style := if style = .plain && (¬ shape.plain || (empty && simpleKey)) then .single else style
  let style := if style = .single && ¬ shape.single then .double else style
  if style = .literal && (¬ shape.literal || simpleKey) then .double else style

end LayeredConfig.Yaml.Printer
