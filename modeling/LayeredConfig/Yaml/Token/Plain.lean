import LayeredConfig.Yaml.Cursor

/-!
# Plain scalars

Scalars without quotes. They end at a comment, at a colon before white space, at the flow
indicators inside brackets, at a document marker and at a line that is indented too little.
-/
namespace LayeredConfig.Yaml.Plain

def isFlowEnd (c : Char) : Bool := c == ',' || c == '[' || c == ']' || c == '\x7b' || c == '\x7d'

/-- The characters up to white space or the end of the scalar. Inside brackets a colon right
before an indicator is a fault. -/
def run (flow : Bool) : Text → Except Fault Text
  | [] => .ok []
  | x :: r =>
    if isSpaceOrTab x || isBreak x then .ok []
    else if flow && x == ':' && r.head?.any (fun y => isFlowEnd y || y == '?') then .error .lexical
    else if x == ':' && gapAhead r then .ok []
    else if flow && isFlowEnd x then .ok []
    else (run flow r).map (x :: ·)

/-- Reads the parts of a plain scalar; `gap` stands between what has been read and the next
part. Also tells whether the scalar ended with a new line. -/
def parts (flow : Bool) (indent : Nat) : (fuel : Nat) → (out : Text) → (gap : Gap) → Cursor →
    Except Fault (Text × Bool × Cursor)
  | 0, out, gap, c => .ok (out, gap.broken, c)
  | fuel + 1, out, gap, c => do
    if c.atMarker || c.peek = some '#' then .ok (out, gap.broken, c)
    else
      let part ← run flow c.rest
      let c := c.skip part.length
      let (out, broken) := if part.isEmpty then (out, gap.broken)
        else (out ++ gap.text ++ part, false)
      if c.atEnd || ¬ gapAhead c.rest then .ok (out, broken, c)
      else
        let (gap, c) ← Gap.read indent (c.rest.length + 1) .empty c
        if ¬ flow ∧ c.column < indent then .ok (out, gap.broken, c)
        else parts flow indent fuel out gap c

/-- Reads a plain scalar inside a block that is indented by `parent` columns. -/
def read (flow : Bool) (parent : Int) (c : Cursor) : Except Fault (Text × Bool × Cursor) :=
  parts flow (parent + 1).toNat (c.rest.length + 1) [] .empty c

end LayeredConfig.Yaml.Plain
