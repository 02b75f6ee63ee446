import LayeredConfig.Text.Basic

/-!
# Pieces of a text with interpolations

A text is cut into literal parts, escaped openings `\${` and bodies `${...}`. The braces of the
openings inside a body are counted, so a body ends at the brace that closes it.
-/
namespace LayeredConfig.Interpolation

inductive Piece where
  | text (s : Text)
  /-- An opening that stands for itself. -/
  | escape
  | body (s : Text)
deriving DecidableEq

/-- Where the reader is: in a literal part or in a body with open inner braces. -/
inductive Mode where
  | text (s : Text)
  | body (depth : Nat) (s : Text)

def opening : Text := ['$', '\x7b']

/-- A literal part, if it holds anything. -/
def literal (s : Text) : List Piece := if s.isEmpty then [] else [.text s]

/-- The pieces from a position on; nothing if a body is never closed. -/
def piecesFrom : Mode → Text → Option (List Piece)
  | .text s, [] => some (literal s)
  | .text s, '\\' :: '$' :: '\x7b' :: r =>
    (piecesFrom (.text []) r).map fun ps => literal s ++ .escape :: ps
  | .text s, '$' :: '\x7b' :: r => (piecesFrom (.body 0 []) r).map fun ps => literal s ++ ps
  | .text s, c :: r => piecesFrom (.text (s ++ [c])) r
  | .body _ _, [] => none
  | .body d s, '$' :: '\x7b' :: r => piecesFrom (.body (d + 1) (s ++ opening)) r
  | .body 0 s, '\x7d' :: r => (piecesFrom (.text []) r).map fun ps => .body s :: ps
  | .body (d + 1) s, '\x7d' :: r => piecesFrom (.body d (s ++ ['\x7d'])) r
  | .body d s, c :: r => piecesFrom (.body d (s ++ [c])) r

/-- The pieces of a text. -/
def pieces? (s : Text) : Option (List Piece) := piecesFrom (.text []) s

def Piece.isBody : Piece → Bool
  | .body _ => true
  | _ => false

/-- Whether a text holds an interpolation that is not escaped. -/
def hasInterpolation (s : Text) : Bool := (pieces? s).any fun ps => ps.any Piece.isBody

/-- Whether an opening stands anywhere in a text, escaped or not. -/
def hasOpening (s : Text) : Bool := Text.holds opening s

end LayeredConfig.Interpolation
