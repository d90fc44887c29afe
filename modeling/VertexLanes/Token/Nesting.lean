import VertexLanes.Token.Basic

/-!
# Bracket nesting

A token stands outside when as many brackets close as open before it. The three
kinds of bracket count alike, and the count may fall below zero, in which case
nothing stands outside until it is back at zero. A bracket itself never does.
-/

namespace VertexLanes

/-- What a token does to the bracket depth. -/
inductive Side where
  | opening
  | closing
  | plain
deriving DecidableEq, Repr

/-- The side of a token given by its spelling. -/
def sideOfSpelling (spelling : String) : Side :=
  if ["(", "[", "\x7b"].contains spelling then .opening
  else if [")", "]", "\x7d"].contains spelling then .closing
  else .plain

/-- The side of a lexeme. -/
def Lexeme.side : Lexeme → Side
  | .symbol .lparen | .symbol .lbracket | .symbol .lbrace => .opening
  | .symbol .rparen | .symbol .rbracket | .symbol .rbrace => .closing
  | _ => .plain

/-- The side of a token. -/
def Token.side (t : Token) : Side := t.item.side

namespace Nesting

variable {τ : Type}

/-- Pair each token with whether it stands outside, starting at a given depth. -/
def mark (side : τ → Side) : Int → List τ → List (τ × Bool)
  | _, [] => []
  | depth, t :: ts =>
    match side t with
    | .opening => (t, false) :: mark side (depth + 1) ts
    | .closing => (t, false) :: mark side (depth - 1) ts
    | .plain => (t, depth == 0) :: mark side depth ts

/-- Cut around the first outside token that satisfies `p`. -/
def cut? (side : τ → Side) (p : τ → Bool) : Int → List τ → Option (List τ × τ × List τ)
  | _, [] => none
  | depth, t :: ts =>
    let onward (d : Int) := (cut? side p d ts).map fun (before, found, after) =>
      (t :: before, found, after)
    match side t with
    | .opening => onward (depth + 1)
    | .closing => onward (depth - 1)
    | .plain => if depth == 0 && p t then some ([], t, ts) else onward depth

/-- Split at every outside token that satisfies `p`; there is always at least one part. -/
def split (side : τ → Side) (p : τ → Bool) : Int → List τ → List (List τ)
  | _, [] => [[]]
  | depth, t :: ts =>
    let onward (d : Int) :=
      match split side p d ts with
      | [] => [[t]]
      | part :: parts => (t :: part) :: parts
    match side t with
    | .opening => onward (depth + 1)
    | .closing => onward (depth - 1)
    | .plain => if depth == 0 && p t then [] :: split side p depth ts else onward depth

end Nesting

/-- Whether a token is the given symbol. -/
def Token.is (mark : Symbol) (t : Token) : Bool := t.item == .symbol mark

/-- The parts of a token list between its outside commas; no tokens have no parts. -/
def splitCommas (tokens : List Token) : List (List Token) :=
  if tokens.isEmpty then [] else Nesting.split Token.side (Token.is .comma) 0 tokens

end VertexLanes
