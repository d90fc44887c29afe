import VertexLanes.Token.Basic

/-!
# Token sequences as text

Three ways to write tokens down: without separators, as a type, and as an
expression with blanks around its binary operators.
-/

namespace VertexLanes

/-- Token texts without separators. -/
def joinTight (tokens : List Token) : String := String.join (tokens.map Token.spelling)

/-- Whether a type is written without a blank between two neighbouring lexemes. -/
def tightInType (before after : Lexeme) : Bool :=
  [Lexeme.symbol .scope, .symbol .lt].contains before ||
    [Lexeme.symbol .scope, .symbol .lt, .symbol .gt, .symbol .shr, .symbol .comma].contains after

/-- The texts of a type after its first lexeme, each with the blank before it. -/
def typePieces : Lexeme → List Lexeme → List String
  | _, [] => []
  | before, l :: ls =>
    (if tightInType before l then l.spelling else " " ++ l.spelling) :: typePieces l ls

/-- Tokens written as a type: `const graphlab::empty &`, `std::vector<int>`, `pair<a, b>`. -/
def joinType (tokens : List Token) : String :=
  match tokens.map Located.item with
  | [] => ""
  | l :: ls => String.join (l.spelling :: typePieces l ls)

/-- The operators that an expression sets off by blanks when they are binary. -/
def spacedOperators : List String :=
  ["+", "-", "*", "/", "%", "==", "!=", "<", ">", "<=", ">=", "&&", "||", "&", "|", "^", "<<",
    ">>", "=", "+=", "-=", "*=", "/=", "&=", "|=", "?", ":"]

/-- Whether an operator after this token can be binary. -/
def endsOperand (token : String) : Bool :=
  !spacedOperators.contains token && !(["(", "[", ","].contains token)

/-- Whether an expression has a blank before a token, given up to two tokens before it. -/
def spacedAfter (earlier before : Option String) (token : String) : Bool :=
  match before with
  | none => false
  | some b =>
    (spacedOperators.contains token && endsOperand b) ||
      (spacedOperators.contains b && earlier.any endsOperand) || b == ","

/-- The texts of an expression, each with the blank before it. -/
def exprPieces : Option String → Option String → List String → List String
  | _, _, [] => []
  | earlier, before, t :: ts =>
    (if spacedAfter earlier before t then " " ++ t else t) :: exprPieces before (some t) ts

/-- Tokens written as an expression. An operator without an operand before it is written tight. -/
def renderExpr (tokens : List String) : String := String.join (exprPieces none none tokens)

end VertexLanes
