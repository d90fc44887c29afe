import VertexLanes.Block.Node
import VertexLanes.Token.Layout
import VertexLanes.Token.Nesting

/-!
# Shapes of simple statements

A statement that is no block, conditional, loop or return is a declaration, an
assignment, a call or some other expression. Which one is decided from its
tokens alone.
-/

namespace VertexLanes

/-- A node over a token list, without children. -/
def Node.ofTokens (kind : NodeKind) (tokens : List Token) : Node Token :=
  ⟨kind, "", tokens, [], spanOf tokens⟩

/-- A block node; it holds its statements and no tokens of its own. -/
def Node.ofStatements (statements : List (Node Token)) (span : Span) : Node Token :=
  ⟨.block, "", [], statements, span⟩

namespace Shape

/-- The operators that can join two operands. -/
def binaryOperators : List Symbol :=
  [.eq, .eqEq, .bangEq, .lt, .ltEq, .gt, .gtEq, .shl, .shr, .plus, .plusEq, .minus, .minusEq,
    .star, .starEq, .slash, .slashEq, .percent, .amp, .ampAmp, .ampEq, .pipe, .pipePipe, .pipeEq,
    .caret]

/-- Whether a token is one of the binary operators. -/
def isBinaryOperator (t : Token) : Bool :=
  match t.item with
  | .symbol mark => binaryOperators.contains mark
  | _ => false

/-- An expression node: an operation if a binary operator stands outside all brackets and is not
the first token. -/
def expression (tokens : List Token) : Node Token :=
  let joined := (Nesting.mark Token.side 0 tokens).tail.any fun (t, outside) =>
    outside && isBinaryOperator t
  Node.ofTokens (if joined then .operation else .other) tokens

/-- Whether a name directly after `first` would be declared by it: `first` ends a type. -/
def endsType (before : Option Lexeme) (opened : Bool) : Lexeme → Bool
  | .ident _ => !before.any fun b => [Lexeme.symbol .dot, .symbol .arrow, .symbol .scope].contains b
  | .symbol .gt | .symbol .shr => opened
  | .symbol .star | .symbol .amp => before.any fun b => b.isName || b == .symbol .gt
  | _ => false

/-- Whether some name directly follows the end of a type. -/
def declaresFrom (before : Option Lexeme) (opened : Bool) : List Lexeme → Bool
  | [] => false
  | first :: rest =>
    let opened := opened || first == .symbol .lt
    (rest.head?.any Lexeme.isName && endsType before opened first) ||
      declaresFrom (some first) opened rest

/-- The marks before which a declaration has to show its type and name. -/
def endsDeclarator (lexeme : Lexeme) : Bool :=
  [Lexeme.symbol .eq, .symbol .lparen, .symbol .lbrace].contains lexeme

/-- Whether a statement declares a local name, as in `int x`, `bitvec<bool> m` or `T * p = q`. -/
def declares (tokens : List Token) : Bool :=
  declaresFrom none false ((tokens.map Located.item).takeWhile fun l => !endsDeclarator l)

/-- Whether a statement has an assignment outside all brackets. -/
def assigns (tokens : List Token) : Bool :=
  (Nesting.mark Token.side 0 tokens).any fun (t, outside) => outside && t.is .eq

/-- The lexemes of a plain or qualified name. -/
def inQualifiedName : Lexeme → Bool
  | .ident _ | .symbol .dot | .symbol .arrow | .symbol .scope => true
  | _ => false

/-- Whether the group that a first opening bracket begins is closed by the last token and no earlier
one. -/
def closesAtEnd : Int → List Token → Bool
  | _, [] => true
  | depth, t :: ts =>
    let depth :=
      match t.side with
      | .opening => depth + 1
      | .closing => depth - 1
      | .plain => depth
    (depth != 0 || ts.isEmpty) && closesAtEnd depth ts

/-- The name that stands for sending the message `message` to `vertex`. -/
def sendSpelling (vertex message : String) : String :=
  "context_signal_" ++ vertex ++ "_" ++ message

/-- A call of a plain or qualified name whose arguments end the statement. A send through the
context is spelled by its two arguments. -/
def call? (tokens : List Token) : Option (Node Token) :=
  let callee := tokens.takeWhile fun t => !t.is .lparen
  let group := tokens.dropWhile fun t => !t.is .lparen
  if !group.isEmpty && !callee.isEmpty && tokens.getLast?.any (Token.is .rparen) &&
      callee.all (fun t => inQualifiedName t.item) && closesAtEnd 0 group then
    let arguments := (splitCommas group.tail.dropLast).map expression
    let name := joinTight callee
    let spelling :=
      match name == "context.signal", arguments with
      | true, [vertex, message] => sendSpelling (joinTight vertex.tokens) (joinTight message.tokens)
      | _, _ => name
    some ⟨.call, spelling, tokens, arguments, spanOf tokens⟩
  else none

/-- The node of a simple statement, given its closing semicolon if it has one. Only a declaration
keeps the semicolon among its tokens. -/
def statement (tokens : List Token) (semicolon : Option Token) : Node Token :=
  if declares tokens then Node.ofTokens .declaration (tokens ++ semicolon.toList)
  else if assigns tokens then Node.ofTokens .operation tokens
  else (call? tokens).getD (expression tokens)

end Shape

end VertexLanes
