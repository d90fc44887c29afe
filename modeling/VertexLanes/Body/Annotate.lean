import VertexLanes.Block.Node
import VertexLanes.Body.Operands
import VertexLanes.Body.Stmt
import VertexLanes.Phase.Basic
import VertexLanes.Source.Diagnostic
import VertexLanes.Text.Lines

/-!
# Annotating a phase body

One walk over a statement tree classifies every statement and hands out mask
labels: a conditional takes a fresh one for its first branch before it walks
that branch, and another for its else branch after that. A statement that has no
masked form is left out with a notice. A tree whose conditionals or sends do not
have the expected shape is refused as a whole, at the first such statement.
-/

namespace VertexLanes

/-- How a statement can fail to have the shape of its kind. -/
inductive Malformation where
  /-- A conditional without exactly a test and one or two branches. -/
  | branchCount
  /-- A conditional that begins with a block. -/
  | missingTest
  /-- A conditional with a branch that is no block. -/
  | branchNotBlock
  /-- A send whose vertex and message cannot be told apart. -/
  | unreadableSend
deriving DecidableEq, Repr

/-- The kind of statement that is malformed. -/
def Malformation.kind : Malformation → NodeKind
  | .unreadableSend => .call
  | _ => .conditional

/-- What is wrong with a malformed statement. -/
def Malformation.reason : Malformation → String
  | .branchCount => "expected a test and one or two branches"
  | .missingTest => "the test expression is missing"
  | .branchNotBlock => "branches must be blocks"
  | .unreadableSend => "cannot recover the destination vertex and message of this send"

/-- Why a body is not converted. -/
inductive BodyFault where
  /-- A body that is no block. -/
  | notBlock (found : NodeKind)
  /-- A body without statements. -/
  | empty (phase : Phase)
  /-- A statement without the shape of its kind. -/
  | malformed (what : Malformation)
deriving DecidableEq, Repr

instance : Explains BodyFault where
  severity := .error
  message
    | .notBlock found => "expected a block as phase body, found a " ++ found.name
    | .empty phase => "the " ++ phase.name ++ " body has no statements to convert"
    | .malformed what => "malformed " ++ what.kind.name ++ ": " ++ what.reason
  help
    | .malformed _ => some "the phase body is not converted"
    | _ => none

/-- The statements that have no masked form. -/
inductive Dropped where
  /-- A loop or some other statement without operator. -/
  | unsupported
  /-- An expression that assigns nothing. -/
  | expression
  /-- An assignment with one side missing. -/
  | incomplete
  /-- A compound assignment whose right-hand side has an operator of its own. -/
  | compoundValue
  /-- A call that is no send. -/
  | call (callee : String)
deriving DecidableEq, Repr

/-- How a notice calls a dropped statement. -/
def Dropped.name : Dropped → String
  | .unsupported => "unsupported statement"
  | .expression => "expression statement"
  | .incomplete => "incomplete assignment"
  | .compoundValue => "compound assignment of a compound expression"
  | .call callee => "call to '" ++ callee ++ "'"

/-- What a conversion leaves out. -/
inductive BodyNotice where
  /-- A statement. -/
  | dropped (what : Dropped)
  /-- All operands but the first of an expression with this many slots. -/
  | operandsDiscarded (slots : Nat)
deriving DecidableEq, Repr

instance : Explains BodyNotice where
  severity := .warning
  message
    | .dropped what => what.name ++ " dropped from the converted body"
    | .operandsDiscarded slots =>
      "operator splits this expression into " ++ toString slots ++ " operands"
  notes
    | .dropped _ =>
      ["only blocks, if/else, assignments, declarations, sends and returns are converted"]
    | .operandsDiscarded _ => ["only the first operand is kept"]
  help
    | .dropped _ => none
    | .operandsDiscarded _ => some "split the expression into one operator per statement"

/-- A result of the walk with the number of the next fresh label and the notices so far. -/
structure Noted (α : Type) where
  /-- The result. -/
  value : α
  /-- The number of the next fresh label. -/
  next : Nat
  /-- What was left out, in order. -/
  notices : List (Located BodyNotice)

/-- The notice that a statement is left out. -/
def dropNotice (n : Node String) (what : Dropped) : List (Located BodyNotice) :=
  [⟨.dropped what, n.span⟩]

/-- The notice that operands are left out, if there are more than two slots. -/
def slotNotice (n : Node String) (slots : Nat) : List (Located BodyNotice) :=
  if 2 < slots then [⟨.operandsDiscarded slots, n.span⟩] else []

/-- The operator of a compound assignment. -/
def compoundOp? : String → Option VectorOp
  | "+=" => some .add
  | "-=" => some .sub
  | "*=" => some .mul
  | "/=" => some .div
  | "&=" => some .and
  | "|=" => some .or
  | _ => none

/-- Cut an assignment around its operator, which stands outside all brackets. -/
def cutAssignment? (tokens : List String) : Option (List String × String × List String) :=
  Nesting.cut? sideOfSpelling (fun t => t == "=" || (compoundOp? t).isSome) 0 tokens

/-- Annotate an operation. Only an assignment has a masked form; a compound assignment has one if
its right-hand side has no operator. -/
def annotateOperation (label : Label) (n : Node String) :
    Option Stmt × List (Located BodyNotice) :=
  match cutAssignment? n.tokens with
  | none => (none, dropNotice n .expression)
  | some (lhs, sign, rhs) =>
    if lhs.isEmpty || rhs.isEmpty then (none, dropNotice n .incomplete)
    else
      let target := renderExpr lhs
      let value := Operands.classify rhs
      match compoundOp? sign, value.expr with
      | none, expr => (some (.assign label target expr n.span), slotNotice n value.slots)
      | some op, .pass text => (some (.assign label target (.binary op target text) n.span), [])
      | some _, _ => (none, dropNotice n .compoundValue)

/-- The beginning of every name that stands for a send. -/
def sendMarker : String := "context_signal_"

/-- The vertex and the message of a send, read from its name or else from its two arguments. -/
def sendParts? (n : Node String) : Option (String × String) :=
  let arguments : Option (String × String) :=
    match n.children with
    | [vertex, message] => some (renderExpr vertex.tokens, renderExpr message.tokens)
    | _ => none
  match Text.splitAtChar '_' n.spelling.toList with
  | [_, _, vertex, message] =>
    if vertex.isEmpty || message.isEmpty then arguments
    else some (String.ofList vertex, String.ofList message)
  | _ => arguments

/-- Annotate a call. Only a send has a masked form. -/
def annotateCall (label : Label) (n : Node String) :
    Except (Located BodyFault) (Option Stmt × List (Located BodyNotice)) :=
  if sendMarker.toList.isPrefixOf n.spelling.toList then
    match sendParts? n with
    | some (vertex, message) => .ok (some (.send label vertex message n.span), [])
    | none => .error ⟨.malformed .unreadableSend, n.span⟩
  else .ok (none, dropNotice n (.call n.spelling))

/-- The fault of a conditional with the given children, if it has one. -/
def conditionalFault? (children : List (Node String)) : Option Malformation :=
  match children with
  | test :: branches =>
    if branches.length = 1 ∨ branches.length = 2 then
      if test.kind = .block then some .missingTest
      else if branches.all fun b => b.kind == .block then none
      else some .branchNotBlock
    else some .branchCount
  | [] => some .branchCount

mutual

/-- Annotate one statement under a label. No statement means that it is left out. -/
def annotateStmt (label : Label) (next : Nat) :
    Node String → Except (Located BodyFault) (Noted (Option Stmt))
  | ⟨.block, _, _, children, _⟩ => do
    let body ← annotateStmts label next children
    return ⟨some (.block ⟨label, body.value⟩), body.next, body.notices⟩
  | ⟨.conditional, _, _, [test, ⟨thenKind, thenName, thenTokens, stmts, thenSpan⟩], span⟩ => do
    if let some what := conditionalFault? [test, ⟨thenKind, thenName, thenTokens, stmts, thenSpan⟩]
      then throw ⟨.malformed what, span⟩
    let value := Operands.classify test.tokens
    let mask := Label.mask next
    let body ← annotateStmts mask (next + 1) stmts
    return ⟨some (.ifThen label ⟨mask, label, value.expr, test.span⟩ ⟨mask, body.value⟩ span),
      body.next, slotNotice test value.slots ++ body.notices⟩
  | ⟨.conditional, _, _, [test, ⟨thenKind, thenName, thenTokens, stmts, thenSpan⟩,
      ⟨elseKind, elseName, elseTokens, others, elseSpan⟩], span⟩ => do
    if let some what := conditionalFault? [test, ⟨thenKind, thenName, thenTokens, stmts, thenSpan⟩,
        ⟨elseKind, elseName, elseTokens, others, elseSpan⟩]
      then throw ⟨.malformed what, span⟩
    let value := Operands.classify test.tokens
    let mask := Label.mask next
    let body ← annotateStmts mask (next + 1) stmts
    let elseMask := Label.mask body.next
    let elseBody ← annotateStmts elseMask (body.next + 1) others
    return ⟨some (.ifElse label ⟨mask, label, value.expr, test.span⟩ ⟨mask, body.value⟩
        ⟨elseMask, label, .complement mask, elseSpan⟩ ⟨elseMask, elseBody.value⟩ span),
      elseBody.next, slotNotice test value.slots ++ body.notices ++ elseBody.notices⟩
  | ⟨.conditional, _, _, _, span⟩ => throw ⟨.malformed .branchCount, span⟩
  | ⟨.operation, spelling, tokens, children, span⟩ =>
    let (stmt, notices) := annotateOperation label ⟨.operation, spelling, tokens, children, span⟩
    return ⟨stmt, next, notices⟩
  | ⟨.declaration, _, tokens, _, _⟩ => return ⟨some (.declare label tokens), next, []⟩
  | ⟨.call, spelling, tokens, children, span⟩ => do
    let (stmt, notices) ← annotateCall label ⟨.call, spelling, tokens, children, span⟩
    return ⟨stmt, next, notices⟩
  | ⟨.return, _, _, children, _⟩ =>
    return ⟨some (.return label (children.head?.map fun e => renderExpr e.tokens)), next, []⟩
  | ⟨.other, spelling, tokens, children, span⟩ =>
    return ⟨none, next, dropNotice ⟨.other, spelling, tokens, children, span⟩ .unsupported⟩

/-- Annotate statements in order, all under one label. -/
def annotateStmts (label : Label) (next : Nat) :
    List (Node String) → Except (Located BodyFault) (Noted (List Stmt))
  | [] => return ⟨[], next, []⟩
  | n :: ns => do
    let first ← annotateStmt label next n
    let others ← annotateStmts label first.next ns
    return ⟨first.value.toList ++ others.value, others.next, first.notices ++ others.notices⟩

end

/-- A phase body with its statements classified and its masks numbered. -/
structure Annotated where
  /-- The body, under the root label. -/
  root : Scope Stmt
  /-- The number of masks handed out; they are numbered from one. -/
  masks : Nat
  /-- What was left out, in order. -/
  notices : List (Located BodyNotice)

/-- Annotate a phase body, with labels numbered from one. -/
def annotate (body : Node String) : Except (Located BodyFault) Annotated := do
  if body.kind ≠ .block then throw ⟨.notBlock body.kind, body.span⟩
  let stmts ← annotateStmts .root 1 body.children
  return ⟨⟨.root, stmts.value⟩, stmts.next - 1, stmts.notices⟩

end VertexLanes
