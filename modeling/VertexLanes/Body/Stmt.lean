import VertexLanes.Body.Label
import VertexLanes.Source.Span

/-!
# Annotated bodies

A phase body after classification: every statement is of a kind that can be
emitted and carries the label it runs under.
-/

namespace VertexLanes

/-- The test of one branch. It fills the mask `label`, in the lanes of `guard`. -/
structure Condition where
  /-- The mask of the branch. -/
  label : Label
  /-- The label of the conditional itself. -/
  guard : Label
  /-- What the mask is filled with. -/
  test : LaneExpr
  /-- Where the test was read; for an else branch, where the branch was. -/
  span : Span
deriving DecidableEq, Repr

/-- A sequence of statements under one label. -/
structure Scope (σ : Type) where
  /-- The label of every statement of the sequence. -/
  label : Label
  /-- The statements, in order. -/
  stmts : List σ
deriving Repr, BEq

/-- One annotated statement. -/
inductive Stmt where
  /-- A nested block. -/
  | block (body : Scope Stmt)
  /-- A conditional without an else branch. -/
  | ifThen (label : Label) (test : Condition) (body : Scope Stmt) (span : Span)
  /-- A conditional with both branches. -/
  | ifElse (label : Label) (test : Condition) (body : Scope Stmt) (otherwise : Condition)
      (elseBody : Scope Stmt) (span : Span)
  /-- An assignment to a variable. -/
  | assign (label : Label) (target : String) (value : LaneExpr) (span : Span)
  /-- A declaration, token for token. -/
  | declare (label : Label) (tokens : List String)
  /-- A message sent to a vertex. -/
  | send (label : Label) (vertex message : String) (span : Span)
  /-- A return, with the returned expression if there is one. -/
  | return (label : Label) (expr : Option String)
deriving Repr, BEq

/-- The label a statement runs under. -/
def Stmt.label : Stmt → Label
  | .block body => body.label
  | .ifThen label _ _ _ => label
  | .ifElse label _ _ _ _ _ => label
  | .assign label _ _ _ => label
  | .declare label _ => label
  | .send label _ _ _ => label
  | .return label _ => label

/-- The kinds of entry an annotated body is made of. -/
inductive EntryKind where
  | compound | conditional | condition | assignment | localDecl | messageSend | return | expression
deriving DecidableEq, Repr

namespace EntryKind

/-- Every kind of entry. -/
def all : List EntryKind :=
  [.compound, .conditional, .condition, .assignment, .localDecl, .messageSend, .return, .expression]

/-- The name of a kind of entry in printed trees. -/
def name : EntryKind → String
  | .compound => "compound"
  | .conditional => "conditional"
  | .condition => "condition"
  | .assignment => "assignment"
  | .localDecl => "local_decl"
  | .messageSend => "message_send"
  | .return => "return"
  | .expression => "expression"

end EntryKind

/-- One line of the preorder listing of an annotated body. -/
inductive Entry where
  | block (label : Label) (count : Nat)
  /-- A conditional, with the number of its tests and branches. -/
  | conditional (label : Label) (arity : Nat) (span : Span)
  | condition (label guard : Label) (span : Span)
  | expression (op : Option VectorOp)
  | assignment (label : Label) (op : Option VectorOp) (span : Span)
  | declaration (label : Label)
  | send (label : Label) (span : Span)
  | return (label : Label)
deriving DecidableEq, Repr

/-- The kind of an entry. -/
def Entry.kind : Entry → EntryKind
  | .block _ _ => .compound
  | .conditional _ _ _ => .conditional
  | .condition _ _ _ => .condition
  | .expression _ => .expression
  | .assignment _ _ _ => .assignment
  | .declaration _ => .localDecl
  | .send _ _ => .messageSend
  | .return _ => .return

/-- The two entries of a test. -/
def Condition.entries (c : Condition) : List Entry :=
  [.condition c.label c.guard c.span, .expression c.test.op?]

mutual
/-- The preorder listing of one statement. -/
def Stmt.entries : Stmt → List Entry
  | .block ⟨label, stmts⟩ => .block label stmts.length :: entriesOf stmts
  | .ifThen label test ⟨_, stmts⟩ span =>
    .conditional label 2 span :: (test.entries ++ entriesOf stmts)
  | .ifElse label test ⟨_, stmts⟩ otherwise ⟨_, others⟩ span =>
    .conditional label 4 span ::
      (test.entries ++ entriesOf stmts ++ otherwise.entries ++ entriesOf others)
  | .assign label _ value span => [.assignment label value.op? span]
  | .declare label _ => [.declaration label]
  | .send label _ _ span => [.send label span]
  | .return label _ => [.return label]
/-- The preorder listing of a statement sequence. -/
def entriesOf : List Stmt → List Entry
  | [] => []
  | s :: ss => s.entries ++ entriesOf ss
end

end VertexLanes
