import VertexLanes.Body.Stmt
import VertexLanes.Text.Json

/-!
# Annotated bodies as JSON
-/

namespace VertexLanes

/-- A label as its name. -/
def Label.json (label : Label) : JsonValue := .text label.name

/-- An expression as a record that names its form first. -/
def LaneExpr.json : LaneExpr → JsonValue
  | .pass text => .record [("form", .text "no_op"), ("text", .text text)]
  | .unary op operand =>
    .record [("form", .text "unary"), ("op", .text op.name), ("operand", .text operand)]
  | .binary op lhs rhs =>
    .record [("form", .text "binary"), ("op", .text op.name), ("lhs", .text lhs),
      ("rhs", .text rhs)]
  | .complement label => .record [("form", .text "complement"), ("of", label.json)]

/-- A test as a record. -/
def Condition.json (c : Condition) : JsonValue :=
  .record [("label", c.label.json), ("guard", c.guard.json), ("test", c.test.json)]

/-- The record of a statement, which names its kind first. -/
def kindRecord (kind : EntryKind) (label : Label) (entries : List (String × JsonValue)) :
    JsonValue :=
  .record (("kind", .text kind.name) :: ("label", label.json) :: entries)

mutual
/-- A statement as a record. -/
def Stmt.json : Stmt → JsonValue
  | .block ⟨label, stmts⟩ => kindRecord .compound label [("stmts", .list (jsonAll stmts))]
  | .ifThen label test ⟨mask, stmts⟩ _ =>
    kindRecord .conditional label
      [("condition", test.json),
        ("then_branch", .record [("label", mask.json), ("stmts", .list (jsonAll stmts))])]
  | .ifElse label test ⟨mask, stmts⟩ otherwise ⟨elseMask, others⟩ _ =>
    kindRecord .conditional label
      [("condition", test.json),
        ("then_branch", .record [("label", mask.json), ("stmts", .list (jsonAll stmts))]),
        ("else_branch", .record
          [("condition", otherwise.json),
            ("body", .record [("label", elseMask.json), ("stmts", .list (jsonAll others))])])]
  | .assign label target value _ =>
    kindRecord .assignment label [("target", .text target), ("value", value.json)]
  | .declare label tokens => kindRecord .localDecl label [("tokens", .list (tokens.map .text))]
  | .send label vertex message _ =>
    kindRecord .messageSend label [("vertex", .text vertex), ("message", .text message)]
  | .return label expr =>
    kindRecord .return label (expr.toList.map fun e => ("expr", .text e))
/-- Statements as records. -/
def jsonAll : List Stmt → List JsonValue
  | [] => []
  | s :: ss => s.json :: jsonAll ss
end

/-- A body as a record. -/
def Scope.json (body : Scope Stmt) : JsonValue :=
  .record [("label", body.label.json), ("stmts", .list (jsonAll body.stmts))]

end VertexLanes
