import VertexLanes.Body.Label
import VertexLanes.Token.Layout
import VertexLanes.Token.Nesting

/-!
# Operands of a vector operator

An expression is one application of the first operator of the table that joins
operands outside all brackets. Its tokens are cut at every such place; what lies
between the cuts are the operand slots. A sign or dereference in front of an
operand belongs to the operand, so only the negation counts there.
-/

namespace VertexLanes

namespace Operands

/-- Whether the token after `before` starts an operand instead of joining two. -/
def startsOperand : Option String → Bool
  | none => true
  | some before =>
    spacedOperators.contains before || ["(", "[", ",", "!", "~", "return"].contains before

/-- Cut around the first place where `op` splits the tokens that follow `before`. -/
def cut? (op : VectorOp) : Option String → Int → List String → Option (List String × List String)
  | _, _, [] => none
  | before, depth, t :: ts =>
    let onward (d : Int) := (cut? op (some t) d ts).map fun (left, right) => (t :: left, right)
    match sideOfSpelling t with
    | .opening => onward (depth + 1)
    | .closing => onward (depth - 1)
    | .plain =>
      if depth == 0 && op.tokens.isPrefixOf (t :: ts) && (op == .neg || !startsOperand before) then
        some ([], (t :: ts).drop op.tokens.length)
      else onward depth

/-- A cut takes out the operator and nothing else. -/
theorem cut?_tiles {op : VectorOp} {before : Option String} {depth : Int} {tokens : List String}
    {left right : List String} (h : cut? op before depth tokens = some (left, right)) :
    left ++ op.tokens ++ right = tokens := by
  induction tokens generalizing before depth left with
  | nil => simp [cut?] at h
  | cons t ts ih =>
    have onward {d : Int} (h : (cut? op (some t) d ts).map
        (fun x => (t :: x.1, x.2)) = some (left, right)) : left ++ op.tokens ++ right = t :: ts := by
      simp only [Option.map_eq_some_iff, Prod.exists, Prod.mk.injEq] at h
      obtain ⟨l, r, hc, rfl, rfl⟩ := h
      simpa using ih hc
    rw [cut?] at h
    split at h
    · exact onward h
    · exact onward h
    · split at h
      · next hp =>
        simp only [Bool.and_eq_true] at hp
        obtain ⟨rest, hr⟩ := List.isPrefixOf_iff_prefix.mp hp.1.2
        simp only [Option.some.injEq, Prod.mk.injEq] at h
        obtain ⟨rfl, rfl⟩ := h
        simp [← hr]
      · exact onward h

/-- Every operator has at least one token. -/
theorem tokens_length_pos (op : VectorOp) : 0 < op.tokens.length := by
  cases op <;> decide

/-- The operand slots into which `op` splits the tokens that follow `before`. -/
def slots (op : VectorOp) (before : Option String) (tokens : List String) : List (List String) :=
  match _h : cut? op before 0 tokens with
  | none => [tokens]
  | some (left, right) => left :: slots op op.tokens.getLast? right
termination_by tokens.length
decreasing_by
  have := congrArg List.length (cut?_tiles _h)
  have := tokens_length_pos op
  simp only [List.length_append] at *
  omega

/-- An expression as one application of a primitive. -/
structure Classified where
  /-- The application. -/
  expr : LaneExpr
  /-- The number of operand slots. More than two mean that operands were left out. -/
  slots : Nat
deriving DecidableEq, Repr

/-- The application of `op` to the slots it splits an expression into. Two filled slots are the
operands; otherwise only the first filled one is kept. -/
def applied (op : VectorOp) (tokens : List String) (parts : List (List String)) : LaneExpr :=
  match parts.filter fun part => !part.isEmpty with
  | [] => .pass (renderExpr tokens)
  | [left, right] =>
    if parts.length = 2 then .binary op (renderExpr left) (renderExpr right)
    else .unary op (renderExpr left)
  | first :: _ => .unary op (renderExpr first)

/-- The first operator of the table that splits the tokens, and its slots. -/
def firstSplit? (tokens : List String) : Option (VectorOp × List (List String)) :=
  VectorOp.all.findSome? fun op =>
    match slots op none tokens with
    | [_] => none
    | parts => some (op, parts)

/-- Read tokens as one application of a primitive. -/
def classify (tokens : List String) : Classified :=
  match firstSplit? tokens with
  | some (op, parts) => ⟨applied op tokens parts, parts.length⟩
  | none => ⟨.pass (renderExpr tokens), 1⟩

end Operands

end VertexLanes
