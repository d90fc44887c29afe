import VertexLanes.Operator.Vector

/-!
# Mask labels and lane expressions

Every statement of an annotated body runs under a label, which names the lanes
that are live there. The entry of a body has the root label; each branch of a
conditional has a numbered label of its own.
-/

namespace VertexLanes

/-- The set of lanes under which a statement runs. -/
inductive Label where
  /-- All lanes that entered the body. -/
  | root
  /-- The lanes that took one branch. -/
  | mask (number : Nat)
deriving DecidableEq, Repr

namespace Label

/-- The name of the label in trees and in emitted code. -/
def name : Label → String
  | .root => "ROOT"
  | .mask n => "mask_" ++ toString n

/-- Whether the label is that of the entry. -/
def isRoot : Label → Bool
  | .root => true
  | .mask _ => false

end Label

/-- A right-hand side or a test, as one application of a vector primitive. -/
inductive LaneExpr where
  /-- No operator: a name or a value passed through. -/
  | pass (text : String)
  /-- An operator with a single operand. -/
  | unary (op : VectorOp) (operand : String)
  /-- An operator between two operands. -/
  | binary (op : VectorOp) (lhs rhs : String)
  /-- The lanes outside a mask. -/
  | complement (of : Label)
deriving DecidableEq, Repr

/-- The operator of an expression. A complement is a negation. -/
def LaneExpr.op? : LaneExpr → Option VectorOp
  | .pass _ => none
  | .unary op _ => some op
  | .binary op _ _ => some op
  | .complement _ => some .neg

end VertexLanes
