import VertexLanes.Text.Occurrence

/-!
# Pairwise reductions

The reductions that merge two messages field by field, in lookup order.
-/

namespace VertexLanes

/-- A reduction of two vectors, lane by lane. -/
inductive PairwiseOp where
  | min | max | or | and | add | mul
deriving DecidableEq, Repr

namespace PairwiseOp

/-- Every reduction, in lookup order. -/
def all : List PairwiseOp := [.min, .max, .or, .and, .add, .mul]

/-- The text by which an accumulating expression is recognised. -/
def spelling : PairwiseOp → String
  | .min => "std::min"
  | .max => "std::max"
  | .or => "|"
  | .and => "&"
  | .add => "+"
  | .mul => "*"

/-- The reduction's name in the vector library. -/
def primitive : PairwiseOp → String
  | .min => "pair_op_min"
  | .max => "pair_op_max"
  | .or => "pair_op_or"
  | .and => "pair_op_and"
  | .add => "pair_op_add"
  | .mul => "pair_op_mul"

/-- The first reduction of the table whose spelling occurs in a text. -/
def find? (text : String) : Option PairwiseOp :=
  all.find? fun op => Text.occursIn op.spelling.toList text.toList

end PairwiseOp

end VertexLanes
