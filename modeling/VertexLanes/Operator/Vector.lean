import VertexLanes.Text.Occurrence

/-!
# Element-wise vector updates

The surface operators that have a primitive in the vector library. The order of
the table is the order of lookup: a spelling stands before every shorter
spelling that occurs in it.
-/

namespace VertexLanes

/-- An operator that updates the lanes of a vector. -/
inductive VectorOp where
  | add | sub | mul | div
  | eq | ne | le | ge | lt | gt
  | andNot | or | and | neg
deriving DecidableEq, Repr

namespace VectorOp

/-- Every operator, in lookup order. -/
def all : List VectorOp :=
  [.add, .sub, .mul, .div, .eq, .ne, .le, .ge, .lt, .gt, .andNot, .or, .and, .neg]

/-- The operator as a sequence of tokens. -/
def tokens : VectorOp → List String
  | .add => ["+"]
  | .sub => ["-"]
  | .mul => ["*"]
  | .div => ["/"]
  | .eq => ["=="]
  | .ne => ["!="]
  | .le => ["<="]
  | .ge => [">="]
  | .lt => ["<"]
  | .gt => [">"]
  | .andNot => ["&", "~"]
  | .or => ["|"]
  | .and => ["&"]
  | .neg => ["~"]

/-- The operator as it is written in source text. -/
def spelling (op : VectorOp) : String := String.join op.tokens

/-- The name of the operator in printed trees. -/
def name : VectorOp → String
  | .add => "add"
  | .sub => "sub"
  | .mul => "mul"
  | .div => "div"
  | .eq => "cmp_eq"
  | .ne => "cmp_neq"
  | .le => "cmp_le"
  | .ge => "cmp_ge"
  | .lt => "cmp_lt"
  | .gt => "cmp_gt"
  | .andNot => "and_not"
  | .or => "or"
  | .and => "and"
  | .neg => "neg"

/-- The part of the primitive's name that tells the operators apart. -/
def stem : VectorOp → String
  | .add => "add"
  | .sub => "sub"
  | .mul => "mul"
  | .div => "div"
  | .eq => "cmpeq"
  | .ne => "cmpneq"
  | .le => "cmple"
  | .ge => "cmpge"
  | .lt => "cmplt"
  | .gt => "cmpgt"
  | .andNot => "andnot"
  | .or => "or"
  | .and => "and"
  | .neg => "neg"

/-- The masked primitive, whose first argument selects the lanes to update. -/
def primitive (op : VectorOp) : String := "vec_op_" ++ op.stem ++ "_update_mask"

/-- The first operator of the table whose spelling occurs in a text. -/
def find? (text : String) : Option VectorOp :=
  all.find? fun op => Text.occursIn op.spelling.toList text.toList

end VectorOp

/-- The masked primitive that copies its operand into the selected lanes. -/
def setPrimitive : String := "vec_op_set_mask"

/-- The un-masked name of a masked primitive; a name that is not masked stays as it is. -/
def unmasked (primitive : String) : String :=
  String.ofList (Text.dropEnding "_mask".toList primitive.toList)

end VertexLanes
