import Mathlib.Data.List.Forall2
import VertexLanes.Proofs.CodeLines

/-!
# Lines of vector code by the names in them

A line of converted code is read here as its target language reads it. Whatever
it names is known by its text alone, be it a variable of the body, the mask of a
branch, the mask of the entry or the mask that a message carries, and a function
of the vector library is known by the name under which it is documented. The text
of converted code is that of its lines so read.
-/

namespace VertexLanes

/-! ## Functions of the vector library -/

/-- The documented name of the function that applies an operator in every lane. -/
def VectorOp.libraryName : VectorOp → String
  | .add => "vec_op_add_update"
  | .sub => "vec_op_sub_update"
  | .mul => "vec_op_mul_update"
  | .div => "vec_op_div_update"
  | .eq => "vec_op_cmpeq_update"
  | .ne => "vec_op_cmpneq_update"
  | .le => "vec_op_cmple_update"
  | .ge => "vec_op_cmpge_update"
  | .lt => "vec_op_cmplt_update"
  | .gt => "vec_op_cmpgt_update"
  | .andNot => "vec_op_andnot_update"
  | .or => "vec_op_or_update"
  | .and => "vec_op_and_update"
  | .neg => "vec_op_neg_update"

/-- The documented function of an expression. Without an operator the operand is copied. -/
def LaneExpr.function (value : LaneExpr) : String :=
  match value.op? with
  | some op => op.libraryName
  | none => "vec_op_set"

/-- A masked name is its un-masked name with an ending. -/
theorem unmasked_append (s : String) : unmasked (s ++ "_mask") = s := by
  have hsuffix : "_mask".toList.isSuffixOf (s ++ "_mask").toList = true := by
    rw [List.isSuffixOf_iff_suffix, String.toList_append]
    exact List.suffix_append _ _
  rw [unmasked, Text.dropEnding, if_pos hsuffix, String.toList_append, List.length_append,
    Nat.add_sub_cancel, List.take_left, String.ofList_toList]

/-- The masked primitive of an operator is the documented function with the ending of masked
names. -/
theorem VectorOp.primitive_eq (op : VectorOp) : op.primitive = op.libraryName ++ "_mask" := by
  cases op <;> decide +kernel

/-- The masked primitive of an expression is its documented function with the ending of masked
names. -/
theorem LaneExpr.primitive_eq (value : LaneExpr) : value.primitive = value.function ++ "_mask" := by
  unfold LaneExpr.primitive LaneExpr.function
  cases value.op? with
  | none => rfl
  | some op => exact op.primitive_eq

/-! ## Lines -/

/-- A call of a function on a target. -/
def callText (target function : String) (arguments : List String) : String :=
  target ++ "." ++ function ++ "(" ++ String.intercalate ", " arguments ++ ");"

/-- A line of vector code. Everything in it is a text. -/
inductive VectorLine where
  /-- Declare a mask. -/
  | declare (vectorType name : String)
  /-- Call a function of the vector library. -/
  | call (target function : String) (arguments : List String)
  /-- Open the braces around lines that run only if some lane of a mask is set. -/
  | openGuard (mask : String)
  /-- Let a message carry a mask. -/
  | record (message mask : String)
  /-- Send a message to a vertex. -/
  | signal (vertex message : String)
  /-- Close the braces. -/
  | closeGuard
  /-- A line of another kind. -/
  | other (text : String)
deriving DecidableEq, Repr

/-- The text of a line of vector code, without its indentation. -/
def VectorLine.text : VectorLine → String
  | .declare vectorType name => vectorType ++ "<bool> " ++ name ++ ";"
  | .call target function arguments => callText target function arguments
  | .openGuard mask => "if (!" ++ mask ++ ".vec_all_zeros()) \x7b"
  | .record message mask => message ++ ".track = " ++ mask ++ ";"
  | .signal vertex message => "context.signal(" ++ vertex ++ ", " ++ message ++ ");"
  | .closeGuard => "\x7d"
  | .other text => text

/-- Lines of text spell out vector code: each is the text of one line of it, indented by some
steps. -/
def Spells (lines : List String) (code : List VectorLine) : Prop :=
  List.Forall₂ (fun text line => ∃ depth : Nat,
    text = String.join (List.replicate depth "  ") ++ VectorLine.text line) lines code

/-- The vector code of a line. -/
def LineRole.vectorLine (p : Policy) : LineRole → VectorLine
  | .declareMask label => .declare p.vectorType label.name
  | .update target value none => .call target.text value.function value.operands
  | .update target value (some mask) =>
    .call target.text (value.function ++ "_mask") (p.maskText mask :: value.operands)
  | .openGuard mask => .openGuard (p.maskText mask)
  | .record message mask => .record message (p.maskText mask)
  | .signal vertex message => .signal vertex message
  | .closeGuard => .closeGuard
  | .declare tokens => .other (String.intercalate " " tokens)
  | .return expr => .other (returnText expr)

/-- The vector code of instructions. -/
def vectorLines (p : Policy) (code : List Line) : List VectorLine :=
  (textLines code).map fun line => line.role.vectorLine p

/-- Code after code is vector code after vector code. -/
theorem vectorLines_append (p : Policy) (code rest : List Line) :
    vectorLines p (code ++ rest) = vectorLines p code ++ vectorLines p rest := by
  rw [vectorLines, textLines_append, List.map_append]
  rfl

/-- A masked update is written as a call with the mask before the operands. -/
theorem updateText_some (p : Policy) (target : Target) (value : LaneExpr) (mask : Mask) :
    updateText p target value (some mask) =
      callText target.text (value.function ++ "_mask") (p.maskText mask :: value.operands) := by
  rw [← LaneExpr.primitive_eq]
  rfl

/-- An update of every lane is written as a call with the operands alone. -/
theorem updateText_none (p : Policy) (target : Target) (value : LaneExpr) :
    updateText p target value none = callText target.text value.function value.operands := by
  have hname : unmasked value.primitive = value.function := by
    rw [LaneExpr.primitive_eq, unmasked_append]
  rw [← hname]
  rfl

/-- The vector code of a line has the text of the line. -/
theorem LineRole.text_vectorLine (p : Policy) (role : LineRole) :
    (role.vectorLine p).text = role.text p := by
  cases role with
  | declareMask label => rfl
  | update target value mask =>
    cases mask with
    | none => exact (updateText_none p target value).symm
    | some mask => exact (updateText_some p target value mask).symm
  | openGuard mask => rfl
  | record message mask =>
    have htrack : ".track = " = "." ++ trackField ++ " = " := rfl
    change message ++ ".track = " ++ p.maskText mask ++ ";" = recordText message (p.maskText mask)
    rw [htrack, recordText]
    simp only [String.append_assoc]
  | signal vertex message => rfl
  | closeGuard => rfl
  | declare tokens => rfl
  | «return» expr => rfl

/-- The text of instructions spells out their vector code. -/
theorem spells_render (p : Policy) (code : List Line) :
    Spells (render p code) (vectorLines p code) := by
  rw [render_eq_map_text, Spells, vectorLines, List.forall₂_map_left_iff,
    List.forall₂_map_right_iff, List.forall₂_same]
  intro line _
  exact ⟨line.depth, by rw [LineRole.text_vectorLine]; rfl⟩

end VertexLanes
