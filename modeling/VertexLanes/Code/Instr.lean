import VertexLanes.Body.Label

/-!
# Masked vector code

The instructions of a converted body, each at its indentation. A mask argument
selects the lanes an instruction affects; without one it affects every lane.
-/

namespace VertexLanes

/-- How a body is lowered. -/
structure Policy where
  /-- Whether the entry of the body has a mask and messages record the mask they are sent under. -/
  tracking : Bool
  /-- The expression that is the mask of the entry. -/
  ambient : String
  /-- The vector template. -/
  vectorType : String
deriving DecidableEq, Repr

/-- The default vector template. -/
def defaultVectorType : String := "graphlab::automi_bitvec"

/-- The field of a message that records the lanes it was sent for. -/
def trackField : String := "track"

/-- The mask argument of an instruction. -/
inductive Mask where
  /-- The lanes that entered the body. -/
  | ambient
  /-- The lanes of a branch. -/
  | minted (number : Nat)
deriving DecidableEq, Repr

/-- What an update writes to. -/
inductive Target where
  /-- The mask of a branch. -/
  | mask (label : Label)
  /-- A variable of the body. -/
  | variable (text : String)
deriving DecidableEq, Repr

/-- The text of a target. -/
def Target.text : Target → String
  | .mask label => label.name
  | .variable text => text

/-- One instruction. -/
inductive Instr where
  /-- Declare the mask of a branch. -/
  | declareMask (label : Label)
  /-- Write a value to the lanes of the mask. -/
  | update (target : Target) (value : LaneExpr) (mask : Option Mask)
  /-- Send a message if some lane of the mask is live, recording the mask if so told. -/
  | send (vertex message : String) (mask : Option Mask) (track : Bool)
  /-- A declaration of the body, token for token. -/
  | declare (tokens : List String)
  /-- Leave the body. -/
  | return (expr : Option String)
deriving DecidableEq, Repr

/-- An instruction at its indentation. -/
structure Line where
  /-- The number of indentation steps. -/
  depth : Nat
  /-- The instruction. -/
  instr : Instr
deriving DecidableEq, Repr

/-- One indentation step. -/
def indentStep : String := "  "

/-- A text indented by some steps. -/
def indented (depth : Nat) (text : String) : String :=
  String.join (List.replicate depth indentStep) ++ text

namespace Policy

/-- The mask argument of statements under a label. -/
def mask (p : Policy) : Label → Option Mask
  | .root => if p.tracking then some .ambient else none
  | .mask n => some (.minted n)

/-- The text of a mask argument. -/
def maskText (p : Policy) : Mask → String
  | .ambient => p.ambient
  | .minted n => (Label.mask n).name

end Policy

/-- The masked primitive of an expression. -/
def LaneExpr.primitive (value : LaneExpr) : String :=
  match value.op? with
  | some op => op.primitive
  | none => setPrimitive

/-- The operands of an expression. -/
def LaneExpr.operands : LaneExpr → List String
  | .pass text => [text]
  | .unary _ operand => [operand]
  | .binary _ lhs rhs => [lhs, rhs]
  | .complement label => [label.name]

/-- A call of the primitive that writes an expression to a target. -/
def updateText (p : Policy) (target : Target) (value : LaneExpr) (mask : Option Mask) : String :=
  let (primitive, arguments) :=
    match mask with
    | some m => (value.primitive, p.maskText m :: value.operands)
    | none => (unmasked value.primitive, value.operands)
  target.text ++ "." ++ primitive ++ "(" ++ String.intercalate ", " arguments ++ ");"

/-- The call that sends a message. -/
def signalText (vertex message : String) : String :=
  "context.signal(" ++ vertex ++ ", " ++ message ++ ");"

/-- The lines of an instruction. -/
def Instr.lines (p : Policy) : Instr → List String
  | .declareMask label => [p.vectorType ++ "<bool> " ++ label.name ++ ";"]
  | .update target value mask => [updateText p target value mask]
  | .send vertex message none _ => [signalText vertex message]
  | .send vertex message (some m) track =>
    ["if (!" ++ p.maskText m ++ ".vec_all_zeros()) \x7b"] ++
      (if track then [indentStep ++ message ++ "." ++ trackField ++ " = " ++ p.maskText m ++ ";"]
        else []) ++
      [indentStep ++ signalText vertex message, "\x7d"]
  | .declare tokens => [String.intercalate " " tokens]
  | .return (some expr) => ["return " ++ expr ++ ";"]
  | .return none => ["return;"]

/-- The text lines of indented instructions. -/
def render (p : Policy) (code : List Line) : List String :=
  code.flatMap fun line => (line.instr.lines p).map (indented line.depth)

end VertexLanes
