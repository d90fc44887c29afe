import VertexLanes.Code.Lower

/-!
# The text lines of code

An instruction is written as one line of text, except that a send under a mask
is written as a braced group of lines. Each text line is described here by what
it does and by its indentation. The text of code is the text of its lines so
described, in order.
-/

namespace VertexLanes

/-- The line that opens the braces around a send under a mask. -/
def guardText (mask : String) : String := "if (!" ++ mask ++ ".vec_all_zeros()) \x7b"

/-- The line that closes the braces around a send. -/
def closingText : String := "\x7d"

/-- The line that records in a message the mask it is sent under. -/
def recordText (message mask : String) : String :=
  message ++ "." ++ trackField ++ " = " ++ mask ++ ";"

/-- The line that declares a mask. -/
def declarationText (vectorType : String) (label : Label) : String :=
  vectorType ++ "<bool> " ++ label.name ++ ";"

/-- The line of a return. -/
def returnText : Option String → String
  | some expr => "return " ++ expr ++ ";"
  | none => "return;"

/-- What one line of the text of code does. -/
inductive LineRole where
  /-- Declare the mask of a branch. -/
  | declareMask (label : Label)
  /-- Write a value to the lanes of the mask. -/
  | update (target : Target) (value : LaneExpr) (mask : Option Mask)
  /-- Open the braces around a send. -/
  | openGuard (mask : Mask)
  /-- Record the mask in the message. -/
  | record (message : String) (mask : Mask)
  /-- Send the message. -/
  | signal (vertex message : String)
  /-- Close the braces around a send. -/
  | closeGuard
  /-- A declaration of the body. -/
  | declare (tokens : List String)
  /-- Leave the body. -/
  | return (expr : Option String)
deriving DecidableEq, Repr

/-- The text of a line, without its indentation. -/
def LineRole.text (p : Policy) : LineRole → String
  | .declareMask label => declarationText p.vectorType label
  | .update target value mask => updateText p target value mask
  | .openGuard mask => guardText (p.maskText mask)
  | .record message mask => recordText message (p.maskText mask)
  | .signal vertex message => signalText vertex message
  | .closeGuard => closingText
  | .declare tokens => String.intercalate " " tokens
  | .return expr => returnText expr

/-- A line of text at its indentation. -/
structure TextLine where
  /-- The number of indentation steps. -/
  depth : Nat
  /-- What the line does. -/
  role : LineRole
deriving DecidableEq, Repr

/-- The text of a line. -/
def TextLine.text (p : Policy) (line : TextLine) : String :=
  indented line.depth (line.role.text p)

/-- The text lines of an instruction. What stands in the braces around a send is indented by one
more step. -/
def Instr.textLines (depth : Nat) : Instr → List TextLine
  | .declareMask label => [⟨depth, .declareMask label⟩]
  | .update target value mask => [⟨depth, .update target value mask⟩]
  | .send vertex message none _ => [⟨depth, .signal vertex message⟩]
  | .send vertex message (some mask) track =>
    ⟨depth, .openGuard mask⟩ ::
      ((if track then [⟨depth + 1, .record message mask⟩] else []) ++
        [⟨depth + 1, .signal vertex message⟩, ⟨depth, .closeGuard⟩])
  | .declare tokens => [⟨depth, .declare tokens⟩]
  | .return expr => [⟨depth, .return expr⟩]

/-- The text lines of code. -/
def textLines (code : List Line) : List TextLine :=
  code.flatMap fun line => line.instr.textLines line.depth

@[simp] theorem textLines_nil : textLines [] = [] := rfl

@[simp] theorem textLines_cons (line : Line) (code : List Line) :
    textLines (line :: code) = line.instr.textLines line.depth ++ textLines code := rfl

@[simp] theorem textLines_append (code rest : List Line) :
    textLines (code ++ rest) = textLines code ++ textLines rest := List.flatMap_append

/-- A text that begins with an indentation step is indented by one more. -/
theorem indented_indentStep (depth : Nat) (text : String) :
    indented depth (indentStep ++ text) = indented (depth + 1) text := by
  have hjoin : String.join (List.replicate (depth + 1) indentStep) =
      String.join (List.replicate depth indentStep) ++ indentStep := by
    rw [List.replicate_succ', String.join_append]
    simp
  rw [indented, indented, hjoin, String.append_assoc]

/-- The text of an instruction is that of its lines. -/
theorem Instr.map_text_textLines (p : Policy) (depth : Nat) (instr : Instr) :
    (instr.textLines depth).map (TextLine.text p) = (instr.lines p).map (indented depth) := by
  cases instr with
  | declareMask label => rfl
  | update target value mask => rfl
  | send vertex message mask track =>
    cases mask with
    | none => rfl
    | some m =>
      cases track with
      | false =>
        simp [Instr.textLines, Instr.lines, TextLine.text, LineRole.text, guardText, closingText,
          indented_indentStep]
      | true =>
        simp [Instr.textLines, Instr.lines, TextLine.text, LineRole.text, guardText, closingText,
          recordText, String.append_assoc, indented_indentStep]
  | declare tokens => rfl
  | «return» expr => cases expr <;> rfl

/-- The text of code is that of its lines. -/
theorem render_eq_map_text (p : Policy) (code : List Line) :
    render p code = (textLines code).map (TextLine.text p) := by
  induction code with
  | nil => rfl
  | cons line code ih =>
    have hcons : render p (line :: code) =
        (line.instr.lines p).map (indented line.depth) ++ render p code := rfl
    rw [hcons, ih, textLines_cons, List.map_append, Instr.map_text_textLines]

end VertexLanes
