import Mathlib.Data.List.Basic
import VertexLanes.Proofs.VectorLines

/-!
# Code with and without tracking

The two modes of lowering write the same code up to the bookkeeping of lanes. The
edits that lead from the code with tracking to the code without are listed along
the body, one for each line: an update of the lanes that entered the body loses
its mask, the line that records a mask in a message goes away, and a send of the
lanes that entered loses its guard. Every other line stays.
-/

namespace VertexLanes

/-- What becomes of one line with tracking when tracking is turned off. -/
inductive LineEdit where
  /-- The line stays as it is. -/
  | keep (line : String)
  /-- The line goes away. -/
  | delete (line : String)
  /-- Another line takes its place. -/
  | replace (line new : String)
deriving DecidableEq, Repr

namespace LineEdit

/-- The line with tracking. -/
def before : LineEdit → String
  | .keep line => line
  | .delete line => line
  | .replace line _ => line

/-- The line without tracking, if there is one. -/
def after : LineEdit → Option String
  | .keep line => some line
  | .delete _ => none
  | .replace _ new => some new

/-- The lines of one mode. -/
def written (tracking : Bool) (edit : LineEdit) : List String :=
  if tracking then [edit.before] else edit.after.toList

@[simp] theorem written_keep (tracking : Bool) (line : String) :
    (keep line).written tracking = [line] := by
  cases tracking <;> rfl

end LineEdit

/-- The edit of an update under a label. In the lanes that entered the body, the masked call with
their mask becomes the call without. -/
def updateEdit (ambient : String) (depth : Nat) (target : Target) (value : LaneExpr) :
    Label → LineEdit
  | .root =>
    .replace
      (indented depth
        (callText target.text (value.function ++ "_mask") (ambient :: value.operands)))
      (indented depth (callText target.text value.function value.operands))
  | .mask k =>
    .keep (indented depth
      (callText target.text (value.function ++ "_mask") ((Label.mask k).name :: value.operands)))

/-- The edits of a test: its mask is declared, then filled under the guard. -/
def Condition.edits (vectorType ambient : String) (depth : Nat) (c : Condition) : List LineEdit :=
  [.keep (indented depth (declarationText vectorType c.label)),
    updateEdit ambient depth (.mask c.label) c.test c.guard]

/-- The edits of a send under a label. The record of the mask goes away; in the lanes that entered
the body, so does the guard, and the call moves out of its braces. -/
def sendEdits (ambient : String) (depth : Nat) (vertex message : String) : Label → List LineEdit
  | .root =>
    [.delete (indented depth (guardText ambient)),
      .delete (indented (depth + 1) (recordText message ambient)),
      .replace (indented (depth + 1) (signalText vertex message))
        (indented depth (signalText vertex message)),
      .delete (indented depth closingText)]
  | .mask k =>
    [.keep (indented depth (guardText (Label.mask k).name)),
      .delete (indented (depth + 1) (recordText message (Label.mask k).name)),
      .keep (indented (depth + 1) (signalText vertex message)),
      .keep (indented depth closingText)]

mutual
/-- The edits of one statement. -/
def Stmt.edits (vectorType ambient : String) (depth : Nat) : Stmt → List LineEdit
  | .block ⟨_, stmts⟩ => editsOf vectorType ambient (depth + 1) stmts
  | .ifThen _ test ⟨_, stmts⟩ _ =>
    test.edits vectorType ambient depth ++ editsOf vectorType ambient (depth + 1) stmts
  | .ifElse _ test ⟨_, stmts⟩ otherwise ⟨_, others⟩ _ =>
    test.edits vectorType ambient depth ++ editsOf vectorType ambient (depth + 1) stmts ++
      otherwise.edits vectorType ambient depth ++ editsOf vectorType ambient (depth + 1) others
  | .assign label target value _ => [updateEdit ambient depth (.variable target) value label]
  | .declare _ tokens => [.keep (indented depth (String.intercalate " " tokens))]
  | .send label vertex message _ => sendEdits ambient depth vertex message label
  | .return _ expr => [.keep (indented depth (returnText expr))]
/-- The edits of statements in order. -/
def editsOf (vectorType ambient : String) (depth : Nat) : List Stmt → List LineEdit
  | [] => []
  | s :: ss => s.edits vectorType ambient depth ++ editsOf vectorType ambient depth ss
end

section
variable {p : Policy} {ambient : String}

/-- An update is written as its edit says, in either mode. -/
theorem written_updateEdit (h : p.tracking = true → p.ambient = ambient) (depth : Nat)
    (target : Target) (value : LaneExpr) (label : Label) :
    (updateEdit ambient depth target value label).written p.tracking =
      [indented depth (updateText p target value (p.mask label))] := by
  cases label with
  | root =>
    cases htrack : p.tracking with
    | false => simp [updateEdit, LineEdit.written, LineEdit.after, Policy.mask, htrack,
        updateText_none]
    | true => simp [updateEdit, LineEdit.written, LineEdit.before, Policy.mask, htrack,
        updateText_some, Policy.maskText, h htrack]
  | mask k =>
    rw [updateEdit, LineEdit.written_keep, Policy.mask, updateText_some]
    rfl

/-- A test is written as its edits say. -/
theorem written_conditionEdits (h : p.tracking = true → p.ambient = ambient) (depth : Nat)
    (c : Condition) :
    (c.edits p.vectorType ambient depth).flatMap (LineEdit.written p.tracking) =
      (textLines (c.lower p depth)).map (TextLine.text p) := by
  rw [Condition.edits, List.flatMap_cons, List.flatMap_cons, LineEdit.written_keep,
    written_updateEdit h]
  rfl

/-- A send is written as its edits say. -/
theorem written_sendEdits (h : p.tracking = true → p.ambient = ambient) (depth : Nat)
    (vertex message : String) (label : Label) :
    (sendEdits ambient depth vertex message label).flatMap (LineEdit.written p.tracking) =
      ((Instr.send vertex message (p.mask label) p.tracking).textLines depth).map
        (TextLine.text p) := by
  cases label with
  | root =>
    cases htrack : p.tracking with
    | false => simp [sendEdits, LineEdit.written, LineEdit.after, Policy.mask, htrack,
        Instr.textLines, TextLine.text, LineRole.text]
    | true => simp [sendEdits, LineEdit.written, LineEdit.before, Policy.mask, htrack,
        Instr.textLines, TextLine.text, LineRole.text, Policy.maskText, h htrack]
  | mask k =>
    cases htrack : p.tracking with
    | false => simp [sendEdits, LineEdit.written, LineEdit.after, Policy.mask, Instr.textLines,
        TextLine.text, LineRole.text, Policy.maskText]
    | true => simp [sendEdits, LineEdit.written, LineEdit.before, Policy.mask, Instr.textLines,
        TextLine.text, LineRole.text, Policy.maskText]

mutual
/-- A statement is written as its edits say. -/
theorem written_stmtEdits (h : p.tracking = true → p.ambient = ambient) :
    ∀ (s : Stmt) (depth : Nat),
      (s.edits p.vectorType ambient depth).flatMap (LineEdit.written p.tracking) =
        (textLines (s.lower p depth)).map (TextLine.text p)
  | .block ⟨_, stmts⟩, depth => written_editsOf h stmts (depth + 1)
  | .ifThen _ test ⟨_, stmts⟩ _, depth => by
    rw [Stmt.edits, Stmt.lower, List.flatMap_append, textLines_append, List.map_append,
      written_conditionEdits h, written_editsOf h stmts]
  | .ifElse _ test ⟨_, stmts⟩ otherwise ⟨_, others⟩ _, depth => by
    simp only [Stmt.edits, Stmt.lower, List.flatMap_append, textLines_append, List.map_append,
      written_conditionEdits h, written_editsOf h stmts, written_editsOf h others]
  | .assign label target value _, depth => by
    rw [Stmt.edits, List.flatMap_singleton, written_updateEdit h]
    rfl
  | .declare _ tokens, depth => by
    rw [Stmt.edits, List.flatMap_singleton, LineEdit.written_keep]
    rfl
  | .send label vertex message _, depth => by
    rw [Stmt.edits, written_sendEdits h, Stmt.lower, textLines_cons, textLines_nil,
      List.append_nil]
  | .return _ expr, depth => by
    rw [Stmt.edits, List.flatMap_singleton, LineEdit.written_keep]
    rfl
/-- Statements are written as their edits say. -/
theorem written_editsOf (h : p.tracking = true → p.ambient = ambient) :
    ∀ (stmts : List Stmt) (depth : Nat),
      (editsOf p.vectorType ambient depth stmts).flatMap (LineEdit.written p.tracking) =
        (textLines (lowerAll p depth stmts)).map (TextLine.text p)
  | [], _ => rfl
  | s :: ss, depth => by
    rw [editsOf, lowerAll, List.flatMap_append, textLines_append, List.map_append,
      written_stmtEdits h s, written_editsOf h ss]
end

end

/-- Tracking only adds bookkeeping. The lines of a body with tracking are those that its edits start
from, and the lines without tracking are those that they lead to, in the same order, whatever
expression is given for the mask of the entry. -/
theorem lowerBody_tracking_edits (vectorType ambient : String) (body : Scope Stmt) :
    render ⟨true, ambient, vectorType⟩ (lowerBody ⟨true, ambient, vectorType⟩ body) =
        (editsOf vectorType ambient 1 body.stmts).map LineEdit.before ∧
      ∀ other : String,
        render ⟨false, other, vectorType⟩ (lowerBody ⟨false, other, vectorType⟩ body) =
          (editsOf vectorType ambient 1 body.stmts).filterMap LineEdit.after := by
  constructor
  · have hon := written_editsOf (p := ⟨true, ambient, vectorType⟩) (fun _ => rfl) body.stmts 1
    rw [render_eq_map_text, lowerBody, ← hon, List.map_eq_flatMap]
    rfl
  · intro other
    have hoff : (editsOf vectorType ambient 1 body.stmts).flatMap (LineEdit.written false) = _ :=
      written_editsOf (p := ⟨false, other, vectorType⟩) (fun h => nomatch h) body.stmts 1
    rw [render_eq_map_text, lowerBody, ← hoff, List.filterMap_eq_flatMap_toList]
    rfl

/-- A conditional send keeps its guard without tracking, and a send at the entry loses it. -/
example :
    (editsOf "v" "t" 1
      [.ifThen .root ⟨.mask 1, .root, .pass "x", ⟨0, 0⟩⟩
        ⟨.mask 1, [.send (.mask 1) "a" "m" ⟨0, 0⟩]⟩ ⟨0, 0⟩,
        .send .root "b" "m" ⟨0, 0⟩]).filterMap LineEdit.after =
      ["  v<bool> mask_1;", "  mask_1.vec_op_set(x);", "    if (!mask_1.vec_all_zeros()) \x7b",
        "      context.signal(a, m);", "    \x7d", "  context.signal(b, m);"] := by
  decide +kernel

end VertexLanes
