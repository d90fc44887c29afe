import VertexLanes.Body.Stmt
import VertexLanes.Code.Instr

/-!
# Lowering annotated bodies

Conditionals become masks: each test fills the mask of its branch, both branches
run one after the other, and every update in them is confined to the branch's
mask. The mask of an else branch is the complement of the first one.
-/

namespace VertexLanes

/-- Declare the mask of a branch and fill it in the lanes of its guard. -/
def Condition.lower (p : Policy) (depth : Nat) (c : Condition) : List Line :=
  [⟨depth, .declareMask c.label⟩, ⟨depth, .update (.mask c.label) c.test (p.mask c.guard)⟩]

mutual
/-- The instructions of one statement. The statements of a block or branch are indented by one
more step. -/
def Stmt.lower (p : Policy) (depth : Nat) : Stmt → List Line
  | .block ⟨_, stmts⟩ => lowerAll p (depth + 1) stmts
  | .ifThen _ test ⟨_, stmts⟩ _ => test.lower p depth ++ lowerAll p (depth + 1) stmts
  | .ifElse _ test ⟨_, stmts⟩ otherwise ⟨_, others⟩ _ =>
    test.lower p depth ++ lowerAll p (depth + 1) stmts ++
      otherwise.lower p depth ++ lowerAll p (depth + 1) others
  | .assign label target value _ => [⟨depth, .update (.variable target) value (p.mask label)⟩]
  | .declare _ tokens => [⟨depth, .declare tokens⟩]
  | .send label vertex message _ => [⟨depth, .send vertex message (p.mask label) p.tracking⟩]
  | .return _ expr => [⟨depth, .return expr⟩]
/-- The instructions of statements in order. -/
def lowerAll (p : Policy) (depth : Nat) : List Stmt → List Line
  | [] => []
  | s :: ss => s.lower p depth ++ lowerAll p depth ss
end

/-- The instructions of a whole body. -/
def lowerBody (p : Policy) (body : Scope Stmt) : List Line := lowerAll p 1 body.stmts

end VertexLanes
