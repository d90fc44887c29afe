import Mathlib.Logic.Function.Basic
import VertexLanes.Body.Annotate
import VertexLanes.Proofs.VectorLines

/-!
# What a body means in one lane, and what its code does to all lanes

The meaning of a body is that of its statements, run one after the other on the
variables of a single lane. Its code runs once on every lane: a masked call writes
the lanes its mask selects, and the lines in the braces of a guard run once if the
mask of the guard selects any lane.

A lane has a single store, and the code finds everything in it by its text:
variables of the body, masks of branches, the mask of the entry and the masks that
messages carry. A variable with the name of a mask is that mask. The vector
library is known only by what its documented functions compute in a lane. Lines
that are neither calls nor masks have no meaning here, so code with one of them
does not run.
-/

namespace VertexLanes

/-- What operands and operators mean in a lane with values of type `V`. -/
structure LaneModel (V : Type) where
  /-- The value of an operand, given the store of the lane. -/
  operand : String → (String → V) → V
  /-- The value of an operator. -/
  operator : VectorOp → List V → V
  /-- Whether a value counts as true. -/
  truth : V → Bool
  /-- The lane of a mask as a value. -/
  ofMask : Bool → V
  /-- The name of a mask, as an operand, is what is stored under it. -/
  operand_mask : ∀ (k : Nat) (store : String → V),
    operand ("mask_" ++ toString k) store = store ("mask_" ++ toString k)
  /-- The lane of a mask counts as true if the mask selects it. -/
  truth_ofMask : ∀ b, truth (ofMask b) = b
  /-- The negation of a mask is true in the lanes that the mask does not select. -/
  truth_neg_ofMask : ∀ b, truth (operator .neg [ofMask b]) = !b

/-- A message as one lane sends it: the expressions for the vertex and the message, and their
values at that moment. -/
structure Sent (V : Type) where
  vertex : String
  message : String
  destination : V
  content : V
deriving DecidableEq, Repr

namespace LaneModel

variable {V : Type} (M : LaneModel V)

/-- The send of a message from a lane with the given store. -/
def sent (vertex message : String) (store : String → V) : Sent V :=
  ⟨vertex, message, M.operand vertex store, M.operand message store⟩

/-- The value of an operand does not depend on what is stored under the given texts. -/
def Ignores (names : List String) (text : String) : Prop :=
  ∀ s s' : String → V, (∀ name ∉ names, s name = s' name) → M.operand text s = M.operand text s'

end LaneModel

/-! ## Lanes of integers -/

/-- Operators on integers, where zero counts as false. -/
def intOperator : VectorOp → List Int → Int
  | .add, [x, y] => x + y
  | .sub, [x, y] => x - y
  | .mul, [x, y] => x * y
  | .div, [x, y] => x.tdiv y
  | .eq, [x, y] => if x = y then 1 else 0
  | .ne, [x, y] => if x = y then 0 else 1
  | .le, [x, y] => if x ≤ y then 1 else 0
  | .ge, [x, y] => if x ≥ y then 1 else 0
  | .lt, [x, y] => if x < y then 1 else 0
  | .gt, [x, y] => if x > y then 1 else 0
  | .andNot, [x, y] => if x ≠ 0 ∧ y = 0 then 1 else 0
  | .or, [x, y] => if x = 0 ∧ y = 0 then 0 else 1
  | .and, [x, y] => if x = 0 ∨ y = 0 then 0 else 1
  | .neg, [x] => if x = 0 then 1 else 0
  | _, _ => 0

/-- An operand of integer lanes: a number in digits, or else what is stored under its text. -/
def intOperand (text : String) (store : String → Int) : Int :=
  if text.toList.all Char.isDigit then (Nat.ofDigitChars 10 text.toList 0 : Nat) else store text

/-- The name of a mask is no number. -/
theorem intOperand_mask (k : Nat) (store : String → Int) :
    intOperand ("mask_" ++ toString k) store = store ("mask_" ++ toString k) := by
  have happend : ∀ s : String, ("mask_" ++ s).toList.all Char.isDigit = false := by
    intro s
    rw [String.toList_append, List.all_append]
    rfl
  rw [intOperand, happend]
  rfl

/-- A mask of integers counts as true if it is set. -/
theorem intMask_truth (b : Bool) : ((if b then 1 else 0 : Int) != 0) = b := by
  cases b <;> rfl

/-- The negation of a mask of integers is set where the mask is not. -/
theorem intOperator_neg (b : Bool) :
    (intOperator .neg [if b then 1 else 0] != 0) = !b := by
  cases b <;> rfl

/-- Lanes of integers. -/
def intLanes : LaneModel Int where
  operand := intOperand
  operator := intOperator
  truth v := v != 0
  ofMask b := if b then 1 else 0
  operand_mask := intOperand_mask
  truth_ofMask := intMask_truth
  truth_neg_ofMask := intOperator_neg

/-- An operand of integer lanes depends on nothing but its own text. -/
theorem intLanes_ignores {names : List String} {text : String} (h : text ∉ names) :
    intLanes.Ignores names text := by
  intro s s' hs
  change intOperand text s = intOperand text s'
  rw [intOperand, intOperand, hs text h]

/-! ## One lane -/

/-- A scalar run: the variables, and the messages sent so far. -/
structure Thread (V : Type) where
  vars : String → V
  sent : List (Sent V)

section
variable {V : Type} (M : LaneModel V)

/-- The value of an expression in a scalar run, which has no masks to take a complement of. -/
def LaneModel.scalarValue (vars : String → V) : LaneExpr → Option V
  | .pass text => some (M.operand text vars)
  | .unary op operand => some (M.operator op [M.operand operand vars])
  | .binary op lhs rhs => some (M.operator op [M.operand lhs vars, M.operand rhs vars])
  | .complement _ => none

mutual
/-- Run one statement in a single lane. -/
def Stmt.run : Stmt → Thread V → Option (Thread V)
  | .block ⟨_, stmts⟩, t => runAll stmts t
  | .ifThen _ test ⟨_, stmts⟩ _, t =>
    (M.scalarValue t.vars test.test).bind fun v =>
      if M.truth v then runAll stmts t else some t
  | .ifElse _ test ⟨_, stmts⟩ _ ⟨_, others⟩ _, t =>
    (M.scalarValue t.vars test.test).bind fun v =>
      if M.truth v then runAll stmts t else runAll others t
  | .assign _ target value _, t =>
    (M.scalarValue t.vars value).map fun v =>
      { t with vars := Function.update t.vars target v }
  | .send _ vertex message _, t =>
    some { t with sent := t.sent ++ [M.sent vertex message t.vars] }
  | .declare _ _, _ => none
  | .return _ _, _ => none
/-- Run statements in order in a single lane. -/
def runAll : List Stmt → Thread V → Option (Thread V)
  | [], t => some t
  | s :: ss, t => (s.run t).bind (runAll ss)
end

end

/-! ## All lanes -/

/-- A message as the vector code sends it: the mask it carries, and what each lane sends by it. -/
structure Signal (n : Nat) (V : Type) where
  track : Fin n → Bool
  sent : Fin n → Sent V

/-- The state of vector code on `n` lanes. -/
structure Machine (n : Nat) (V : Type) where
  /-- What each lane holds under each text. -/
  stores : Fin n → String → V
  /-- The texts that are declared as masks. They hold nothing but the lanes of masks. -/
  masks : List String
  /-- How many of the guards that are open were opened since one selected no lane. -/
  skipped : Nat
  /-- The messages sent so far. -/
  signals : List (Signal n V)

/-- The text of the mask that a message carries. -/
def trackText (message : String) : String := message ++ ".track"

/-- The operator that a function of the library applies, by its documented name. -/
def libraryOp? (function : String) : Option VectorOp :=
  VectorOp.all.find? fun op => op.libraryName == function

/-- The name of a function without the ending of masked names, if it has that ending. -/
def plainName? (function : String) : Option String :=
  if unmasked function ++ "_mask" = function then some (unmasked function) else none

/-- What a function of the library computes from operands, given the store of a lane. -/
def LaneModel.result? {V : Type} (M : LaneModel V) (function : String) (operands : List String) :
    Option ((String → V) → V) :=
  match function, operands with
  | "vec_op_set", [text] => some (M.operand text)
  | function, operands => (libraryOp? function).map fun op store =>
      M.operator op (operands.map fun text => M.operand text store)

namespace Machine

variable {n : Nat} {V : Type} (M : LaneModel V)

/-- Lanes with the given stores, before any code has run. -/
def start (stores : Fin n → String → V) : Machine n V := ⟨stores, [], 0, []⟩

/-- A declared mask selects no lane. -/
def declare (m : Machine n V) (name : String) : Machine n V :=
  { m with
    stores := fun i => Function.update (m.stores i) name (M.ofMask false)
    masks := name :: m.masks }

/-- A value as it is stored under a text. -/
def fitted (m : Machine n V) (target : String) (v : V) : V :=
  if target ∈ m.masks then M.ofMask (M.truth v) else v

/-- Write what is computed from the store of a lane to a target, in the selected lanes. -/
def write (m : Machine n V) (selected : Fin n → Bool) (target : String)
    (value : (String → V) → V) : Machine n V :=
  { m with
    stores := fun i =>
      if selected i then
        Function.update (m.stores i) target (m.fitted M target (value (m.stores i)))
      else m.stores i }

/-- Call a function of the library on a target. The first argument of a masked function is the
mask; any other function writes every lane. -/
def call (m : Machine n V) (target function : String) (arguments : List String) :
    Option (Machine n V) :=
  match plainName? function, arguments with
  | some plain, mask :: operands =>
    (M.result? plain operands).map (m.write M (fun i => M.truth (m.stores i mask)) target)
  | some _, [] => none
  | none, operands => (M.result? function operands).map (m.write M (fun _ => true) target)

/-- Let a message carry a mask. -/
def record (m : Machine n V) (message mask : String) : Machine n V :=
  { m with
    stores := fun i => Function.update (m.stores i) (trackText message)
      (M.ofMask (M.truth (m.stores i mask))) }

/-- Send a message, with the mask that it carries. -/
def signal (m : Machine n V) (vertex message : String) : Machine n V :=
  { m with
    signals := m.signals ++
      [⟨fun i => M.truth (m.stores i (trackText message)),
        fun i => M.sent vertex message (m.stores i)⟩] }

/-- Run one line on all lanes. Of the lines behind a guard that selects no lane, only braces
matter. -/
def step (m : Machine n V) (line : VectorLine) : Option (Machine n V) :=
  match m.skipped, line with
  | 0, .declare _ name => some (m.declare M name)
  | 0, .call target function arguments => m.call M target function arguments
  | 0, .openGuard mask =>
    some { m with skipped := if ∃ i, M.truth (m.stores i mask) = true then 0 else 1 }
  | 0, .record message mask => some (m.record M message mask)
  | 0, .signal vertex message => some (m.signal M vertex message)
  | 0, .closeGuard => some m
  | 0, .other _ => none
  | k + 1, .openGuard _ => some { m with skipped := k + 2 }
  | k + 1, .closeGuard => some { m with skipped := k }
  | _ + 1, _ => some m

/-- Run lines on all lanes. -/
def run (m : Machine n V) (code : List VectorLine) : Option (Machine n V) :=
  code.foldlM (fun m line => m.step M line) m

/-- What is sent for a lane. -/
def sentFor (m : Machine n V) (i : Fin n) : List (Sent V) :=
  (m.signals.filter fun s => s.track i).map fun s => s.sent i

/-- Code after code runs from where the first one ends. -/
theorem run_append (m : Machine n V) (code rest : List VectorLine) :
    m.run M (code ++ rest) = (m.run M code).bind fun m' => m'.run M rest := by
  rw [run, List.foldlM_append]
  rfl

/-- A line runs before the lines after it. -/
theorem run_cons (m : Machine n V) (line : VectorLine) (code : List VectorLine) :
    m.run M (line :: code) = (m.step M line).bind fun m' => m'.run M code := rfl

end Machine

/-! ## Names of a body -/

/-- How a body uses a text. -/
inductive TextUse where
  /-- As an operand, or as the vertex or the message of a send. -/
  | reads (text : String)
  /-- As the target of an assignment. -/
  | assigns (text : String)
  /-- As a message that is sent. -/
  | sends (message : String)
deriving DecidableEq, Repr

/-- The text of the mask that a message carries, if the use is the send of a message. -/
def TextUse.track? : TextUse → Option String
  | .sends message => some (trackText message)
  | _ => none

mutual
/-- The uses of texts in a statement. The mask of which a second test is the complement is not
named by the body. -/
def Stmt.uses : Stmt → List TextUse
  | .block ⟨_, stmts⟩ => usesOf stmts
  | .ifThen _ test ⟨_, stmts⟩ _ => test.test.operands.map .reads ++ usesOf stmts
  | .ifElse _ test ⟨_, stmts⟩ _ ⟨_, others⟩ _ =>
    test.test.operands.map .reads ++ (usesOf stmts ++ usesOf others)
  | .assign _ target value _ => .assigns target :: value.operands.map .reads
  | .send _ vertex message _ => [.reads vertex, .reads message, .sends message]
  | .declare _ _ => []
  | .return _ _ => []
/-- The uses of texts in statements. -/
def usesOf : List Stmt → List TextUse
  | [] => []
  | s :: ss => s.uses ++ usesOf ss
end

/-- The names of the first masks that are handed out. -/
def maskNames (count : Nat) : List String :=
  (List.range' 1 count).map fun k => "mask_" ++ toString k

namespace Annotated

variable (a : Annotated)

/-- The names of the masks of a body. -/
def maskNames : List String := VertexLanes.maskNames a.masks

/-- The texts of the masks that the messages of a body carry. -/
def trackNames : List String := (usesOf a.root.stmts).filterMap TextUse.track?

/-- The names that lowering adds to a body are none that the body means otherwise. -/
structure Apart {V : Type} (M : LaneModel V) (p : Policy) : Prop where
  /-- No operand depends on a mask of the body or on a mask that a message carries. -/
  reads : ∀ text, .reads text ∈ usesOf a.root.stmts → M.Ignores (a.maskNames ++ a.trackNames) text
  /-- No assignment is to a mask of the body or to the mask of the entry. -/
  assigns : ∀ text, .assigns text ∈ usesOf a.root.stmts →
    text ∉ a.maskNames ∧ (p.tracking = true → text ≠ p.ambient)
  /-- The mask of the entry is no mask of the body. -/
  ambient : p.tracking = true → p.ambient ∉ a.maskNames

end Annotated

end VertexLanes
