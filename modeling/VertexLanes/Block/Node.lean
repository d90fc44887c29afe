import VertexLanes.Source.Span

/-!
# Statement trees

The tree of a statement block before its statements are classified. A node keeps
the tokens it covers in whatever form the reader of the source provides them, so
the same tree type holds located lexemes and bare spellings. Nothing ties the
kind of a node to the number or kind of its children: that is checked by the
stage that uses the tree.
-/

namespace VertexLanes

/-- The kinds of statement a reader of source can tell apart. -/
inductive NodeKind where
  /-- A block of statements. -/
  | block
  /-- A conditional, with its test and its branches as children. -/
  | conditional
  /-- An expression with a binary operator or an assignment. -/
  | operation
  /-- A declaration of local names. -/
  | declaration
  /-- A call, with its arguments as children. -/
  | call
  /-- A return, with the returned expression, if any, as its child. -/
  | return
  /-- Anything else. -/
  | other
deriving DecidableEq, Repr, Inhabited

/-- Every kind of node. -/
def NodeKind.all : List NodeKind :=
  [.block, .conditional, .operation, .declaration, .call, .return, .other]

/-- How messages call a kind of node. -/
def NodeKind.name : NodeKind → String
  | .block => "compound statement"
  | .conditional => "if statement"
  | .operation => "binary operator"
  | .declaration => "declaration"
  | .call => "call"
  | .return => "return statement"
  | .other => "statement"

/-- A statement or expression with tokens of type `τ`. -/
structure Node (τ : Type) where
  /-- What the node is. -/
  kind : NodeKind
  /-- The name of what the node refers to, such as the callee of a call. -/
  spelling : String
  /-- The tokens the node covers. -/
  tokens : List τ
  /-- The statements and expressions directly inside. -/
  children : List (Node τ)
  /-- The range the node covers. -/
  span : Span
deriving Repr, BEq, Inhabited

namespace Node

variable {τ σ : Type}

mutual
/-- Change the tokens of a tree and nothing else. -/
def map (f : τ → σ) : Node τ → Node σ
  | ⟨kind, spelling, tokens, children, span⟩ =>
    ⟨kind, spelling, tokens.map f, mapList f children, span⟩
/-- Change the tokens of every tree in a list. -/
def mapList (f : τ → σ) : List (Node τ) → List (Node σ)
  | [] => []
  | n :: ns => n.map f :: mapList f ns
end

mutual
/-- The nodes of a tree, each before its children, with their depth. -/
def preorder (depth : Nat) : Node τ → List (Nat × Node τ)
  | ⟨kind, spelling, tokens, children, span⟩ =>
    (depth, ⟨kind, spelling, tokens, children, span⟩) :: preorderList (depth + 1) children
/-- The nodes of every tree in a list, in order. -/
def preorderList (depth : Nat) : List (Node τ) → List (Nat × Node τ)
  | [] => []
  | n :: ns => n.preorder depth ++ preorderList depth ns
end

end Node

end VertexLanes
