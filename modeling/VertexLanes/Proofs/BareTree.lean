import VertexLanes.Block.Shape

/-!
# Trees without places

A tree of located tokens has a bare tree, with its kinds, spellings and lexemes
and without any place. What a simple statement is read as is decided by its
lexemes alone, so token lists with the same lexemes have the same bare tree.
-/

namespace VertexLanes

mutual
/-- A tree without the places of its nodes and tokens. -/
def Node.bare : Node Token → Node Lexeme
  | ⟨kind, spelling, tokens, children, _⟩ =>
    ⟨kind, spelling, tokens.map Located.item, bareList children, Span.nowhere⟩
/-- Trees without the places of their nodes and tokens. -/
def bareList : List (Node Token) → List (Node Lexeme)
  | [] => []
  | n :: ns => n.bare :: bareList ns
end

theorem bareList_eq_map (ns : List (Node Token)) : bareList ns = ns.map Node.bare := by
  induction ns with
  | nil => rfl
  | cons n ns ih => rw [bareList, ih, List.map_cons]

/-- A token that stands nowhere. -/
def Token.unplaced (t : Token) : Token := ⟨t.item, Span.nowhere⟩

/-- Tokens without their places have the same lexemes. -/
theorem map_item_unplaced (ts : List Token) :
    (ts.map Token.unplaced).map Located.item = ts.map Located.item := by
  rw [List.map_map]
  rfl

/-- Tokens of the same lexemes are the same without their places. -/
theorem map_unplaced_eq {ts us : List Token} (h : ts.map Located.item = us.map Located.item) :
    ts.map Token.unplaced = us.map Token.unplaced := by
  have hmap := congrArg (List.map fun l => (⟨l, Span.nowhere⟩ : Token)) h
  rwa [List.map_map, List.map_map] at hmap

namespace Nesting

variable {τ σ : Type}

/-- Depths do not depend on what the tokens are made of. -/
theorem mark_map (f : τ → σ) (side : σ → Side) (depth : Int) (ts : List τ) :
    mark side depth (ts.map f) =
      (mark (fun t => side (f t)) depth ts).map fun marked => (f marked.1, marked.2) := by
  induction ts generalizing depth with
  | nil => rfl
  | cons t ts ih =>
    rw [List.map_cons, mark, mark]
    cases side (f t) with
    | opening => simp only [ih, List.map_cons]
    | closing => simp only [ih, List.map_cons]
    | plain => simp only [ih, List.map_cons]

/-- Splitting does not depend on what the tokens are made of. -/
theorem split_map (f : τ → σ) (side : σ → Side) (p : σ → Bool) (depth : Int) (ts : List τ) :
    split side p depth (ts.map f) =
      (split (fun t => side (f t)) (fun t => p (f t)) depth ts).map (List.map f) := by
  induction ts generalizing depth with
  | nil => rfl
  | cons t ts ih =>
    rw [List.map_cons, split, split]
    cases side (f t) with
    | opening =>
      simp only [ih]
      cases split (fun t => side (f t)) (fun t => p (f t)) (depth + 1) ts <;> rfl
    | closing =>
      simp only [ih]
      cases split (fun t => side (f t)) (fun t => p (f t)) (depth - 1) ts <;> rfl
    | plain =>
      simp only [ih]
      cases depth == 0 && p (f t) with
      | true => rfl
      | false => cases split (fun t => side (f t)) (fun t => p (f t)) depth ts <;> rfl

end Nesting

namespace Shape

/-- Whether a group closes at its end does not depend on places. -/
theorem closesAtEnd_map (depth : Int) (ts : List Token) :
    closesAtEnd depth (ts.map Token.unplaced) = closesAtEnd depth ts := by
  induction ts generalizing depth with
  | nil => rfl
  | cons t ts ih =>
    rw [List.map_cons, closesAtEnd, closesAtEnd, ih, List.isEmpty_map]
    rfl

theorem assigns_map (ts : List Token) : assigns (ts.map Token.unplaced) = assigns ts := by
  rw [assigns, Nesting.mark_map, List.any_map]
  rfl

theorem declares_map (ts : List Token) : declares (ts.map Token.unplaced) = declares ts := by
  rw [declares, map_item_unplaced, declares]

/-- An expression is the same without places. -/
theorem bare_expression_map (ts : List Token) :
    (expression (ts.map Token.unplaced)).bare = (expression ts).bare := by
  simp only [expression, Nesting.mark_map, ← List.map_tail, List.any_map, Node.ofTokens, Node.bare,
    map_item_unplaced]
  rfl

theorem joinTight_map (ts : List Token) : joinTight (ts.map Token.unplaced) = joinTight ts := by
  rw [joinTight, List.map_map]
  rfl

/-- Arguments are split alike without places. -/
theorem splitCommas_map (ts : List Token) :
    splitCommas (ts.map Token.unplaced) = (splitCommas ts).map (List.map Token.unplaced) := by
  rw [splitCommas, splitCommas, List.isEmpty_map]
  split
  · rfl
  · exact Nesting.split_map _ _ _ _ _

/-- Arguments are the same without places. -/
theorem bareList_arguments_map (arguments : List (List Token)) :
    bareList ((arguments.map (List.map Token.unplaced)).map expression) =
      bareList (arguments.map expression) := by
  rw [bareList_eq_map, bareList_eq_map, List.map_map, List.map_map, List.map_map]
  exact List.map_congr_left fun ts _ => bare_expression_map ts

/-- A call is the same without places. -/
theorem bare_call?_map (ts : List Token) :
    (call? (ts.map Token.unplaced)).map Node.bare = (call? ts).map Node.bare := by
  have hcallee : ((ts.map Token.unplaced).takeWhile fun t => !t.is .lparen) =
      (ts.takeWhile fun t => !t.is .lparen).map Token.unplaced := List.takeWhile_map ..
  have hgroup : ((ts.map Token.unplaced).dropWhile fun t => !t.is .lparen) =
      (ts.dropWhile fun t => !t.is .lparen).map Token.unplaced := List.dropWhile_map ..
  have hlast : (ts.map Token.unplaced).getLast?.any (Token.is .rparen) =
      ts.getLast?.any (Token.is .rparen) := by
    rw [List.getLast?_map]
    cases ts.getLast? <;> rfl
  have hname : ((ts.takeWhile fun t => !t.is .lparen).map Token.unplaced).all
        (fun t => inQualifiedName t.item) =
      (ts.takeWhile fun t => !t.is .lparen).all fun t => inQualifiedName t.item := by
    rw [List.all_map]
    rfl
  unfold call?
  simp only [hcallee, hgroup, hlast, hname, List.isEmpty_map, closesAtEnd_map, joinTight_map,
    ← List.map_tail, ← List.map_dropLast, splitCommas_map]
  split
  · simp only [Option.map_some, Node.bare, map_item_unplaced, bareList_arguments_map]
    -- only a send with two arguments is named by them
    generalize splitCommas (ts.dropWhile fun t => !t.is .lparen).tail.dropLast = arguments
    generalize joinTight (ts.takeWhile fun t => !t.is .lparen) = name
    cases name == "context.signal" with
    | false => rfl
    | true =>
      rcases arguments with _ | ⟨vertex, _ | ⟨message, _ | ⟨third, others⟩⟩⟩
      · rfl
      · rfl
      · have hv : joinTight (expression (vertex.map Token.unplaced)).tokens = joinTight vertex :=
          joinTight_map vertex
        have hm : joinTight (expression (message.map Token.unplaced)).tokens = joinTight message :=
          joinTight_map message
        simp only [List.map_cons, List.map_nil, hv, hm]
        rfl
      · rfl
  · rfl

/-- The bare tree of a simple statement does not depend on where its tokens stand. -/
theorem bare_statement_map (ts : List Token) (semicolon : Option Token) :
    (statement (ts.map Token.unplaced) (semicolon.map Token.unplaced)).bare =
      (statement ts semicolon).bare := by
  have hcall := bare_call?_map ts
  unfold statement
  rw [declares_map, assigns_map]
  split
  · cases semicolon <;> simp [Node.ofTokens, Node.bare, Token.unplaced]
  · split
    · simp only [Node.ofTokens, Node.bare, map_item_unplaced]
    · cases hc : call? ts with
      | none =>
        rw [hc, Option.map_none, Option.map_eq_none_iff] at hcall
        rw [hcall]
        exact bare_expression_map ts
      | some n =>
        rw [hc] at hcall
        obtain ⟨m, hm, hbare⟩ := Option.map_eq_some_iff.mp hcall
        rw [hm]
        exact hbare

/-- Tokens with the same lexemes make the same expression. -/
theorem bare_expression_congr {ts us : List Token}
    (h : ts.map Located.item = us.map Located.item) :
    (expression ts).bare = (expression us).bare := by
  rw [← bare_expression_map, map_unplaced_eq h, bare_expression_map]

/-- Tokens with the same lexemes make the same statement. -/
theorem bare_statement_congr {ts us : List Token} {semicolon other : Option Token}
    (h : ts.map Located.item = us.map Located.item)
    (hs : semicolon.map Located.item = other.map Located.item) :
    (statement ts semicolon).bare = (statement us other).bare := by
  have hplace : semicolon.map Token.unplaced = other.map Token.unplaced := by
    have hmap := congrArg (Option.map fun l => (⟨l, Span.nowhere⟩ : Token)) hs
    rwa [Option.map_map, Option.map_map] at hmap
  rw [← bare_statement_map, map_unplaced_eq h, hplace, bare_statement_map]

end Shape

end VertexLanes
