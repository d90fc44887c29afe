import VertexLanes.Block.Parser
import VertexLanes.Class.Basic

/-!
# Parsing class members

A member is read up to the first token that settles what it is: a parenthesis
makes it a method, anything else a data member. The name is then found at the
end of what was read.
-/

namespace VertexLanes

namespace Cursor

/-- The longest run of tokens ahead whose lexemes satisfy `p`. -/
def run (p : Lexeme → Bool) (c : Cursor) : List Token := c.rest.takeWhile fun t => p t.item

/-- Step over the longest run of tokens whose lexemes satisfy `p`. -/
def afterRun (p : Lexeme → Bool) (c : Cursor) : Cursor :=
  { c with
    rest := c.rest.dropWhile fun t => p t.item
    last := ((c.run p).getLast?.map Located.span).or c.last }

/-- The tokens of a run and those after it are the tokens there were. -/
theorem size_afterRun (p : Lexeme → Bool) (c : Cursor) :
    (c.run p).length + (c.afterRun p).size = c.size := by
  simp only [run, afterRun, size, ← List.length_append, List.takeWhile_append_dropWhile]

/-- Stepping over a run never moves back. -/
theorem size_afterRun_le (p : Lexeme → Bool) (c : Cursor) : (c.afterRun p).size ≤ c.size :=
  Nat.le_trans (Nat.le_add_left _ _) (Nat.le_of_eq (size_afterRun p c))

/-- Skip one item that is not modelled: up to a semicolon, or over a braced body. -/
def skipItem (c : Cursor) : Parsed Unit :=
  match _h : c.rest with
  | [] => ⟨(), [], c⟩
  | t :: _ =>
    if t.is .semicolon then ⟨(), [], c.advance⟩
    else if t.is .lbrace then ⟨(), c.group.faults, c.group.next.skip .semicolon⟩
    else
      match t.side with
      | .opening =>
        let r := skipItem c.group.next
        ⟨(), c.group.faults ++ r.faults, r.next⟩
      | .closing => ⟨(), [c.fault (.unexpected t.item)], c.advance⟩
      | .plain => skipItem c.advance
termination_by c.size
decreasing_by
  · exact size_group_lt (rest_ne_nil_of_eq _h)
  · exact Nat.lt_of_succ_le (Nat.le_of_eq (size_advance (rest_ne_nil_of_eq _h)))

/-- Skipping an item never moves back. -/
theorem size_skipItem_le (c : Cursor) : c.skipItem.next.size ≤ c.size := by
  fun_induction skipItem c with
  | case1 => exact Nat.le_refl _
  | case2 => exact size_advance_le _
  | case3 c => exact Nat.le_trans (size_skip_le _ _) c.size_group_le
  | case4 c t ts h _ _ _ r ih => exact Nat.le_trans ih c.size_group_le
  | case5 => exact size_advance_le _
  | case6 c t ts h _ _ _ ih => exact Nat.le_trans ih c.size_advance_le

/-- Skipping an item moves on unless the source ends. -/
theorem size_skipItem_lt {c : Cursor} (h : c.rest ≠ []) : c.skipItem.next.size < c.size := by
  have hadv := size_advance h
  have hg := size_group_lt h
  unfold skipItem
  split
  · next hr => exact absurd hr h
  · split
    · show c.advance.size < c.size
      omega
    · split
      · exact Nat.lt_of_le_of_lt (size_skip_le _ _) hg
      · split
        · exact Nat.lt_of_le_of_lt (size_skipItem_le _) hg
        · show c.advance.size < c.size
          omega
        · have := size_skipItem_le c.advance
          omega

/-- Skip the initialisers of a constructor, up to its body. A brace directly after a name belongs
to an initialiser. -/
def skipInitializers (afterName : Bool) (c : Cursor) : Parsed Unit :=
  match _h : c.rest with
  | [] => ⟨(), [], c⟩
  | t :: _ =>
    if t.is .lparen || (t.is .lbrace && afterName) then
      let r := skipInitializers false c.group.next
      ⟨(), c.group.faults ++ r.faults, r.next⟩
    else if t.is .lbrace then ⟨(), [], c⟩
    else skipInitializers t.item.isName c.advance
termination_by c.size
decreasing_by
  · exact size_group_lt (rest_ne_nil_of_eq _h)
  · exact Nat.lt_of_succ_le (Nat.le_of_eq (size_advance (rest_ne_nil_of_eq _h)))

/-- Skipping initialisers never moves back. -/
theorem size_skipInitializers_le (afterName : Bool) (c : Cursor) :
    (c.skipInitializers afterName).next.size ≤ c.size := by
  fun_induction skipInitializers afterName c with
  | case1 => exact Nat.le_refl _
  | case2 afterName c t ts h _ r ih => exact Nat.le_trans ih c.size_group_le
  | case3 => exact Nat.le_refl _
  | case4 afterName c t ts h _ _ ih => exact Nat.le_trans ih c.size_advance_le

end Cursor

namespace Parser

/-- A parameter: its default after the first outside `=`, its name last, its type before that. -/
def param? (tokens : List Token) : Option Field :=
  if tokens.isEmpty then none
  else
    let (decl, value) :=
      match Nesting.cut? Token.side (Token.is .eq) 0 tokens with
      | some (before, _, after) => (before, some (joinTight after))
      | none => (tokens, none)
    match decl.getLast? with
    | some last =>
      if 2 ≤ decl.length && last.item.isName then
        some ⟨last.spelling, joinType decl.dropLast, value⟩
      else some ⟨"", joinType decl, value⟩
    | none => some ⟨"", joinType decl, value⟩

/-- The words in front of a method that are no part of its result type. -/
def specifiers : List String := ["explicit", "virtual", "inline", "static", "constexpr"]

/-- Cut the head of a method before its name. An operator's name begins at the word `operator`,
a destructor's at its tilde. -/
def cutHead (head : List Token) : List Token × List Token :=
  let isOperator (t : Token) := t.item == .keyword .operatorKw
  if head.any isOperator then
    (head.takeWhile (!isOperator ·), head.dropWhile (!isOperator ·))
  else
    let width := if head.dropLast.getLast?.any (Token.is .tilde) then 2 else 1
    (head.take (head.length - width), head.drop (head.length - width))

/-- The lexemes at which the head of a member ends. -/
def endsHead (lexeme : Lexeme) : Bool :=
  [Lexeme.symbol .lparen, .symbol .semicolon, .symbol .eq, .symbol .lbrace,
    .symbol .rbrace].contains lexeme

/-- Whether a lexeme belongs to a head that is not an operator's. -/
def inHead (lexeme : Lexeme) : Bool := !endsHead lexeme && lexeme != .keyword .operatorKw

/-- The parentheses in the name of the call operator, where they are next. -/
def callMark (c : Cursor) : List Token × Cursor :=
  match c.rest with
  | t :: u :: _ =>
    if t.is .lparen && u.is .rparen then ([t, u], c.advance.advance) else ([], c)
  | _ => ([], c)

/-- Reading the mark of the call operator never moves back. -/
theorem size_callMark_le (c : Cursor) : (callMark c).2.size ≤ c.size := by
  unfold callMark
  split
  · split
    · exact Nat.le_trans (Cursor.size_advance_le _) c.size_advance_le
    · exact Nat.le_refl _
  · exact Nat.le_refl _

/-- The head of a member, up to what settles its kind. An operator's name goes on up to its
parameters. -/
def memberHead (c : Cursor) : List Token × Cursor :=
  let plain := c.run inHead
  let after := c.afterRun inHead
  match after.rest with
  | t :: _ =>
    if t.item == .keyword .operatorKw then
      let mark := callMark after.advance
      (plain ++ t :: (mark.1 ++ mark.2.run (· != .symbol .lparen)),
        mark.2.afterRun (· != .symbol .lparen))
    else (plain, after)
  | [] => (plain, after)

/-- Reading the head of a member never moves back, and moves on if the head is not empty. -/
theorem size_memberHead (c : Cursor) :
    (memberHead c).2.size ≤ c.size ∧ ((memberHead c).1 ≠ [] → (memberHead c).2.size < c.size) := by
  have hrun := Cursor.size_afterRun inHead c
  have hplain : (c.run inHead) ≠ [] → (c.afterRun inHead).size < c.size := fun h => by
    have := List.length_pos_iff.mpr h
    omega
  unfold memberHead
  simp only
  split
  · next t ts hr =>
    split
    · have hadv := Cursor.size_advance (Cursor.rest_ne_nil_of_eq hr)
      have hmark := size_callMark_le (c.afterRun inHead).advance
      have hname := Cursor.size_afterRun_le (· != .symbol .lparen)
        (callMark (c.afterRun inHead).advance).2
      have hlt : _ < c.size := Nat.lt_of_le_of_lt (Nat.le_trans hname hmark) (by omega)
      exact ⟨Nat.le_of_lt hlt, fun _ => hlt⟩
    · exact ⟨Cursor.size_afterRun_le inHead c, hplain⟩
  · exact ⟨Cursor.size_afterRun_le inHead c, hplain⟩

/-- Step over the initialisers of a constructor if there are any. -/
def initializers (c : Cursor) : Parsed Unit :=
  if c.at? .colon then c.advance.skipInitializers false else ⟨(), [], c⟩

/-- Stepping over initialisers never moves back. -/
theorem size_initializers_le (c : Cursor) : (initializers c).next.size ≤ c.size := by
  unfold initializers
  split
  · exact Nat.le_trans (Cursor.size_skipInitializers_le _ _) c.size_advance_le
  · exact Nat.le_refl _

/-- A body, a semicolon, or a definition by `=`: what follows the parameters and qualifiers. -/
def methodEnd (c : Cursor) : Parsed (Option (Node Token)) :=
  if c.at? .eq then
    let r := c.advance.untilSemicolon
    let e := r.next.expect .semicolon
    ⟨none, r.faults ++ e.faults, e.next⟩
  else
    let i := initializers c
    if i.next.at? .lbrace then
      let r := (block 0 i.next.here i.next.advance).val
      ⟨some r.value, i.faults ++ r.faults, r.next⟩
    else
      let e := i.next.expect .semicolon
      ⟨none, i.faults ++ e.faults, e.next⟩

/-- Reading the end of a method never moves back. -/
theorem size_methodEnd_le (c : Cursor) : (methodEnd c).next.size ≤ c.size := by
  unfold methodEnd
  split
  · exact Nat.le_trans (Cursor.size_expect_le _ _)
      (Nat.le_trans (Cursor.size_untilSemicolon_le _) c.size_advance_le)
  · simp only
    split
    · exact Nat.le_trans (block 0 _ _).property
        (Nat.le_trans (Cursor.size_advance_le _) (size_initializers_le c))
    · exact Nat.le_trans (Cursor.size_expect_le _ _) (size_initializers_le c)

/-- Whether a lexeme belongs to the qualifiers of a method. -/
def inQualifiers (lexeme : Lexeme) : Bool :=
  !([Lexeme.symbol .lbrace, .symbol .semicolon, .symbol .colon, .symbol .eq].contains lexeme)

/-- A method from its parameters on, given its head. -/
def method (head : List Token) (start : Span) (c : Cursor) : Parsed Method :=
  let g := c.group
  let e := methodEnd (g.next.afterRun inQualifiers)
  let (result, name) := cutHead head
  ⟨{ name := joinTight name
     result := joinType (result.filter fun t => !specifiers.contains t.spelling)
     params := (splitCommas g.value.tail.dropLast).filterMap param?
     qualifiers := (g.next.run inQualifiers).map Token.spelling
     body := e.value
     span := start.merge e.next.before },
    g.faults ++ e.faults, e.next⟩

/-- Reading a method never moves back. -/
theorem size_method_le (head : List Token) (start : Span) (c : Cursor) :
    (method head start c).next.size ≤ c.size :=
  Nat.le_trans (size_methodEnd_le _)
    (Nat.le_trans (Cursor.size_afterRun_le inQualifiers _) c.size_group_le)

/-- The default value of a data member, and what else stands before its semicolon. -/
def fieldValue (c : Cursor) : Parsed (Option String) :=
  if c.at? .eq then
    let r := c.advance.untilSemicolon
    ⟨some (((splitCommas r.value).head?.map joinTight).getD ""), r.faults, r.next⟩
  else if c.at? .lbrace then
    let g := c.group
    let r := g.next.untilSemicolon
    let value := if 2 < g.value.length then some (joinTight g.value.tail.dropLast) else none
    ⟨value, g.faults ++ r.faults, r.next⟩
  else c.untilSemicolon.map fun _ => none

/-- Reading a default value never moves back. -/
theorem size_fieldValue_le (c : Cursor) : (fieldValue c).next.size ≤ c.size := by
  unfold fieldValue
  split
  · exact Nat.le_trans (Cursor.size_untilSemicolon_le _) c.size_advance_le
  · split
    · exact Nat.le_trans (Cursor.size_untilSemicolon_le _) c.size_group_le
    · exact Cursor.size_untilSemicolon_le _

/-- The last name of a head, and the tokens before it. -/
def lastName? (head : List Token) : Option (List Token × String) :=
  match head.reverse.dropWhile fun t => !t.item.isName with
  | [] => none
  | t :: before => some (before.reverse, t.spelling)

/-- A data member from its default value on, given its head. -/
def dataMember (head : List Token) (start : Span) (c : Cursor) : Parsed (Option (Located Field)) :=
  let v := fieldValue c
  let e := v.next.expect .semicolon
  let span := start.merge e.next.before
  match lastName? head with
  | some (type, name) =>
    ⟨some ⟨⟨name, joinType type, v.value⟩, span⟩, v.faults ++ e.faults, e.next⟩
  | none => ⟨none, v.faults ++ e.faults ++ [⟨.memberUnnamed, span⟩], e.next⟩

/-- Reading a data member never moves back. -/
theorem size_dataMember_le (head : List Token) (start : Span) (c : Cursor) :
    (dataMember head start c).next.size ≤ c.size := by
  have h := Nat.le_trans (Cursor.size_expect_le .semicolon _) (size_fieldValue_le c)
  unfold dataMember
  simp only
  split <;> exact h

/-- A member of a class. -/
inductive Member where
  | data (field : Located Field)
  | function (method : Method)

/-- One member. -/
def member (c : Cursor) : Parsed (Option Member) :=
  let head := (memberHead c).1
  let after := (memberHead c).2
  if head.isEmpty then
    ⟨none, after.fault (.memberExpected after.peek) :: after.skipItem.faults, after.skipItem.next⟩
  else if after.at? .lparen then (method head c.here after).map fun m => some (.function m)
  else (dataMember head c.here after).map (Option.map Member.data)

/-- Reading a member moves on unless the source ends. -/
theorem size_member_lt {c : Cursor} (h : c.rest ≠ []) : (member c).next.size < c.size := by
  obtain ⟨hle, hlt⟩ := size_memberHead c
  unfold member
  simp only
  split
  · by_cases hr : (memberHead c).2.rest = []
    · have hpos : 0 < c.size := List.length_pos_iff.mpr h
      have hzero : (memberHead c).2.size = 0 := by simp [Cursor.size, hr]
      exact Nat.lt_of_le_of_lt (memberHead c).2.size_skipItem_le (hzero ▸ hpos)
    · exact Nat.lt_of_lt_of_le (Cursor.size_skipItem_lt hr) hle
  · next he =>
    have hlt := hlt (by simpa using he)
    split
    · exact Nat.lt_of_le_of_lt (size_method_le (memberHead c).1 c.here _) hlt
    · exact Nat.lt_of_le_of_lt (size_dataMember_le (memberHead c).1 c.here _) hlt

end Parser

end VertexLanes
