import VertexLanes.Block.Cursor
import VertexLanes.Block.Shape
import VertexLanes.Token.Lexer

/-!
# Parsing statement blocks

A recursive-descent parser for the statements of a phase body. It goes on after
a fault, so one run reports every fault it meets, and a tree counts only if
there is none. Each parser returns, with its result, the proof that it never
moves back; a statement that has anything to read also moves on. Blocks may
stand inside one another to a fixed depth, counted where a brace opens.
-/

namespace VertexLanes.Parser

/-- The outcome of a step from `c` that never moves back. -/
abbrev Within (α : Type) (c : Cursor) := { r : Parsed α // r.next.size ≤ c.size }

/-- The outcome of a step from `c` that never moves back, and moves on unless the enclosing block
ends at `c`. -/
abbrev Onward (α : Type) (c : Cursor) :=
  { r : Parsed α // r.next.size ≤ c.size ∧ (c.atBlockEnd = false → r.next.size < c.size) }

/-- A step that moved on. -/
def onward {α : Type} {c : Cursor} (r : Parsed α) (h : r.next.size < c.size) : Onward α c :=
  ⟨r, Nat.le_of_lt h, fun _ => h⟩

/-- What a statement is, as far as its first lexeme tells. -/
inductive Opening where
  /-- A block. -/
  | block
  /-- Nothing before a semicolon. -/
  | empty
  /-- A conditional. -/
  | conditional
  /-- A return statement. -/
  | returning
  /-- A `for`, `while` or `switch` statement. -/
  | loop
  /-- A `do` statement. -/
  | doLoop
  /-- An `else` without its `if`. -/
  | orphanElse
  /-- Anything that ends with a semicolon. -/
  | simple
deriving DecidableEq, Repr

/-- What a statement that begins with a lexeme is. -/
def Opening.ofLexeme : Lexeme → Opening
  | .symbol .lbrace => .block
  | .symbol .semicolon => .empty
  | .keyword .ifKw => .conditional
  | .keyword .returnKw => .returning
  | .keyword .forKw | .keyword .whileKw | .keyword .switchKw => .loop
  | .keyword .doKw => .doLoop
  | .keyword .elseKw => .orphanElse
  | _ => .simple

/-- The test of a conditional between its parentheses. -/
def condition (c : Cursor) : Parsed (Option (Node Token)) :=
  if c.at? .lparen then
    let g := c.group
    match g.value.tail with
    | [] => ⟨none, g.faults, g.next⟩
    | inner =>
      if inner.dropLast.isEmpty then
        ⟨none, g.faults ++ [⟨.emptyCondition, spanOf g.value⟩], g.next⟩
      else ⟨some (Shape.expression inner.dropLast), g.faults, g.next⟩
  else ⟨none, [c.fault (.conditionExpected c.peek)], c⟩

/-- Reading a test never moves back. -/
theorem size_condition_le (c : Cursor) : (condition c).next.size ≤ c.size := by
  unfold condition
  split
  · simp only
    split
    · exact c.size_group_le
    · split <;> exact c.size_group_le
  · exact Nat.le_refl _

/-- A statement that ends with a semicolon. -/
def simple (c : Cursor) : Parsed (Node Token) :=
  let r := c.untilSemicolon
  let semicolon := if r.next.at? .semicolon then r.next.rest.head? else none
  let e := r.next.expect .semicolon
  ⟨Shape.statement r.value semicolon, r.faults ++ e.faults, e.next⟩

/-- A simple statement never moves back. -/
theorem size_simple_le (c : Cursor) : (simple c).next.size ≤ c.size :=
  Nat.le_trans (Cursor.size_expect_le _ _) c.size_untilSemicolon_le

/-- A simple statement moves on unless the enclosing block ends. -/
theorem size_simple_lt {c : Cursor} (h : c.atBlockEnd = false) : (simple c).next.size < c.size := by
  cases hs : c.at? .semicolon with
  | false =>
    exact Nat.lt_of_le_of_lt (Cursor.size_expect_le _ _) (Cursor.size_untilSemicolon_lt h hs)
  | true =>
    have hstop : c.untilSemicolon.next = c := by
      unfold Cursor.untilSemicolon
      split
      · rfl
      · next t ts hr =>
        have : t.is .semicolon = true := by
          simpa [Cursor.at?, Cursor.peek, hr, Token.is] using hs
        simp [this]
    show (c.untilSemicolon.next.expect .semicolon).next.size < c.size
    rw [hstop]
    exact Cursor.size_expect_lt hs

/-- A return statement after its keyword. -/
def returning (keyword : Token) (c : Cursor) : Parsed (Node Token) :=
  let r := c.untilSemicolon
  let e := r.next.expect .semicolon
  let children := if r.value.isEmpty then [] else [Shape.expression r.value]
  ⟨⟨.return, "", keyword :: r.value, children, keyword.span.merge e.value⟩,
    r.faults ++ e.faults, e.next⟩

/-- A return statement never moves back. -/
theorem size_returning_le (keyword : Token) (c : Cursor) :
    (returning keyword c).next.size ≤ c.size :=
  Nat.le_trans (Cursor.size_expect_le _ _) c.size_untilSemicolon_le

/-- A parenthesised group if one is next. -/
def groupIfNext (c : Cursor) : Parsed (List Token) :=
  if c.at? .lparen then c.group else ⟨[], [], c⟩

/-- Reading a group that may be missing never moves back. -/
theorem size_groupIfNext_le (c : Cursor) : (groupIfNext c).next.size ≤ c.size := by
  unfold groupIfNext
  split
  · exact c.size_group_le
  · exact Nat.le_refl _

/-- The end of a `do` loop: its test, if there is one, and the semicolon. -/
def loopEnd (c : Cursor) : Parsed Unit :=
  let g : Parsed (List Token) :=
    if c.atKeyword? .whileKw then groupIfNext c.advance else ⟨[], [], c⟩
  let e := g.next.expect .semicolon
  ⟨(), g.faults ++ e.faults, e.next⟩

/-- The end of a loop never moves back. -/
theorem size_loopEnd_le (c : Cursor) : (loopEnd c).next.size ≤ c.size := by
  refine Nat.le_trans (Cursor.size_expect_le _ _) ?_
  split
  · exact Nat.le_trans (size_groupIfNext_le _) c.size_advance_le
  · exact Nat.le_refl _

mutual

/-- The statements up to the end of the enclosing block. -/
def statements (depth : Nat) (c : Cursor) : Within (List (Node Token)) c :=
  if h : c.atBlockEnd then ⟨⟨[], [], c⟩, Nat.le_refl _⟩
  else
    match statement depth c with
    | ⟨first, hf⟩ =>
      have _hlt : first.next.size < c.size := hf.2 (eq_false_of_ne_true h)
      match statements depth first.next with
      | ⟨others, ho⟩ =>
        ⟨⟨first.value.toList ++ others.value, first.faults ++ others.faults, others.next⟩,
          Nat.le_trans ho hf.1⟩
termination_by 4 * c.size + 3

/-- A block after its opening brace, inside `depth` other blocks. A block that stands too deep is
reported, and nothing after its brace is read. -/
def block (depth : Nat) (opening : Span) (c : Cursor) : Within (Node Token) c :=
  if depth < maxDepth then
    match statements (depth + 1) c with
    | ⟨body, hb⟩ =>
      let e := body.next.expect .rbrace
      ⟨⟨Node.ofStatements body.value (opening.merge e.value), body.faults ++ e.faults, e.next⟩,
        Nat.le_trans (Cursor.size_expect_le _ _) hb⟩
  else
    ⟨⟨Node.ofStatements [] opening, [c.fault .nestingTooDeep], c.toEnd⟩, Nat.zero_le _⟩
termination_by 4 * c.size + 4

/-- One statement; a lone semicolon is none. -/
def statement (depth : Nat) (c : Cursor) : Onward (Option (Node Token)) c :=
  match hr : c.rest with
  | [] => ⟨(simple c).map some, size_simple_le c, size_simple_lt⟩
  | t :: _ =>
    have hne := Cursor.rest_ne_nil_of_eq hr
    have hadv := Cursor.size_advance_lt hne
    match Opening.ofLexeme t.item with
    | .block =>
      match block depth t.span c.advance with
      | ⟨r, h⟩ => onward (r.map some) (Cursor.lt_of_le_advance hne h)
    | .empty => onward ⟨none, [], c.advance⟩ hadv
    | .conditional =>
      match conditional depth t.span c.advance with
      | ⟨r, h⟩ => onward (r.map some) (Cursor.lt_of_le_advance hne h)
    | .returning =>
      onward ((returning t c.advance).map some)
        (Cursor.lt_of_le_advance hne (size_returning_le t c.advance))
    | .loop =>
      match loop depth t c.advance with
      | ⟨r, h⟩ => onward (r.map some) (Cursor.lt_of_le_advance hne h)
    | .doLoop =>
      match doLoop depth t c.advance with
      | ⟨r, h⟩ => onward (r.map some) (Cursor.lt_of_le_advance hne h)
    | .orphanElse => onward ⟨none, [c.fault .orphanElse], c.advance⟩ hadv
    | .simple => ⟨(simple c).map some, size_simple_le c, size_simple_lt⟩
termination_by 4 * c.size + 1

/-- A conditional after its keyword. Its children are the test and one block for each branch. -/
def conditional (depth : Nat) (keyword : Span) (c : Cursor) : Within (Node Token) c :=
  let test := condition c
  have ht : (condition c).next.size ≤ c.size := size_condition_le c
  match branch depth (condition c).next with
  | ⟨first, hf⟩ =>
    if h : first.next.atKeyword? .elseKw then
      have hadv := Cursor.size_advance_lt (Cursor.rest_ne_nil_of_atKeyword h)
      match branch depth first.next.advance with
      | ⟨second, hs⟩ =>
        ⟨⟨⟨.conditional, "", [], test.value.toList ++ [first.value, second.value],
            keyword.merge second.next.before⟩,
          test.faults ++ first.faults ++ second.faults, second.next⟩,
          Nat.le_trans (Nat.le_of_lt (Nat.lt_of_le_of_lt hs hadv)) (Nat.le_trans hf ht)⟩
    else
      ⟨⟨⟨.conditional, "", [], test.value.toList ++ [first.value],
          keyword.merge first.next.before⟩,
        test.faults ++ first.faults, first.next⟩, Nat.le_trans hf ht⟩
termination_by 4 * c.size + 3

/-- A branch of a conditional; a branch without braces is made a block. -/
def branch (depth : Nat) (c : Cursor) : Within (Node Token) c :=
  if h : c.at? .lbrace then
    have hadv := Cursor.size_advance_lt (Cursor.rest_ne_nil_of_at h)
    match block depth c.here c.advance with
    | ⟨r, hr⟩ => ⟨r, Nat.le_trans hr (Nat.le_of_lt hadv)⟩
  else
    match statement depth c with
    | ⟨r, hr⟩ =>
      ⟨⟨Node.ofStatements r.value.toList (c.here.merge r.next.before), r.faults, r.next⟩, hr.1⟩
termination_by 4 * c.size + 2

/-- A `for`, `while` or `switch` statement after its keyword. Its body is read and left out. -/
def loop (depth : Nat) (keyword : Token) (c : Cursor) : Within (Node Token) c :=
  let head := groupIfNext c
  have hh : (groupIfNext c).next.size ≤ c.size := size_groupIfNext_le c
  match statement depth (groupIfNext c).next with
  | ⟨body, hb⟩ =>
    ⟨⟨⟨.other, keyword.spelling, keyword :: head.value, [], keyword.span.merge body.next.before⟩,
      head.faults ++ body.faults, body.next⟩, Nat.le_trans hb.1 hh⟩
termination_by 4 * c.size + 2

/-- A `do` statement after its keyword. Its body and its test are read and left out. -/
def doLoop (depth : Nat) (keyword : Token) (c : Cursor) : Within (Node Token) c :=
  match statement depth c with
  | ⟨body, hb⟩ =>
    let e := loopEnd body.next
    ⟨⟨⟨.other, keyword.spelling, [keyword], [], keyword.span.merge e.next.before⟩,
      body.faults ++ e.faults, e.next⟩, Nat.le_trans (size_loopEnd_le _) hb.1⟩
termination_by 4 * c.size + 2

end

end VertexLanes.Parser

namespace VertexLanes

/-- The cursor before the first token of a lexed source. -/
def Lexed.cursor (lexed : Lexed) : Cursor := ⟨lexed.tokens, none, lexed.stop⟩

/-- Read a token sequence as one block and nothing after it. -/
def parseTokens (c : Cursor) : Parsed (Option (Node Token)) :=
  match c.rest with
  | [] => ⟨none, [c.fault (.blockExpected c.peek)], c⟩
  | t :: _ =>
    if t.is .lbrace then
      let r := (Parser.block 0 t.span c.advance).val
      let faults :=
        if r.next.rest.isEmpty then r.faults
        else r.faults ++ [r.next.fault (.afterBlock r.next.peek)]
      ⟨some r.value, faults, r.next⟩
    else ⟨none, [c.fault (.blockExpected c.peek)], c⟩

/-- Read a source text as one block. Faults of its lexemes are reported before any of its
statements is read. -/
def parseBlock (source : List Char) : Except (List Diagnostic) (Node Token) :=
  let lexed := lex source
  if lexed.faults.isEmpty then
    match parseTokens lexed.cursor with
    | ⟨some body, [], _⟩ => .ok body
    | ⟨_, faults, _⟩ => .error (faults.map Located.diagnostic)
  else .error (lexed.faults.map Located.diagnostic)

end VertexLanes
