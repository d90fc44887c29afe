import VertexLanes.Source.Diagnostic
import VertexLanes.Token.Nesting

/-!
# Reading tokens

A cursor stands before a token or at the end of the source. Reading never moves
back and never past the end, and a step that finds something else than it
expects reports that and stays where it is. The lemmas here say which steps
move on; the parsers of blocks and classes end because of them.
-/

namespace VertexLanes

/-- Why a token sequence is not a block or a class. -/
inductive SyntaxFault where
  /-- A body that does not begin with a brace. -/
  | blockExpected (found : Option Lexeme)
  /-- Something after the brace that closes the body. -/
  | afterBlock (found : Option Lexeme)
  /-- A block inside too many others. -/
  | nestingTooDeep
  /-- A bracket without its partner. -/
  | unclosedDelimiter
  /-- A token that fits nowhere. -/
  | unexpected (found : Lexeme)
  /-- A missing symbol. -/
  | expected (wanted : Symbol) (found : Option Lexeme)
  /-- A missing name. -/
  | nameExpected (found : Option Lexeme)
  /-- An `else` without its `if`. -/
  | orphanElse
  /-- An `if` without a parenthesis after it. -/
  | conditionExpected (found : Option Lexeme)
  /-- An `if` with nothing between its parentheses. -/
  | emptyCondition
  /-- A class head without a body. -/
  | classBodyExpected (className : String) (found : Option Lexeme)
  /-- A member without a declaration. -/
  | memberExpected (found : Option Lexeme)
  /-- A data member without a name. -/
  | memberUnnamed
deriving DecidableEq, Repr

/-- The greatest number of blocks that may stand inside one another. -/
def maxDepth : Nat := 256

instance : Explains SyntaxFault where
  severity := .error
  message
    | .blockExpected found => "expected '\x7b', found " ++ describeNext found
    | .afterBlock found => "unexpected " ++ describeNext found ++ " after the closing '\x7d'"
    | .nestingTooDeep => "nesting depth exceeded (maximum " ++ toString maxDepth ++ " levels)"
    | .unclosedDelimiter => "unclosed delimiter"
    | .unexpected found => "unexpected " ++ found.description
    | .expected wanted found => "expected '" ++ wanted.spelling ++ "', found " ++ describeNext found
    | .nameExpected found => "expected identifier, found " ++ describeNext found
    | .orphanElse => "'else' without a matching 'if'"
    | .conditionExpected found => "expected '(' after 'if', found " ++ describeNext found
    | .emptyCondition => "empty condition"
    | .classBodyExpected name found =>
      "expected '\x7b' after '" ++ name ++ "', found " ++ describeNext found
    | .memberExpected found => "expected member declaration, found " ++ describeNext found
    | .memberUnnamed => "member declaration has no name"
  help
    | .blockExpected _ => some "a phase body is a brace-enclosed statement list"
    | .nestingTooDeep => some "flatten the conditional structure of this phase body"
    | .unclosedDelimiter => some "every '(', '[' and '\x7b' needs a matching close"
    | .orphanElse => some "an 'else' branch must directly follow the body of an 'if'"
    | .conditionExpected _ => some "wrap the condition in parentheses: if (x > 0) \x7b ... \x7d"
    | .classBodyExpected _ _ => some "only complete struct and class definitions are supported"
    | _ => none

/-- A place in a token sequence. -/
structure Cursor where
  /-- The tokens still to be read. -/
  rest : List Token
  /-- The range of the token read last, if any was. -/
  last : Option Span
  /-- The offset at which the source ends. -/
  stop : Nat
deriving DecidableEq, Repr

/-- What a reading step found, the faults it met, and where it ended. -/
structure Parsed (α : Type) where
  /-- What was found. -/
  value : α
  /-- The faults, in order. -/
  faults : List (Located SyntaxFault)
  /-- The place after it. -/
  next : Cursor

/-- Change what was found. -/
def Parsed.map {α β : Type} (f : α → β) (r : Parsed α) : Parsed β := ⟨f r.value, r.faults, r.next⟩

namespace Cursor

/-- The number of tokens still to be read. -/
def size (c : Cursor) : Nat := c.rest.length

/-- The next lexeme, none at the end. -/
def peek (c : Cursor) : Option Lexeme := c.rest.head?.map Located.item

/-- The range of the next token; the end of the source has an empty one. -/
def here (c : Cursor) : Span :=
  match c.rest with
  | [] => ⟨c.stop, c.stop⟩
  | t :: _ => t.span

/-- The range of the token before; at the beginning that of the next token. -/
def before (c : Cursor) : Span := c.last.getD c.here

/-- Whether the next token is the given symbol. -/
def at? (mark : Symbol) (c : Cursor) : Bool := c.peek == some (.symbol mark)

/-- Whether the next token is the given keyword. -/
def atKeyword? (word : Keyword) (c : Cursor) : Bool := c.peek == some (.keyword word)

/-- Whether no statement can begin here: the enclosing block or the source ends. -/
def atBlockEnd (c : Cursor) : Bool := c.rest.isEmpty || c.at? .rbrace

/-- Step over one token. -/
def advance (c : Cursor) : Cursor :=
  match c.rest with
  | [] => c
  | t :: ts => { c with rest := ts, last := some t.span }

/-- Step over the given symbol if it is next. -/
def skip (mark : Symbol) (c : Cursor) : Cursor := if c.at? mark then c.advance else c

/-- Step over all tokens. -/
def toEnd (c : Cursor) : Cursor :=
  { c with rest := [], last := (c.rest.getLast?.map Located.span).or c.last }

/-- A fault at the next token. -/
def fault (c : Cursor) (cause : SyntaxFault) : Located SyntaxFault := ⟨cause, c.here⟩

/-- Step over the given symbol and give its range; report it missing where it is not next. -/
def expect (mark : Symbol) (c : Cursor) : Parsed Span :=
  if c.at? mark then ⟨c.here, [], c.advance⟩
  else ⟨c.here, [c.fault (.expected mark c.peek)], c⟩

/-- A bracketed group after its opening bracket. -/
structure Group where
  /-- Its tokens, the closing bracket included. -/
  tokens : List Token
  /-- The tokens after it. -/
  rest : List Token
  /-- Whether the closing bracket was found. -/
  closed : Bool

/-- The number of groups open inside the current one after a token; none once that closes. -/
def depthAfter (depth : Nat) : Side → Option Nat
  | .opening => some (depth + 1)
  | .closing => if depth = 0 then none else some (depth - 1)
  | .plain => some depth

/-- Read up to the bracket that closes the group, with `depth` further groups open inside it. The
kinds of bracket are not told apart. -/
def spanGroup : Nat → List Token → Group
  | _, [] => ⟨[], [], false⟩
  | depth, t :: ts =>
    match depthAfter depth t.side with
    | none => ⟨[t], ts, true⟩
    | some d =>
      let g := spanGroup d ts
      { g with tokens := t :: g.tokens }

/-- Read the group that the next token opens, both brackets included. -/
def group (c : Cursor) : Parsed (List Token) :=
  match c.rest with
  | [] => ⟨[], [c.fault .unclosedDelimiter], c⟩
  | t :: ts =>
    let g := spanGroup 0 ts
    ⟨t :: g.tokens, if g.closed then [] else [c.fault .unclosedDelimiter],
      { c with rest := g.rest, last := (t :: g.tokens).getLast?.map Located.span }⟩

/-- What is read of a group is followed by what is left of it. -/
theorem spanGroup_tiles (depth : Nat) (tokens : List Token) :
    (spanGroup depth tokens).tokens ++ (spanGroup depth tokens).rest = tokens := by
  induction tokens generalizing depth with
  | nil => rfl
  | cons t ts ih =>
    rw [spanGroup]
    split
    · rfl
    · simp [ih]

/-- A cursor before a token is not at the end. -/
theorem rest_ne_nil_of_eq {c : Cursor} {t : Token} {ts : List Token} (h : c.rest = t :: ts) :
    c.rest ≠ [] :=
  h ▸ List.cons_ne_nil t ts

/-- A cursor before a token moves on by one. -/
theorem size_advance {c : Cursor} (h : c.rest ≠ []) : c.advance.size + 1 = c.size := by
  unfold advance size
  cases hr : c.rest with
  | nil => exact absurd hr h
  | cons t ts => simp

/-- A cursor before a token moves on. -/
theorem size_advance_lt {c : Cursor} (h : c.rest ≠ []) : c.advance.size < c.size :=
  Nat.lt_of_succ_le (Nat.le_of_eq (size_advance h))

/-- A step from behind a token that does not move back has moved on. -/
theorem lt_of_le_advance {c d : Cursor} (hne : c.rest ≠ []) (h : d.size ≤ c.advance.size) :
    d.size < c.size :=
  Nat.lt_of_le_of_lt h (size_advance_lt hne)

/-- Stepping over a token never moves back. -/
theorem size_advance_le (c : Cursor) : c.advance.size ≤ c.size := by
  unfold advance size
  split <;> simp_all

/-- Stepping over a symbol never moves back. -/
theorem size_skip_le (mark : Symbol) (c : Cursor) : (c.skip mark).size ≤ c.size := by
  unfold skip
  split
  · exact c.size_advance_le
  · exact Nat.le_refl _

/-- A cursor before a given symbol is not at the end. -/
theorem rest_ne_nil_of_at {mark : Symbol} {c : Cursor} (h : c.at? mark = true) : c.rest ≠ [] := by
  intro hr
  simp [at?, peek, hr] at h

/-- A cursor before a given keyword is not at the end. -/
theorem rest_ne_nil_of_atKeyword {word : Keyword} {c : Cursor} (h : c.atKeyword? word = true) :
    c.rest ≠ [] := by
  intro hr
  simp [atKeyword?, peek, hr] at h

/-- Expecting a symbol never moves back. -/
theorem size_expect_le (mark : Symbol) (c : Cursor) : (c.expect mark).next.size ≤ c.size := by
  unfold expect
  split
  · exact c.size_advance_le
  · exact Nat.le_refl _

/-- Expecting a symbol that is next moves on. -/
theorem size_expect_lt {mark : Symbol} {c : Cursor} (h : c.at? mark = true) :
    (c.expect mark).next.size < c.size := by
  have := size_advance (rest_ne_nil_of_at h)
  simp only [expect, h, if_true]
  omega

/-- Reading a group moves on. -/
theorem size_group_lt {c : Cursor} (h : c.rest ≠ []) : c.group.next.size < c.size := by
  unfold group size
  cases hr : c.rest with
  | nil => exact absurd hr h
  | cons t ts =>
    have := congrArg List.length (spanGroup_tiles 0 ts)
    simp only [List.length_append] at this
    simp only [List.length_cons]
    omega

/-- Reading a group never moves back. -/
theorem size_group_le (c : Cursor) : c.group.next.size ≤ c.size := by
  by_cases h : c.rest = []
  · simp [group, h, size]
  · exact Nat.le_of_lt (size_group_lt h)

/-- The tokens up to the next semicolon outside all brackets. Reading stops at a closing brace
without a partner and at the end of the source; other brackets without a partner are reported and
left out. -/
def untilSemicolon (c : Cursor) : Parsed (List Token) :=
  match _h : c.rest with
  | [] => ⟨[], [], c⟩
  | t :: _ =>
    if t.is .semicolon || t.is .rbrace then ⟨[], [], c⟩
    else
      match t.side with
      | .opening =>
        let g := c.group
        let r := untilSemicolon g.next
        ⟨g.value ++ r.value, g.faults ++ r.faults, r.next⟩
      | .closing =>
        let r := untilSemicolon c.advance
        ⟨r.value, c.fault (.unexpected t.item) :: r.faults, r.next⟩
      | .plain =>
        let r := untilSemicolon c.advance
        ⟨t :: r.value, r.faults, r.next⟩
termination_by c.size
decreasing_by
  · exact size_group_lt (rest_ne_nil_of_eq _h)
  · exact Nat.lt_of_succ_le (Nat.le_of_eq (size_advance (rest_ne_nil_of_eq _h)))
  · exact Nat.lt_of_succ_le (Nat.le_of_eq (size_advance (rest_ne_nil_of_eq _h)))

/-- Reading up to a semicolon never moves back. -/
theorem size_untilSemicolon_le (c : Cursor) : c.untilSemicolon.next.size ≤ c.size := by
  fun_induction untilSemicolon c with
  | case1 => exact Nat.le_refl _
  | case2 => exact Nat.le_refl _
  | case3 c t ts h _ _ g r ih => exact Nat.le_trans ih c.size_group_le
  | case4 c t ts h _ _ r ih => exact Nat.le_trans ih c.size_advance_le
  | case5 c t ts h _ _ r ih => exact Nat.le_trans ih c.size_advance_le

/-- Reading up to a semicolon moves on unless it can stop at once. -/
theorem size_untilSemicolon_lt {c : Cursor} (hb : c.atBlockEnd = false)
    (hs : c.at? .semicolon = false) : c.untilSemicolon.next.size < c.size := by
  unfold untilSemicolon
  split
  · next h => simp [atBlockEnd, h] at hb
  · next t ts h =>
    have hne : c.rest ≠ [] := by simp [h]
    have hadv := size_advance hne
    split
    · next hm =>
      simp [atBlockEnd, at?, peek, h, Token.is] at hb hs hm
      rcases hm with hm | hm <;> contradiction
    · split
      · exact Nat.lt_of_le_of_lt (size_untilSemicolon_le _) (size_group_lt hne)
      · have := size_untilSemicolon_le c.advance
        show (untilSemicolon c.advance).next.size < c.size
        omega
      · have := size_untilSemicolon_le c.advance
        show (untilSemicolon c.advance).next.size < c.size
        omega

end Cursor

end VertexLanes
