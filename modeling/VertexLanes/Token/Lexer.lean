import VertexLanes.Source.Diagnostic
import VertexLanes.Token.Basic
import VertexLanes.Text.Blank

/-!
# Lexing

A source text is cut into pieces, each read by one rule: blanks and comments,
tokens, and what no rule can read. The pieces tile the text, which is what
`Piece.next_tiles` says of one step, so a token's range is the place of its
piece and nothing is read twice or skipped unseen.
-/

namespace VertexLanes

/-- Why a text is not a sequence of lexemes. -/
inductive LexicalFault where
  /-- A `/*` comment without its end. -/
  | unterminatedComment
  /-- A literal whose closing mark is not on its line. -/
  | unterminatedLiteral (quote : Quote)
  /-- A byte that begins no lexeme. -/
  | unexpectedByte (byte : UInt8)
deriving DecidableEq, Repr

/-- A byte in a message: visible ASCII as itself, any other in hexadecimal. -/
def showByte (byte : UInt8) : String :=
  let n := byte.toNat
  if 0x21 ≤ n ∧ n ≤ 0x7E then String.singleton (Char.ofNat n)
  else String.ofList ['\\', 'x', (Nat.digitChar (n / 16)).toUpper, (Nat.digitChar (n % 16)).toUpper]

instance : Explains LexicalFault where
  severity := .error
  message
    | .unterminatedComment => "unterminated block comment"
    | .unterminatedLiteral quote => "unterminated " ++ quote.name
    | .unexpectedByte byte => "unexpected character '" ++ showByte byte ++ "'"
  help
    | .unterminatedComment => none
    | .unterminatedLiteral _ => some "literals cannot span multiple lines"
    | .unexpectedByte _ =>
      some "vertex programs are written in a C++ subset; this character is not part of it"

namespace Lexer

/-- The characters that only separate lexemes. -/
def isSpace (c : Char) : Bool := [' ', '\t', '\n', '\x0c', '\r'].contains c

/-- The characters that begin a word. -/
def isWordStart (c : Char) : Bool := c.isAlpha || c == '_'

/-- The characters that continue a word. -/
def isWordRest (c : Char) : Bool := c.isAlphanum || c == '_'

/-- Whether a number goes on with `c` after `before`. A sign belongs to a number only as the sign
of an exponent, and hexadecimal numbers have no exponent. -/
def continuesNumber (hexadecimal : Bool) (before c : Char) : Bool :=
  c.isAlphanum || c == '.' || c == '\'' ||
    ((c == '+' || c == '-') && (before == 'e' || before == 'E') && !hexadecimal)

/-- Whether a text that begins with these characters is a number. -/
def startsNumber (c : Char) (rest : List Char) : Bool :=
  c.isDigit || (c == '.' && rest.head?.any Char.isDigit)

/-- The end of a block comment: the text up to and including `*/`, and what follows. -/
def closeComment : List Char → Option (List Char × List Char)
  | [] => none
  | c :: cs =>
    if c = '*' ∧ cs.head? = some '/' then some (['*', '/'], cs.tail)
    else (closeComment cs).map fun (body, rest) => (c :: body, rest)

/-- A directive runs to the end of its line, and over every line end after a backslash. -/
def spanDirective : List Char → List Char × List Char
  | [] => ([], [])
  | '\\' :: '\n' :: cs => ('\\' :: '\n' :: (spanDirective cs).1, (spanDirective cs).2)
  | c :: cs => if c = '\n' then ([], c :: cs) else (c :: (spanDirective cs).1, (spanDirective cs).2)

/-- The rest of a number after the character `before`. -/
def spanNumber (hexadecimal : Bool) : Char → List Char → List Char × List Char
  | _, [] => ([], [])
  | before, c :: cs =>
    if continuesNumber hexadecimal before c then
      (c :: (spanNumber hexadecimal c cs).1, (spanNumber hexadecimal c cs).2)
    else ([], c :: cs)

/-- What follows the opening mark of a literal. -/
structure Literal where
  /-- The characters of the literal after its opening mark. -/
  text : List Char
  /-- What comes after it. -/
  rest : List Char
  /-- Whether the text ends in the closing mark. -/
  closed : Bool
deriving DecidableEq, Repr

/-- Put characters in front of a literal. -/
def Literal.push (front : List Char) (l : Literal) : Literal := { l with text := front ++ l.text }

/-- Read a literal to its closing mark, or to the end of the line without one. A backslash takes
the next character with it, whatever that is. -/
def spanLiteral (mark : Char) : List Char → Literal
  | [] => ⟨[], [], false⟩
  | ['\\'] => ⟨['\\'], [], false⟩
  | '\\' :: c :: cs => (spanLiteral mark cs).push ['\\', c]
  | c :: cs =>
    if c = '\n' then ⟨[], c :: cs, false⟩
    else if c = mark then ⟨[c], cs, true⟩
    else (spanLiteral mark cs).push [c]

/-- What a piece of source was read as. -/
inductive Reading where
  /-- White space or a comment. -/
  | blank
  /-- A lexeme. -/
  | token (lexeme : Lexeme)
  /-- A comment that runs to the end of the source. -/
  | openComment
  /-- A literal without its closing mark. -/
  | openLiteral (quote : Quote)
  /-- A character that begins no lexeme. -/
  | stray (c : Char)
deriving DecidableEq, Repr

/-- One step of reading: a piece taken off the front of a source. -/
structure Piece where
  /-- What the piece is. -/
  reading : Reading
  /-- Its characters. -/
  text : List Char
  /-- The source after it. -/
  rest : List Char
deriving DecidableEq, Repr

namespace Piece

/-- White space up to the next other character. -/
def space (c : Char) (cs : List Char) : Piece :=
  ⟨.blank, c :: cs.takeWhile isSpace, cs.dropWhile isSpace⟩

/-- A comment up to the end of its line. -/
def lineComment (text : List Char) : Piece :=
  ⟨.blank, text.takeWhile (· != '\n'), text.dropWhile (· != '\n')⟩

/-- A comment between `/*` and `*/`, given the source after its two opening characters. -/
def blockComment (body : List Char) : Piece :=
  match closeComment body with
  | some (inner, rest) => ⟨.blank, '/' :: '*' :: inner, rest⟩
  | none => ⟨.openComment, '/' :: '*' :: body, []⟩

/-- A preprocessor line. Its lexeme leaves out the blanks at the end. -/
def directive (c : Char) (cs : List Char) : Piece :=
  let (tail, rest) := spanDirective cs
  ⟨.token (.directive (String.ofList (Text.trimEnd (c :: tail)))), c :: tail, rest⟩

/-- A keyword or a name. -/
def word (c : Char) (cs : List Char) : Piece :=
  let text := c :: cs.takeWhile isWordRest
  ⟨.token (.ofWord (String.ofList text)), text, cs.dropWhile isWordRest⟩

/-- A number with its fraction, exponent, separators and suffix. -/
def number (c : Char) (cs : List Char) : Piece :=
  let (tail, rest) := spanNumber (c == '0' && cs.head? == some 'x') c cs
  ⟨.token (.number (String.ofList (c :: tail))), c :: tail, rest⟩

/-- A string or character literal. -/
def literal (quote : Quote) (cs : List Char) : Piece :=
  let l := spanLiteral quote.mark cs
  let text := quote.mark :: l.text
  ⟨if l.closed then .token (.quoted quote (String.ofList text)) else .openLiteral quote,
    text, l.rest⟩

/-- The longest symbol, or a character that begins no lexeme. -/
def symbol (c : Char) (cs : List Char) : Piece :=
  match Symbol.ofStart? (c :: cs) with
  | some s => ⟨.token (.symbol s), (c :: cs).take s.spelling.length, (c :: cs).drop s.spelling.length⟩
  | none => ⟨.stray c, [c], cs⟩

/-- Take the next piece off a source. A `#` begins a directive only at the start of a line. -/
def next (lineStart : Bool) (c : Char) (cs : List Char) : Piece :=
  if isSpace c then space c cs
  else if c = '/' ∧ cs.head? = some '/' then lineComment (c :: cs)
  else if c = '/' ∧ cs.head? = some '*' then blockComment cs.tail
  else if c = '#' ∧ lineStart then directive c cs
  else if isWordStart c then word c cs
  else if startsNumber c cs then number c cs
  else if c = '"' then literal .string cs
  else if c = '\'' then literal .character cs
  else symbol c cs

/-- Whether only blanks stand between the last line feed and the end of the piece. -/
def endsAtLineStart (lineStart : Bool) (p : Piece) : Bool :=
  match p.reading with
  | .blank => lineStart || p.text.contains '\n'
  | .token (.directive _) => lineStart
  | _ => false

end Piece

/-- A closed comment is what was read followed by what is left. -/
theorem closeComment_tiles {text body rest : List Char} (h : closeComment text = some (body, rest)) :
    body ++ rest = text := by
  induction text generalizing body with
  | nil => simp [closeComment] at h
  | cons c cs ih =>
    rw [closeComment] at h
    split at h
    · next hc =>
      obtain ⟨rfl, hc⟩ := hc
      obtain ⟨ds, rfl⟩ := List.head?_eq_some_iff.mp hc
      simp only [List.tail_cons, Option.some.injEq, Prod.mk.injEq] at h
      obtain ⟨rfl, rfl⟩ := h
      rfl
    · simp only [Option.map_eq_some_iff, Prod.exists, Prod.mk.injEq] at h
      obtain ⟨inner, after, hc, rfl, rfl⟩ := h
      rw [List.cons_append, ih hc]

/-- A directive is what was read followed by what is left. -/
theorem spanDirective_tiles (text : List Char) :
    (spanDirective text).1 ++ (spanDirective text).2 = text := by
  fun_induction spanDirective text <;> simp_all

/-- A number is what was read followed by what is left. -/
theorem spanNumber_tiles (hexadecimal : Bool) (before : Char) (text : List Char) :
    (spanNumber hexadecimal before text).1 ++ (spanNumber hexadecimal before text).2 = text := by
  fun_induction spanNumber hexadecimal before text <;> simp_all

/-- A literal is what was read followed by what is left. -/
theorem spanLiteral_tiles (mark : Char) (text : List Char) :
    (spanLiteral mark text).text ++ (spanLiteral mark text).rest = text := by
  fun_induction spanLiteral mark text <;> simp_all [Literal.push]

/-- Every symbol has a spelling. -/
theorem spelling_length_pos (s : Symbol) : 0 < s.spelling.length := by
  cases s <;> decide

namespace Piece

/-- One step neither loses nor repeats a character. -/
theorem next_tiles (lineStart : Bool) (c : Char) (cs : List Char) :
    (next lineStart c cs).text ++ (next lineStart c cs).rest = c :: cs := by
  unfold next
  split
  · simp [space, List.takeWhile_append_dropWhile]
  split
  · simp [lineComment, List.takeWhile_append_dropWhile]
  split
  · next h =>
    obtain ⟨rfl, h⟩ := h
    cases cs with
    | nil => simp at h
    | cons d ds =>
      simp only [List.head?_cons, Option.some.injEq] at h
      subst h
      rw [blockComment]
      split
      · next hc => simpa using closeComment_tiles hc
      · simp
  split
  · simp [directive, spanDirective_tiles]
  split
  · simp [word, List.takeWhile_append_dropWhile]
  split
  · simp [number, spanNumber_tiles]
  split
  · next h => simp [literal, spanLiteral_tiles, h, Quote.mark]
  split
  · next h => simp [literal, spanLiteral_tiles, h, Quote.mark]
  · unfold symbol
    split <;> simp

/-- One step takes at least one character. -/
theorem next_text_ne_nil (lineStart : Bool) (c : Char) (cs : List Char) :
    (next lineStart c cs).text ≠ [] := by
  unfold next
  split
  · simp [space]
  split
  · next h =>
    obtain ⟨rfl, _⟩ := h
    simp [lineComment]
  split
  · rw [blockComment]
    split <;> simp
  split
  · simp [directive]
  split
  · simp [word]
  split
  · simp [number]
  split
  · simp [literal]
  split
  · simp [literal]
  · unfold symbol
    split
    · next s _ =>
      have := spelling_length_pos s
      cases h : s.spelling.length with
      | zero => omega
      | succ n => simp
    · simp

/-- What is left after a step is shorter than the source. -/
theorem next_rest_length_lt (lineStart : Bool) (c : Char) (cs : List Char) :
    (next lineStart c cs).rest.length < (c :: cs).length := by
  have hs := congrArg List.length (next_tiles lineStart c cs)
  have hp := List.length_pos_iff.mpr (next_text_ne_nil lineStart c cs)
  rw [List.length_append] at hs
  omega

end Piece

/-- All pieces of a source, in order. -/
def pieces (lineStart : Bool) : List Char → List Piece
  | [] => []
  | c :: cs =>
    let p := Piece.next lineStart c cs
    p :: pieces (p.endsAtLineStart lineStart) p.rest
termination_by source => source.length
decreasing_by exact Piece.next_rest_length_lt lineStart c cs

/-- Give each piece its range, the first one starting at `offset`. -/
def place (offset : Nat) : List Piece → List (Located Piece)
  | [] => []
  | p :: ps =>
    let stop := offset + byteLength p.text
    ⟨p, offset, stop⟩ :: place stop ps

/-- The token a piece holds. -/
def tokenOf (p : Located Piece) : Option Token :=
  match p.item.reading with
  | .token lexeme => some ⟨lexeme, p.span⟩
  | _ => none

/-- The faults of a piece. A character that begins no lexeme is reported byte by byte. -/
def faultsOf (p : Located Piece) : List (Located LexicalFault) :=
  match p.item.reading with
  | .blank | .token _ => []
  | .openComment => [⟨.unterminatedComment, p.span⟩]
  | .openLiteral quote => [⟨.unterminatedLiteral quote, p.span⟩]
  | .stray c =>
    (String.utf8EncodeChar c).zipIdx.map fun (byte, i) =>
      ⟨.unexpectedByte byte, p.span.start + i, p.span.start + i + 1⟩

end Lexer

/-- A source text read as lexemes. -/
structure Lexed where
  /-- The tokens, in order. -/
  tokens : List Token
  /-- What could not be read, in order. -/
  faults : List (Located LexicalFault)
  /-- The offset at which the source ends. -/
  stop : Nat
deriving DecidableEq, Repr

/-- Read a source text as lexemes. -/
def lex (source : List Char) : Lexed :=
  let placed := Lexer.place 0 (Lexer.pieces true source)
  ⟨placed.filterMap Lexer.tokenOf, placed.flatMap Lexer.faultsOf, byteLength source⟩

end VertexLanes
