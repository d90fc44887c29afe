import VertexLanes.Source.Span

/-!
# Tokens

The lexemes of the C++ subset in which vertex programs are written. A lexeme
keeps its spelling: words and literals carry their text, keywords and
punctuation have the spelling of their table entry.
-/

namespace VertexLanes

/-- The words on which the parser decides. Every other word is a name. -/
inductive Keyword where
  | structKw | classKw | ifKw | elseKw | returnKw | forKw | whileKw | doKw | switchKw
  | typedefKw | usingKw | operatorKw | publicKw | privateKw | protectedKw
deriving DecidableEq, Repr

namespace Keyword

/-- Every keyword. -/
def all : List Keyword :=
  [.structKw, .classKw, .ifKw, .elseKw, .returnKw, .forKw, .whileKw, .doKw, .switchKw,
    .typedefKw, .usingKw, .operatorKw, .publicKw, .privateKw, .protectedKw]

/-- The keyword as it is written. -/
def spelling : Keyword → String
  | .structKw => "struct"
  | .classKw => "class"
  | .ifKw => "if"
  | .elseKw => "else"
  | .returnKw => "return"
  | .forKw => "for"
  | .whileKw => "while"
  | .doKw => "do"
  | .switchKw => "switch"
  | .typedefKw => "typedef"
  | .usingKw => "using"
  | .operatorKw => "operator"
  | .publicKw => "public"
  | .privateKw => "private"
  | .protectedKw => "protected"

/-- The keyword a word spells, if any. -/
def ofWord? (word : String) : Option Keyword := all.find? fun k => k.spelling == word

end Keyword

/-- Punctuation and operators. -/
inductive Symbol where
  | scope | arrow | eqEq | bangEq | ltEq | shl | gtEq | shr
  | plusEq | plusPlus | minusEq | minusMinus | starEq | slashEq
  | ampAmp | ampEq | pipePipe | pipeEq
  | lparen | rparen | lbrace | rbrace | lbracket | rbracket
  | comma | semicolon | colon | question | dot | eq | bang | lt | gt
  | plus | minus | star | slash | percent | amp | pipe | caret | tilde
deriving DecidableEq, Repr

namespace Symbol

/-- Every symbol, those of two characters first, so that the first match is the longest. -/
def all : List Symbol :=
  [.scope, .arrow, .eqEq, .bangEq, .ltEq, .shl, .gtEq, .shr,
    .plusEq, .plusPlus, .minusEq, .minusMinus, .starEq, .slashEq,
    .ampAmp, .ampEq, .pipePipe, .pipeEq,
    .lparen, .rparen, .lbrace, .rbrace, .lbracket, .rbracket,
    .comma, .semicolon, .colon, .question, .dot, .eq, .bang, .lt, .gt,
    .plus, .minus, .star, .slash, .percent, .amp, .pipe, .caret, .tilde]

/-- The symbol as it is written. -/
def spelling : Symbol → String
  | .scope => "::"
  | .arrow => "->"
  | .eqEq => "=="
  | .bangEq => "!="
  | .ltEq => "<="
  | .shl => "<<"
  | .gtEq => ">="
  | .shr => ">>"
  | .plusEq => "+="
  | .plusPlus => "++"
  | .minusEq => "-="
  | .minusMinus => "--"
  | .starEq => "*="
  | .slashEq => "/="
  | .ampAmp => "&&"
  | .ampEq => "&="
  | .pipePipe => "||"
  | .pipeEq => "|="
  | .lparen => "("
  | .rparen => ")"
  | .lbrace => "\x7b"
  | .rbrace => "\x7d"
  | .lbracket => "["
  | .rbracket => "]"
  | .comma => ","
  | .semicolon => ";"
  | .colon => ":"
  | .question => "?"
  | .dot => "."
  | .eq => "="
  | .bang => "!"
  | .lt => "<"
  | .gt => ">"
  | .plus => "+"
  | .minus => "-"
  | .star => "*"
  | .slash => "/"
  | .percent => "%"
  | .amp => "&"
  | .pipe => "|"
  | .caret => "^"
  | .tilde => "~"

/-- The longest symbol that begins a text. -/
def ofStart? (text : List Char) : Option Symbol :=
  all.find? fun s => s.spelling.toList.isPrefixOf text

end Symbol

/-- The two kinds of quoted literal. -/
inductive Quote where
  | string
  | character
deriving DecidableEq, Repr

/-- The mark that opens and closes a literal of this kind. -/
def Quote.mark : Quote → Char
  | .string => '"'
  | .character => '\''

/-- How messages call a literal of this kind. -/
def Quote.name : Quote → String
  | .string => "string literal"
  | .character => "character literal"

/-- One lexeme. -/
inductive Lexeme where
  | keyword (word : Keyword)
  | symbol (mark : Symbol)
  | ident (name : String)
  | number (text : String)
  /-- A literal with its quotation marks. -/
  | quoted (quote : Quote) (text : String)
  /-- A whole preprocessor line. -/
  | directive (text : String)
deriving DecidableEq, Repr

namespace Lexeme

/-- The lexeme of a word: a keyword if it spells one, otherwise a name. -/
def ofWord (word : String) : Lexeme :=
  match Keyword.ofWord? word with
  | some k => .keyword k
  | none => .ident word

/-- The text of the lexeme. -/
def spelling : Lexeme → String
  | .keyword word => word.spelling
  | .symbol mark => mark.spelling
  | .ident name => name
  | .number text => text
  | .quoted _ text => text
  | .directive text => text

/-- How messages call the lexeme. -/
def description : Lexeme → String
  | .keyword word => "'" ++ word.spelling ++ "'"
  | .symbol mark => "'" ++ mark.spelling ++ "'"
  | .ident name => "identifier '" ++ name ++ "'"
  | .number text => "number '" ++ text ++ "'"
  | .quoted quote _ => quote.name
  | .directive _ => "preprocessor directive"

/-- Whether the lexeme is a name, so that a declaration can introduce it. -/
def isName : Lexeme → Bool
  | .ident _ => true
  | _ => false

end Lexeme

/-- How messages call what comes next, the end of the file included. -/
def describeNext : Option Lexeme → String
  | some lexeme => lexeme.description
  | none => "end of file"

/-- A lexeme at its place in the source. -/
abbrev Token := Located Lexeme

/-- The text of a token. -/
def Token.spelling (t : Token) : String := t.item.spelling

/-- The range from the first token to the last. -/
def spanOf (tokens : List Token) : Span :=
  match tokens.head?, tokens.getLast? with
  | some first, some last => first.span.merge last.span
  | _, _ => Span.nowhere

end VertexLanes
