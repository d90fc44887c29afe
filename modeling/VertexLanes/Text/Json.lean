/-!
# JSON text

The part of JSON that printed trees need: texts, lists and records. Records keep
the order of their entries. Text is printed with an indentation of two blanks a
level; an empty list stays on one line.
-/

namespace VertexLanes

/-- A JSON value. -/
inductive JsonValue where
  | text (content : String)
  | list (items : List JsonValue)
  | record (entries : List (String × JsonValue))

namespace JsonValue

/-- A hexadecimal digit in lower case. -/
def hexDigit (n : Nat) : Char := Nat.digitChar n

/-- A character inside quotation marks. Only quotation marks, backslashes and control characters
are escaped. -/
def escapeChar (c : Char) : List Char :=
  match c with
  | '"' => ['\\', '"']
  | '\\' => ['\\', '\\']
  | '\x08' => ['\\', 'b']
  | '\t' => ['\\', 't']
  | '\n' => ['\\', 'n']
  | '\x0c' => ['\\', 'f']
  | '\r' => ['\\', 'r']
  | c =>
    if c.toNat < 0x20 then ['\\', 'u', '0', '0', hexDigit (c.toNat / 16), hexDigit (c.toNat % 16)]
    else [c]

/-- A text in quotation marks. -/
def quote (content : String) : String :=
  String.ofList (['"'] ++ content.toList.flatMap escapeChar ++ ['"'])

/-- The line end and the blanks before an item at some depth. -/
def lineBreak (depth : Nat) : String := "\n" ++ String.join (List.replicate depth "  ")

mutual
/-- A value as text, with its inner lines indented from the given depth. -/
def pretty (depth : Nat) : JsonValue → String
  | .text content => quote content
  | .list [] => "[]"
  | .list (item :: items) =>
    "[" ++ lineBreak (depth + 1) ++ item.pretty (depth + 1) ++ prettyItems (depth + 1) items ++
      lineBreak depth ++ "]"
  | .record [] => "\x7b\x7d"
  | .record ((key, value) :: entries) =>
    "\x7b" ++ lineBreak (depth + 1) ++ quote key ++ ": " ++ value.pretty (depth + 1) ++
      prettyEntries (depth + 1) entries ++ lineBreak depth ++ "\x7d"
/-- The items after the first one of a list. -/
def prettyItems (depth : Nat) : List JsonValue → String
  | [] => ""
  | item :: items => "," ++ lineBreak depth ++ item.pretty depth ++ prettyItems depth items
/-- The entries after the first one of a record. -/
def prettyEntries (depth : Nat) : List (String × JsonValue) → String
  | [] => ""
  | (key, value) :: entries =>
    "," ++ lineBreak depth ++ quote key ++ ": " ++ value.pretty depth ++ prettyEntries depth entries
end

end JsonValue

end VertexLanes
