/-!
# Source ranges

Offsets count the bytes of a text's UTF-8 form, so a range can name a place
that is no character boundary. Reading a range back is therefore partial: only
a range that starts and stops between characters covers any text.
-/

namespace VertexLanes

/-- A range of byte offsets into one source text. -/
structure Span where
  /-- Offset of the first byte. -/
  start : Nat
  /-- Offset just after the last byte. -/
  stop : Nat
deriving DecidableEq, Repr, Inhabited

/-- A line and a column, both counted from one. -/
structure Position where
  /-- One more than the number of line feeds before the place. -/
  line : Nat
  /-- One more than the number of bytes since the last line feed. -/
  column : Nat
deriving DecidableEq, Repr

/-- A value together with the range of source it was read from. -/
structure Located (α : Type) where
  /-- The value itself. -/
  item : α
  /-- Where it was read. -/
  span : Span
deriving DecidableEq, Repr

/-- The bytes of a text in its UTF-8 form. -/
def utf8 (text : List Char) : List UInt8 := text.flatMap String.utf8EncodeChar

/-- The number of bytes of a text in its UTF-8 form. -/
def byteLength (text : List Char) : Nat := text.foldr (fun c n => c.utf8Size + n) 0

/-- Cut a text after exactly `n` bytes. There is no cut inside a character and none past the end. -/
def splitBytes : Nat → List Char → Option (List Char × List Char)
  | 0, text => some ([], text)
  | _ + 1, [] => none
  | n + 1, c :: text =>
    if c.utf8Size ≤ n + 1 then
      (splitBytes (n + 1 - c.utf8Size) text).map fun (before, after) => (c :: before, after)
    else none

namespace Span

/-- The empty range at the beginning, given to findings that have no place of their own. -/
def nowhere : Span := ⟨0, 0⟩

/-- The smallest range that covers both. -/
def merge (a b : Span) : Span := ⟨min a.start b.start, max a.stop b.stop⟩

/-- A range without bytes; a range that stops before it starts has none either. -/
def isEmpty (s : Span) : Bool := s.stop ≤ s.start

/-- The text under the range, if both ends lie in order on character boundaries of the source. -/
def slice? (s : Span) (source : List Char) : Option (List Char) :=
  if s.start ≤ s.stop then do
    let (_, after) ← splitBytes s.start source
    let (covered, _) ← splitBytes (s.stop - s.start) after
    return covered
  else none

/-- The text under the range, empty where the range covers none. -/
def slice (s : Span) (source : List Char) : List Char := (s.slice? source).getD []

/-- Line and column of the start; a start past the end counts as the end. -/
def position (s : Span) (source : List Char) : Position :=
  let before := (utf8 source).take s.start
  ⟨before.count 10 + 1, (before.reverse.takeWhile (· != 10)).length + 1⟩

end Span

end VertexLanes
