import Mathlib.Data.List.Basic
import VertexLanes.Source.Span

/-!
# Lines and columns

A position counts the line feeds before a place and the bytes since the last one.
Both change in one way only when a byte is passed: a line feed begins a line, any
other byte a column. So positions come in the order of their offsets, and each of
them says where its line begins and how far from there its offset lies.
-/

namespace VertexLanes

private theorem length_utf8 (text : List Char) : (utf8 text).length = byteLength text := by
  induction text with
  | nil => rfl
  | cons c text ih =>
    rw [utf8, List.flatMap_cons, List.length_append, String.length_utf8EncodeChar]
    exact congrArg (c.utf8Size + ·) ih

/-- The offset just after the `n`-th line feed of a source; the beginning for `n = 0`. -/
def afterFeed? (source : List Char) : Nat → Option Nat
  | 0 => some 0
  | n + 1 =>
    if n < (utf8 source).count 10 then some ((utf8 source).idxOfNth 10 n + 1) else none

namespace Position

/-- Whether a position stands in an earlier line than another, or further left in the same line. -/
def Before (p q : Position) : Prop := p.line < q.line ∨ p.line = q.line ∧ p.column < q.column

theorem Before.trans {p q r : Position} (h : p.Before q) (h' : q.Before r) : p.Before r := by
  unfold Before at *
  omega

/-- The position behind one more byte. -/
def next (p : Position) (byte : UInt8) : Position :=
  if byte = 10 then ⟨p.line + 1, 1⟩ else ⟨p.line, p.column + 1⟩

theorem before_next (p : Position) (byte : UInt8) : p.Before (p.next byte) := by
  unfold next
  split
  · exact .inl (Nat.lt_succ_self _)
  · exact .inr ⟨rfl, Nat.lt_succ_self _⟩

/-- A position says where an offset lies: in the line that begins after as many line feeds as there
are lines before, at a distance of as many bytes as there are columns before. -/
structure Names (p : Position) (source : List Char) (offset : Nat) : Prop where
  /-- Lines are counted from one. -/
  line_pos : 0 < p.line
  /-- Columns are counted from one. -/
  column_pos : 0 < p.column
  /-- The line begins at the offset less the columns before, and does not end before the offset. -/
  of_line : ∃ start, afterFeed? source (p.line - 1) = some start ∧
    offset = start + (p.column - 1) ∧ ∀ i, start ≤ i → i < offset → (utf8 source)[i]? ≠ some 10

/-- Passing a byte that is no line feed stays in the line. -/
theorem Names.next_of_ne {p : Position} {source : List Char} {offset : Nat} {byte : UInt8}
    (h : p.Names source offset) (hbyte : (utf8 source)[offset]? = some byte) (hne : byte ≠ 10) :
    (p.next byte).Names source (offset + 1) := by
  obtain ⟨start, hstart, hoffset, hclear⟩ := h.of_line
  have hcolumn := h.column_pos
  rw [next, if_neg hne]
  refine ⟨h.line_pos, Nat.succ_pos _, start, hstart, by simp only; omega, fun i hi hlt => ?_⟩
  rcases Nat.lt_succ_iff_lt_or_eq.mp hlt with hlt | rfl
  · exact hclear i hi hlt
  · rw [hbyte]
    exact fun heq => hne (Option.some.inj heq)

end Position

/-- The position of an offset. -/
def positionAt (source : List Char) (offset : Nat) : Position :=
  Span.position ⟨offset, offset⟩ source

section
variable {source : List Char} {offset : Nat}

/-- Passing a byte moves the position on by that byte. -/
theorem positionAt_succ {byte : UInt8} (h : (utf8 source)[offset]? = some byte) :
    positionAt source (offset + 1) = (positionAt source offset).next byte := by
  have htake : (utf8 source).take (offset + 1) = (utf8 source).take offset ++ [byte] := by
    rw [List.take_add_one, h]
    rfl
  simp only [positionAt, Span.position, Position.next, htake, List.count_append,
    List.reverse_append, List.reverse_singleton, List.singleton_append, List.takeWhile_cons]
  by_cases hfeed : byte = 10
  · simp [hfeed]
  · simp [hfeed]

/-- There is a byte to pass before the end. -/
theorem exists_byte (h : offset < byteLength source) :
    ∃ byte, (utf8 source)[offset]? = some byte := by
  rw [← length_utf8] at h
  exact ⟨_, List.getElem?_eq_getElem h⟩

/-- The next offset has a later position. -/
theorem positionAt_before_succ (h : offset < byteLength source) :
    (positionAt source offset).Before (positionAt source (offset + 1)) := by
  obtain ⟨byte, hbyte⟩ := exists_byte h
  rw [positionAt_succ hbyte]
  exact Position.before_next _ _

/-- Positions come in the order of their offsets. -/
theorem positionAt_before {other : Nat} (h : offset < other) (hother : other ≤ byteLength source) :
    (positionAt source offset).Before (positionAt source other) := by
  induction h with
  | refl => exact positionAt_before_succ hother
  | step _ ih => exact (ih (Nat.le_of_succ_le hother)).trans (positionAt_before_succ hother)

/-- The line that begins behind a line feed is the one after the line feed's own. -/
theorem afterFeed?_line (h : (utf8 source)[offset]? = some 10) :
    afterFeed? source (positionAt source offset).line = some (offset + 1) := by
  obtain ⟨hlt, hfeed⟩ := List.getElem?_eq_some_iff.mp h
  have hbeq : ((utf8 source)[offset] == 10) = true := by rw [hfeed]; rfl
  have hcount := List.countBefore_lt_count_of_lt_length_of_beq hbeq
  have hidx := List.idxOfNth_countBefore_of_lt_length_of_beq hbeq
  rw [List.countBefore_eq_count_take] at hcount hidx
  change afterFeed? source (((utf8 source).take offset).count 10 + 1) = _
  rw [afterFeed?, if_pos hcount, hidx]

/-- The position of an offset names it. -/
theorem names_positionAt (h : offset ≤ byteLength source) :
    (positionAt source offset).Names source offset := by
  induction offset with
  | zero =>
    exact ⟨Nat.one_pos, Nat.one_pos, 0, rfl, rfl, fun i _ hi => absurd hi (Nat.not_lt_zero i)⟩
  | succ offset ih =>
    obtain ⟨byte, hbyte⟩ := exists_byte h
    rw [positionAt_succ hbyte]
    by_cases hfeed : byte = 10
    · -- the line begins right here, so nothing lies between
      subst hfeed
      have hbegin := afterFeed?_line hbyte
      rw [Position.next, if_pos rfl]
      exact ⟨Nat.succ_pos _, Nat.one_pos, offset + 1, hbegin, rfl,
        fun i hi hlt => absurd hlt (Nat.not_lt.mpr hi)⟩
    · exact (ih (Nat.le_of_succ_le h)).next_of_ne hbyte hfeed

end

/-- Positions identify offsets: they come in the order of the offsets, each names the offset it was
computed from, and a start past the end has the position of the end. -/
theorem positions_identify_offsets (source : List Char) :
    (∀ s t : Span, s.start < t.start → t.start ≤ byteLength source →
      (s.position source).Before (t.position source)) ∧
    (∀ s : Span, s.start ≤ byteLength source → (s.position source).Names source s.start) ∧
    ∀ s t : Span, byteLength source ≤ s.start → t.start = byteLength source →
      s.position source = t.position source := by
  refine ⟨fun s t h ht => positionAt_before h ht, fun s hs => names_positionAt hs, ?_⟩
  intro s t hs ht
  have htake : ∀ n, byteLength source ≤ n → (utf8 source).take n = utf8 source :=
    fun n hn => List.take_of_length_le (by rwa [length_utf8])
  rw [Span.position, Span.position, htake s.start hs, htake t.start (Nat.le_of_eq ht.symm)]

/-- A source with an empty line and a character of two bytes. -/
def accented : List Char := ['é', '\n', '\n', 'b']

/-- Positions in a source with a character of two bytes. -/
theorem positions_identify_offsets_accented :
    (Span.position ⟨1, 2⟩ accented).Before (Span.position ⟨3, 4⟩ accented) ∧
    (Span.position ⟨3, 4⟩ accented = ⟨2, 1⟩ ∧ (Span.position ⟨3, 4⟩ accented).Names accented 3) ∧
    (Span.position ⟨4, 9⟩ accented).Names accented 4 ∧
    Span.position ⟨7, 9⟩ accented = Span.position ⟨5, 5⟩ accented := by
  obtain ⟨hbefore, hnames, hend⟩ := positions_identify_offsets accented
  exact ⟨hbefore ⟨1, 2⟩ ⟨3, 4⟩ (by decide) (by decide), ⟨rfl, hnames ⟨3, 4⟩ (by decide)⟩,
    hnames ⟨4, 9⟩ (by decide), hend ⟨7, 9⟩ ⟨5, 5⟩ (by decide) (by decide)⟩

end VertexLanes
