import VertexLanes.Class.Member
import VertexLanes.Text.Lines

/-!
# Parsing source files

A file is read for its class definitions. Everything else at its top level is
skipped, and so are classes inside classes.
-/

namespace VertexLanes

namespace Parser

/-- A definition that ends with a semicolon and is not modelled. -/
def skipDeclaration (c : Cursor) : Parsed Unit :=
  let r := c.untilSemicolon
  let e := r.next.expect .semicolon
  ⟨(), r.faults ++ e.faults, e.next⟩

/-- Skipping a declaration never moves back. -/
theorem size_skipDeclaration_le (c : Cursor) : (skipDeclaration c).next.size ≤ c.size :=
  Nat.le_trans (Cursor.size_expect_le _ _) c.size_untilSemicolon_le

/-- The names after a colon, up to the body of the class. -/
def bases (c : Cursor) : List String × Cursor :=
  if c.at? .colon then
    let taken := c.advance.run (· != .symbol .lbrace)
    ((taken.filter fun t => t.item.isName).map Token.spelling,
      c.advance.afterRun (· != .symbol .lbrace))
  else ([], c)

/-- Reading the bases never moves back. -/
theorem size_bases_le (c : Cursor) : (bases c).2.size ≤ c.size := by
  unfold bases
  split
  · exact Nat.le_trans (Cursor.size_afterRun_le _ _) c.size_advance_le
  · exact Nat.le_refl _

/-- What stands in a class, as far as the first lexeme tells. -/
inductive MemberOpening where
  /-- The beginning of a part with other access. -/
  | access
  /-- Nothing to be kept. -/
  | idle
  /-- A class. -/
  | nested (key : ClassKey)
  /-- A name for a type. -/
  | alias
  /-- A data member or a method. -/
  | member
deriving DecidableEq, Repr

/-- What begins with a lexeme in a class. -/
def MemberOpening.ofLexeme : Lexeme → MemberOpening
  | .keyword .publicKw | .keyword .privateKw | .keyword .protectedKw => .access
  | .symbol .semicolon | .directive _ => .idle
  | .keyword .structKw => .nested .structKey
  | .keyword .classKw => .nested .classKey
  | .keyword .typedefKw | .keyword .usingKw => .alias
  | _ => .member

/-- The data members among the members of a class. -/
def dataOf (members : List Member) : List (Located Field) :=
  members.filterMap fun
    | .data field => some field
    | .function _ => none

/-- The methods among the members of a class. -/
def functionsOf (members : List Member) : List Method :=
  members.filterMap fun
    | .data _ => none
    | .function method => some method

/-- Report a class head that goes on otherwise than it should, and skip the item. -/
def refuseClass {α : Type} (cause : SyntaxFault) (c : Cursor) : Parsed (Option α) :=
  ⟨none, c.fault cause :: c.skipItem.faults, c.skipItem.next⟩

mutual

/-- The members up to the brace that closes the class. -/
def members (c : Cursor) : Within (List Member) c :=
  match hr : c.rest with
  | [] => ⟨⟨[], [], c⟩, Nat.le_refl _⟩
  | t :: _ =>
    if t.is .rbrace then ⟨⟨[], [], c⟩, Nat.le_refl _⟩
    else
      have hne := Cursor.rest_ne_nil_of_eq hr
      have hadv := Cursor.size_advance_lt hne
      let first : { r : Parsed (Option Member) // r.next.size < c.size } :=
        match MemberOpening.ofLexeme t.item with
        | .access =>
          ⟨(c.advance.expect .colon).map fun _ => none,
            Cursor.lt_of_le_advance hne (Cursor.size_expect_le .colon c.advance)⟩
        | .idle => ⟨⟨none, [], c.advance⟩, hadv⟩
        | .nested key =>
          match classDef key t.span c.advance with
          | ⟨r, h⟩ => ⟨r.map fun _ => none, Cursor.lt_of_le_advance hne h⟩
        | .alias =>
          ⟨(skipDeclaration c.advance).map fun _ => none,
            Cursor.lt_of_le_advance hne (size_skipDeclaration_le c.advance)⟩
        | .member => ⟨member c, size_member_lt hne⟩
      have hlt := first.property
      match members first.val.next with
      | ⟨others, h⟩ =>
        ⟨⟨first.val.value.toList ++ others.value, first.val.faults ++ others.faults, others.next⟩,
          Nat.le_trans h (Nat.le_of_lt hlt)⟩
termination_by c.size

/-- A class after the word that introduces it. Nothing is found for a mere declaration. -/
def classDef (key : ClassKey) (start : Span) (c : Cursor) : Within (Option ClassDef) c :=
  match hc : c.rest with
  | ⟨.ident name, span⟩ :: _ =>
    have hadv := Cursor.size_advance_lt (Cursor.rest_ne_nil_of_eq hc)
    if c.advance.at? .semicolon then
      ⟨⟨none, [], c.advance.advance⟩,
        Nat.le_trans c.advance.size_advance_le (Nat.le_of_lt hadv)⟩
    else
      let b := bases c.advance
      have hb : (bases c.advance).2.size < c.size := Nat.lt_of_le_of_lt (size_bases_le _) hadv
      if (bases c.advance).2.at? .lbrace then
        have hopen := Nat.lt_of_le_of_lt (bases c.advance).2.size_advance_le hb
        match members (bases c.advance).2.advance with
        | ⟨body, h⟩ =>
          let close := body.next.expect .rbrace
          let tail := skipDeclaration close.next
          ⟨⟨some
              { key := key
                name := ⟨name, span⟩
                bases := b.1
                fields := dataOf body.value
                methods := functionsOf body.value
                span := start.merge tail.next.before },
            body.faults ++ close.faults ++ tail.faults, tail.next⟩,
            Nat.le_trans (size_skipDeclaration_le _) (Nat.le_trans (Cursor.size_expect_le _ _)
              (Nat.le_trans h (Nat.le_of_lt hopen)))⟩
      else
        ⟨refuseClass (.classBodyExpected name b.2.peek) b.2,
          Nat.le_trans (bases c.advance).2.size_skipItem_le (Nat.le_of_lt hb)⟩
  | _ => ⟨refuseClass (.nameExpected c.peek) c, c.size_skipItem_le⟩
termination_by c.size

end

/-- The classes up to the end of the source. -/
def classes (c : Cursor) : Parsed (List ClassDef) :=
  match _h : c.rest with
  | [] => ⟨[], [], c⟩
  | t :: _ =>
    have hne := Cursor.rest_ne_nil_of_eq _h
    have hadv := Cursor.size_advance_lt hne
    let first : { r : Parsed (Option ClassDef) // r.next.size < c.size } :=
      match MemberOpening.ofLexeme t.item with
      | .idle => ⟨⟨none, [], c.advance⟩, hadv⟩
      | .nested key =>
        match classDef key t.span c.advance with
        | ⟨r, h⟩ => ⟨r, Cursor.lt_of_le_advance hne h⟩
      | _ => ⟨c.skipItem.map fun _ => none, Cursor.size_skipItem_lt hne⟩
    have _hlt := first.property
    let others := classes first.val.next
    ⟨first.val.value.toList ++ others.value, first.val.faults ++ others.faults, others.next⟩
termination_by c.size

end Parser

/-- The line after which the patch of a source begins. -/
def patchMarker : String := "#pragma AUTOMI"

/-- The lines after the first patch marker, up to the next blank line. -/
def patchLines (source : List Char) : List (List Char) :=
  let fromMarker := (Text.lines source).dropWhile fun line =>
    !patchMarker.toList.isPrefixOf (Text.trimStart line)
  fromMarker.tail.takeWhile fun line => !(Text.trim line).isEmpty

/-- Read a source file. Faults of its lexemes are reported before any of its classes is read. -/
def parseFile (source : List Char) : Except (List Diagnostic) SourceFile :=
  let lexed := lex source
  if lexed.faults.isEmpty then
    match Parser.classes lexed.cursor with
    | ⟨classes, [], _⟩ => .ok ⟨(patchLines source).map String.ofList, classes⟩
    | ⟨_, faults, _⟩ => .error (faults.map Located.diagnostic)
  else .error (lexed.faults.map Located.diagnostic)

end VertexLanes
