import Mathlib.Data.List.Forall2
import VertexLanes.Proofs.DeclarationScopes
import VertexLanes.Proofs.SpanNesting
import VertexLanes.Proofs.StatementContext

/-!
# Declarations read again

The declaration of a local name is written as the spellings of its tokens with one
blank between any two. Since every lexeme but a directive ends at a blank, the
lexemes of the declaration are read back from its line, whatever block or branch it
stands in.
-/

namespace VertexLanes

/-- A text is read without fault as the lexemes of some tokens. -/
def ReadAs (text : String) (tokens : List Token) : Prop :=
  (lex text.toList).faults = [] ∧
    (lex text.toList).tokens.map Located.item = tokens.map Located.item

/-! ## Texts with blanks -/

/-- Spellings with blanks between them are the spaced lexemes. -/
theorem toList_intercalate_spelling (tokens : List Token) :
    (String.intercalate " " (tokens.map Token.spelling)).toList =
      spaced (tokens.map Located.item) := by
  rw [String.toList_intercalate]
  induction tokens with
  | nil => rfl
  | cons t ts ih =>
    cases ts with
    | nil => exact List.append_nil _
    | cons u us =>
      rw [List.map_cons, List.map_cons, List.map_cons, List.map_cons, List.intercalate_cons_cons,
        ← List.map_cons, ← List.map_cons, ih, List.append_assoc]
      rfl

/-- An indented text has two blanks for each step. -/
theorem toList_indented (depth : Nat) (text : String) :
    (indented depth text).toList = List.replicate (2 * depth) ' ' ++ text.toList := by
  induction depth generalizing text with
  | zero => simp [indented]
  | succ depth ih =>
    rw [← indented_indentStep, ih, String.toList_append, Nat.mul_succ, ← List.replicate_append_replicate,
      List.append_assoc]
    rfl

open Lexer in
/-- Readable lexemes are also read back from their text behind some blanks. -/
theorem lex_blanks_spaced (n : Nat) {ls : List Lexeme} (h : ∀ l ∈ ls, l.Readable) :
    (lex (List.replicate n ' ' ++ spaced ls)).faults = [] ∧
      (lex (List.replicate n ' ' ++ spaced ls)).tokens.map Located.item = ls := by
  cases n with
  | zero => exact lex_spaced h
  | succ n =>
    obtain ⟨atStart, hblank⟩ := pieces_blanks true n fun _ => isSpace_head_spaced h
    obtain ⟨hfaults, hitems⟩ := place_pieces_spaced h atStart
      (0 + byteLength (' ' :: List.replicate n ' '))
    rw [List.replicate_succ, List.cons_append, lex, hblank, place]
    constructor
    · rw [List.flatMap_cons, hfaults]
      rfl
    · rw [List.filterMap_cons_none (tokenOf_of_blank rfl), hitems]

/-- Tokens other than directives are read back from their spellings, one blank between any two and
any indentation in front. -/
theorem readAs_indented {source : List Char} {tokens : List Token} (hsub : tokens ⊆ (lex source).tokens)
    (hplain : ∀ t ∈ (lex source).tokens, t.item.isDirective = false) (depth : Nat) :
    ReadAs (indented depth (String.intercalate " " (tokens.map Token.spelling))) tokens := by
  have hread : ∀ l ∈ tokens.map Located.item, l.Readable := by
    intro l hl
    obtain ⟨t, ht, rfl⟩ := List.mem_map.mp hl
    exact readable_of_mem_lex (hsub ht) (hplain t (hsub ht))
  rw [ReadAs, toList_indented, toList_intercalate_spelling]
  exact lex_blanks_spaced (2 * depth) hread

/-! ## Declarations of a body -/

/-- The declarations of local names in statement position of a block, in order. -/
def Node.declarations (root : Node Token) : List (Node Token) :=
  (positions root.children).filter fun n => n.kind == .declaration

/-- The tokens of a statement that declares local names. -/
def Node.local? (n : Node String) : Option (List String) :=
  if n.kind = .declaration then some n.tokens else none

/-- A simple statement is annotated as a declaration if its node is one. -/
theorem Simple.localsOf_eq {label : Label} {n : Node String} {kept : Option Stmt}
    {notes : List (Located BodyNotice)} (h : Simple label n kept notes) :
    localsOf kept.toList = n.local?.toList := by
  cases h with
  | operation hk h =>
    rw [Node.local?, hk]
    cases kept with
    | none => rfl
    | some s =>
      obtain ⟨target, value, rfl, -⟩ := annotateOperation_kept h
      rfl
  | declaration hk =>
    rw [Node.local?, if_pos hk]
    rfl
  | call hk h =>
    rw [Node.local?, hk]
    cases kept with
    | none => rfl
    | some s =>
      obtain ⟨vertex, message, rfl⟩ := annotateCall_kept h
      rfl
  | «return» hk =>
    rw [Node.local?, hk]
    rfl
  | other hk =>
    rw [Node.local?, hk]
    rfl

theorem gathers_localsOf : Gathers localsOf where
  nil := rfl
  cons s ss := by simp [localsOf]
  block _ _ := List.append_nil _
  ifThen _ _ _ _ _ := List.append_nil _
  ifElse _ _ _ _ _ _ _ _ := List.append_nil _

/-- The local names of a walk are those of the statements in statement position, in their order. -/
theorem Walk.localsOf_eq {label : Label} {next : Nat} {ns : List (Node String)}
    {r : Noted (List Stmt)} (h : Walk label next ns r) :
    localsOf r.value = (positions ns).flatMap fun n => n.local?.toList := by
  refine h.gather_eq gathers_localsOf (fun n hn => ?_) Simple.localsOf_eq
  rw [Node.local?, if_neg (by rintro hk; rw [hk] at hn; cases hn)]
  rfl

/-- An annotated body declares the local names of its declarations. -/
theorem localsOf_of_annotate {root : Node Token} {a : Annotated}
    (h : annotate (root.map Token.spelling) = .ok a) :
    localsOf a.root.stmts = root.declarations.map fun n => n.tokens.map Token.spelling := by
  obtain ⟨-, r, hw, rfl⟩ := walk_of_annotate h
  rw [Node.children_map] at hw
  rw [hw.localsOf_eq, foundIn_map, foundIn, Node.declarations]
  induction positions root.children with
  | nil => rfl
  | cons n ns ih =>
    rw [List.flatMap_cons, ih, List.filter_cons]
    obtain ⟨kind, spelling, tokens, children, span⟩ := n
    cases kind <;> rfl

/-- The lines of code that declare local names. -/
def localLines (p : Policy) (code : List Line) : List String :=
  ((textLines code).filter fun line => line.role.local?.isSome).map (TextLine.text p)

/-- The lines that declare local names are the texts of their declarations, indented. -/
theorem forall₂_localLines (p : Policy) (lines : List TextLine) :
    List.Forall₂ (fun tokens text => ∃ depth, text = indented depth (String.intercalate " " tokens))
      (lines.filterMap fun line => line.role.local?)
      ((lines.filter fun line => line.role.local?.isSome).map (TextLine.text p)) := by
  induction lines with
  | nil => exact .nil
  | cons line lines ih =>
    obtain ⟨depth, role⟩ := line
    cases role with
    | declare tokens => exact .cons ⟨depth, rfl⟩ ih
    | _ => exact ih

/-! ## Declarations of an accepted source -/

section
variable {root : Node Token}

mutual
/-- What stands in statement position of a tree is a node of the tree. -/
theorem Node.Reaches.inner : ∀ n : Node Token, root.Reaches n → ∀ m ∈ n.inner, root.Reaches m
  | ⟨.block, _, _, children, _⟩, h, m, hm => by
    refine reaches_positions children (fun child hc => h.child ?_) m hm
    rwa [Node.properChildren_of_kind NodeKind.noConfusion]
  | ⟨.conditional, _, _, [], _⟩, _, _, hm => by cases hm
  | ⟨.conditional, _, _, test :: branches, _⟩, h, m, hm => by
    refine reaches_innerOf branches (fun child hc => h.child ?_) m hm
    rw [Node.properChildren_of_kind NodeKind.noConfusion]
    exact List.mem_cons_of_mem test hc
  | ⟨.operation, _, _, _, _⟩, _, _, hm => by cases hm
  | ⟨.declaration, _, _, _, _⟩, _, _, hm => by cases hm
  | ⟨.call, _, _, _, _⟩, _, _, hm => by cases hm
  | ⟨.return, _, _, _, _⟩, _, _, hm => by cases hm
  | ⟨.other, _, _, _, _⟩, _, _, hm => by cases hm
/-- A tree that reaches branches reaches the statements in them. -/
theorem reaches_innerOf : ∀ branches : List (Node Token), (∀ b ∈ branches, root.Reaches b) →
    ∀ m ∈ innerOf branches, root.Reaches m
  | [], _, _, hm => by cases hm
  | b :: bs, h, m, hm => by
    obtain ⟨hfirst, hothers⟩ := List.forall_mem_cons.mp h
    rcases List.mem_append.mp hm with hm | hm
    · exact Node.Reaches.inner b hfirst m hm
    · exact reaches_innerOf bs hothers m hm
/-- A tree that reaches statements reaches those inside them. -/
theorem reaches_positions : ∀ ns : List (Node Token), (∀ n ∈ ns, root.Reaches n) →
    ∀ m ∈ positions ns, root.Reaches m
  | [], _, _, hm => by cases hm
  | n :: ns, h, m, hm => by
    obtain ⟨hfirst, hothers⟩ := List.forall_mem_cons.mp h
    rw [positions, List.mem_cons, List.mem_append] at hm
    rcases hm with rfl | hm | hm
    · exact hfirst
    · exact Node.Reaches.inner n hfirst m hm
    · exact reaches_positions ns hothers m hm
end

/-- The tokens of the declarations of an accepted source are tokens of the source. -/
theorem subset_of_mem_declarations {source : List Char} (h : parseBlock source = .ok root)
    {n : Node Token} (hn : n ∈ root.declarations) : n.tokens ⊆ (lex source).tokens := by
  have hk : root.kind ≠ .call := by
    obtain ⟨-, first, ts, next, -, -, hread, -⟩ := parseBlock_eq_ok_iff.mp h
    rw [hread.blocksOnly root List.mem_cons_self]
    exact NodeKind.noConfusion
  have hreaches : root.Reaches n := by
    refine reaches_positions root.children (fun child hc => Node.Reaches.root.child ?_) n
      (List.mem_of_mem_filter hn)
    rwa [Node.properChildren_of_kind hk]
  obtain ⟨run, -, hrun, -, htokens, -⟩ := hreaches.exists_run h
  exact (htokens.trans hrun).subset

end

/-- Declarations are written verbatim. The tokens of a source without directives are read back from
their spellings with one blank between any two. If the source is accepted and annotated, then under
every policy the lines that declare local names correspond to the declarations of the source in
order, and each line is read as the tokens of its declaration; so is the line of a declaration under
any label at any depth. -/
theorem declarations_verbatim {source : List Char}
    (hplain : ∀ t ∈ (lex source).tokens, t.item.isDirective = false) :
    ReadAs (String.intercalate " " ((lex source).tokens.map Token.spelling)) (lex source).tokens ∧
      ∀ root a, parseBlock source = .ok root → annotate (root.map Token.spelling) = .ok a →
        ∀ p : Policy,
          render p (lowerBody p a.root) = (textLines (lowerBody p a.root)).map (TextLine.text p) ∧
          List.Forall₂ (fun n line => ReadAs line n.tokens) root.declarations
            (localLines p (lowerBody p a.root)) ∧
          ∀ n ∈ root.declarations, ∀ label depth, ∃ line,
            render p ((Stmt.declare label (n.tokens.map Token.spelling)).lower p depth) = [line] ∧
              ReadAs line n.tokens := by
  constructor
  · have hread := readAs_indented (List.Subset.refl (lex source).tokens) hplain 0
    rwa [indented, List.replicate_zero, String.join_nil, String.empty_append] at hread
  · intro root a hroot ha p
    have hread : ∀ n ∈ root.declarations, ∀ depth,
        ReadAs (indented depth (String.intercalate " " (n.tokens.map Token.spelling))) n.tokens :=
      fun n hn => readAs_indented (subset_of_mem_declarations hroot hn) hplain
    refine ⟨render_eq_map_text p _, ?_, fun n hn label depth => ⟨_, rfl, hread n hn depth⟩⟩
    have hlines := forall₂_localLines p (textLines (lowerBody p a.root))
    rw [lowerBody, local?_lowerAll, localsOf_of_annotate ha, List.forall₂_map_left_iff] at hlines
    refine ((List.forall₂_and_left _ _).mpr ⟨hread, hlines⟩).imp ?_
    rintro n line ⟨hn, depth, rfl⟩
    exact hn depth

/-- Declarations in the body and in both branches of a conditional, with a number, literals and signs
that are not read as they look. -/
def denseDeclarations : String :=
  "\x7bint n=0x1'0p+3f;if(a)\x7bchar c='\\'';\x7delse\x7bauto k=a+++b>>=\"\\\"//\";\x7d\x7d"

/-- The declarations of a dense source, each read back from its line. -/
theorem declarations_verbatim_dense :
    (∀ t ∈ (lex denseDeclarations.toList).tokens, t.item.isDirective = false) ∧
      ∃ root a, parseBlock denseDeclarations.toList = .ok root ∧
        annotate (root.map Token.spelling) = .ok a ∧
        localLines ⟨true, "ready", "vec"⟩ (lowerBody ⟨true, "ready", "vec"⟩ a.root) =
          ["  int n = 0x1'0p + 3f ;", "    char c = '\\'' ;",
            "    auto k = a ++ + b >> = \"\\\"//\" ;"] ∧
        List.Forall₂ (fun n line => ReadAs line n.tokens) root.declarations
          (localLines ⟨true, "ready", "vec"⟩ (lowerBody ⟨true, "ready", "vec"⟩ a.root)) := by
  have hplain : ((lex denseDeclarations.toList).tokens.all fun t => !t.item.isDirective) = true := by
    decide +kernel
  have hplain' : ∀ t ∈ (lex denseDeclarations.toList).tokens, t.item.isDirective = false := by
    simpa using hplain
  have hread : (parseBlock denseDeclarations.toList).toOption.map (fun root =>
      (annotate (root.map Token.spelling)).toOption.map fun a =>
        localLines ⟨true, "ready", "vec"⟩ (lowerBody ⟨true, "ready", "vec"⟩ a.root)) =
      some (some ["  int n = 0x1'0p + 3f ;", "    char c = '\\'' ;",
        "    auto k = a ++ + b >> = \"\\\"//\" ;"]) := by
    decide +kernel
  obtain ⟨root, hroot, hlower⟩ := exists_eq_ok hread
  obtain ⟨a, ha, hlines⟩ := exists_eq_ok hlower
  have hverbatim := (declarations_verbatim hplain').2 root a hroot ha ⟨true, "ready", "vec"⟩
  exact ⟨hplain', root, a, hroot, ha, hlines, hverbatim.2.1⟩

end VertexLanes
