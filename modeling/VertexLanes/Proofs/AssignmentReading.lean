import VertexLanes.Proofs.BlockReading
import VertexLanes.Proofs.CompoundAssignment
import VertexLanes.Proofs.LexemeDepth

/-!
# Compound assignments in source

A body that is one compound assignment, followed from its text to the annotated
statement. The lexer, the shapes of statements and the annotation each have their
own list of operators. Six of the ten signs are one lexeme and are assignments of
an operator; the other four are read as an operator before a plain assignment,
which then assigns to something else than what was written. The first look at a
statement, for a declaration, ignores brackets.
-/

namespace VertexLanes

open Lexer
open Cursor (Clause depthThrough)

/-! ## Lvalues -/

/-- What can follow an lvalue to make a longer one: a member, arguments or a subscript. -/
inductive Access : List Lexeme → Prop
  | member {link : Symbol} (hlink : link ∈ [Symbol.dot, .arrow, .scope]) (name : String) :
      Access [.symbol link, .ident name]
  | call {inner : List Lexeme} (hinner : depthThrough 0 inner = some 0) :
      Access (.symbol .lparen :: (inner ++ [.symbol .rparen]))
  | subscript {inner : List Lexeme} (hinner : depthThrough 0 inner = some 0) :
      Access (.symbol .lbracket :: (inner ++ [.symbol .rbracket]))

/-- A name with members, calls and subscripts after it. -/
inductive Lvalue : List Lexeme → Prop
  | name (name : String) : Lvalue [.ident name]
  | access {target more : List Lexeme} (htarget : Lvalue target) (hmore : Access more) :
      Lvalue (target ++ more)

/-- Nothing inside a group stands outside all brackets. -/
theorem assignsNothing_group {opening closing : Lexeme} {inner : List Lexeme}
    (h : ∀ l ∈ opening :: (inner ++ [closing]), l.Form) (ho : opening.side = .opening)
    (hi : depthThrough 0 inner = some 0) :
    AssignsNothing ((opening :: (inner ++ [closing])).map Lexeme.spelling) := by
  intro before sign after htokens hdepth
  obtain ⟨ls, others, hls, rfl, hothers⟩ := List.map_eq_append_iff.mp htokens
  obtain ⟨m, ms, rfl, rfl, rfl⟩ := List.map_eq_cons_iff.mp hothers
  have hforms : ∀ l ∈ ls, l.Form := fun l hl => h l (hls ▸ List.mem_append_left _ hl)
  rw [bracketDepth_spelling hforms] at hdepth
  cases ls with
  | nil =>
    obtain ⟨rfl, -⟩ := List.cons.inj hls
    cases hsign : isAssignmentSign opening.spelling with
    | false => rfl
    | true =>
      have hplain := side_of_isAssignmentSign hsign
      rw [(h opening List.mem_cons_self).side_spelling, ho] at hplain
      cases hplain
  | cons l ls =>
    -- What is read so far ends before the closing bracket, so the group is still open.
    obtain ⟨rfl, hinside⟩ : opening = l ∧ inner ++ [closing] = ls ++ m :: ms := List.cons.inj hls
    have hlength := congrArg List.length hinside
    simp only [List.length_append, List.length_cons, List.length_nil] at hlength
    obtain ⟨rest, rfl⟩ : ls <+: inner :=
      List.prefix_of_prefix_length_le ⟨_, hinside.symm⟩ ⟨_, rfl⟩ (by omega)
    rw [Cursor.depthThrough_append] at hi
    obtain ⟨d, hd, -⟩ := Option.bind_eq_some_iff.mp hi
    have hopen := depthOf_of_depthThrough hd
    rw [depthOf, ho] at hdepth
    simp only [Side.change] at hdepth
    omega

/-- Two runs without an assignment, the first of them balanced, have none together. -/
theorem AssignsNothing.append {a b : List String} (ha : AssignsNothing a)
    (hdepth : bracketDepth a = 0) (hb : AssignsNothing b) : AssignsNothing (a ++ b) := by
  have hpass := @Nesting.cut?_append isAssignmentSign 0 a b fun before t after ht hd =>
    ha before t after ht (by simpa using hd)
  have hnone : Nesting.cut? sideOfSpelling isAssignmentSign 0 b = none :=
    (assignsNothing_iff b).mp hb
  rw [hdepth, Int.add_zero, hnone] at hpass
  exact (assignsNothing_iff _).mpr hpass

/-- A token that is no assignment sign assigns nothing. -/
theorem assignsNothing_singleton {t : String} (h : isAssignmentSign t = false) :
    AssignsNothing [t] := by
  intro before sign after htokens _
  have hmem : sign ∈ [t] := htokens ▸ List.mem_append_right before List.mem_cons_self
  rw [List.mem_singleton.mp hmem]
  exact h

/-- An assignment sign begins with one of seven characters. -/
theorem head_of_isAssignmentSign {token : String} (h : isAssignmentSign token = true) :
    ∃ c ∈ ['=', '+', '-', '*', '/', '&', '|'], token.toList.head? = some c := by
  rcases Bool.or_eq_true_iff.mp h with heq | hop
  · exact ⟨'=', by decide, by rw [eq_of_beq heq]; rfl⟩
  · unfold compoundOp? at hop
    split at hop
    case h_7 => cases hop
    all_goals exact ⟨_, by decide, rfl⟩

/-- No name is an assignment sign. -/
theorem isAssignmentSign_name {name : String} (h : (Lexeme.ident name).Form) :
    isAssignmentSign name = false := by
  cases hsign : isAssignmentSign name with
  | false => rfl
  | true =>
    obtain ⟨c, hc, hhead⟩ := head_of_isAssignmentSign hsign
    cases h with
    | ident hstart =>
      have hword : ['=', '+', '-', '*', '/', '&', '|'].all (fun c => !isWordStart c) = true := by
        decide
      have hnot := List.all_eq_true.mp hword c hc
      rw [String.toList_ofList] at hhead
      rw [← Option.some.inj hhead, hstart] at hnot
      cases hnot

namespace Access

variable {ls : List Lexeme}

/-- An access is a clause: it has no semicolon outside brackets, and its brackets are balanced. -/
theorem clause (h : Access ls) : Clause ls := by
  cases h with
  | member hlink name =>
    have hplain : ∀ s ∈ [Symbol.dot, .arrow, .scope],
        (Lexeme.symbol s).side = .plain ∧ Lexeme.symbol s ≠ .symbol .semicolon := by decide
    exact .plain (hplain _ hlink).1 (hplain _ hlink).2 (.plain rfl Lexeme.noConfusion .nil)
  | call hinner => exact .group rfl hinner rfl .nil
  | subscript hinner => exact .group rfl hinner rfl .nil

theorem depthOf_eq (h : Access ls) : depthOf ls = 0 := by
  cases h with
  | member hlink name =>
    have hplain : ∀ s ∈ [Symbol.dot, .arrow, .scope], (Lexeme.symbol s).side = .plain := by decide
    rw [depthOf, depthOf, depthOf, hplain _ hlink]
    rfl
  | call hinner => exact depthOf_group rfl hinner rfl
  | subscript hinner => exact depthOf_group rfl hinner rfl

/-- An access assigns nothing. -/
theorem assignsNothing (h : Access ls) (hforms : ∀ l ∈ ls, l.Form) :
    AssignsNothing (ls.map Lexeme.spelling) := by
  cases h with
  | @member link hlink name =>
    have hsymbol : ∀ s ∈ [Symbol.dot, .arrow, .scope],
        isAssignmentSign s.spelling = false ∧ bracketDepth [s.spelling] = 0 := by decide
    have hname := hforms (.ident name) (List.mem_cons_of_mem _ List.mem_cons_self)
    exact (assignsNothing_singleton (hsymbol link hlink).1).append (hsymbol link hlink).2
      (assignsNothing_singleton (isAssignmentSign_name hname))
  | call hinner => exact assignsNothing_group hforms rfl hinner
  | subscript hinner => exact assignsNothing_group hforms rfl hinner

end Access

namespace Lvalue

variable {ls : List Lexeme}

theorem exists_cons (h : Lvalue ls) : ∃ name others, ls = .ident name :: others := by
  induction h with
  | name name => exact ⟨name, [], rfl⟩
  | access _ _ ih =>
    obtain ⟨name, others, rfl⟩ := ih
    exact ⟨name, _, List.cons_append⟩

theorem ne_nil (h : Lvalue ls) : ls ≠ [] := by
  obtain ⟨name, others, rfl⟩ := h.exists_cons
  exact List.cons_ne_nil _ _

theorem clause (h : Lvalue ls) : Clause ls := by
  induction h with
  | name name => exact .plain rfl Lexeme.noConfusion .nil
  | access _ hmore ih => exact ih.append hmore.clause

theorem depthOf_eq (h : Lvalue ls) : depthOf ls = 0 := by
  induction h with
  | name name => rfl
  | access _ hmore ih => rw [depthOf_append, ih, hmore.depthOf_eq, Int.add_zero]

/-- The spellings of an lvalue are balanced. -/
theorem bracketDepth_eq (h : Lvalue ls) (hforms : ∀ l ∈ ls, l.Form) :
    bracketDepth (ls.map Lexeme.spelling) = 0 := by
  rw [bracketDepth_spelling hforms, h.depthOf_eq]

/-- An lvalue assigns nothing. -/
theorem assignsNothing (h : Lvalue ls) (hforms : ∀ l ∈ ls, l.Form) :
    AssignsNothing (ls.map Lexeme.spelling) := by
  induction h with
  | name name =>
    exact assignsNothing_singleton (isAssignmentSign_name (hforms _ List.mem_cons_self))
  | @access target more htarget hmore ih =>
    obtain ⟨ht, hm⟩ := List.forall_mem_append.mp hforms
    rw [List.map_append]
    exact (ih ht).append (htarget.bracketDepth_eq ht) (hmore.assignsNothing hm)

end Lvalue

/-! ## Signs -/

/-- The signs of compound assignments. -/
inductive CompoundSign where
  | add | sub | mul | div | rem | and | or | xor | shl | shr
deriving DecidableEq, Repr

namespace CompoundSign

/-- The sign as it is written. -/
def spelling : CompoundSign → String
  | .add => "+="
  | .sub => "-="
  | .mul => "*="
  | .div => "/="
  | .rem => "%="
  | .and => "&="
  | .or => "|="
  | .xor => "^="
  | .shl => "<<="
  | .shr => ">>="

/-- The operator that the assignment applies, if vectors have it. -/
def op? : CompoundSign → Option VectorOp
  | .add => some .add
  | .sub => some .sub
  | .mul => some .mul
  | .div => some .div
  | .and => some .and
  | .or => some .or
  | .rem | .xor | .shl | .shr => none

/-- The lexemes that the sign is read as. -/
def lexemes (sign : CompoundSign) : List Lexeme :=
  (lex sign.spelling.toList).tokens.map Located.item

/-- The first symbol that the sign is read as. -/
def mark : CompoundSign → Symbol
  | .add => .plusEq
  | .sub => .minusEq
  | .mul => .starEq
  | .div => .slashEq
  | .rem => .percent
  | .and => .ampEq
  | .or => .pipeEq
  | .xor => .caret
  | .shl => .shl
  | .shr => .shr

variable {sign : CompoundSign}

private theorem mark_mem (sign : CompoundSign) : sign.mark ∈ Shape.binaryOperators := by
  cases sign <;> decide

/-- The sign of an operator of vectors is one symbol, known as such to the annotation. -/
theorem lexemes_of_some {op : VectorOp} (h : sign.op? = some op) :
    sign.lexemes = [.symbol sign.mark] ∧ compoundOp? sign.mark.spelling = some op := by
  cases sign <;> cases h <;> decide +kernel

/-- Any other sign is an operator and a plain assignment. -/
theorem lexemes_of_none (h : sign.op? = none) :
    sign.lexemes = [.symbol sign.mark, .symbol .eq] ∧
      isAssignmentSign sign.mark.spelling = false := by
  cases sign <;> cases h <;> decide +kernel

/-- Either way the sign is a clause that begins with an operator. -/
theorem exists_lexemes (sign : CompoundSign) :
    ∃ more, sign.lexemes = .symbol sign.mark :: more ∧ Clause sign.lexemes := by
  have hmark : (Lexeme.symbol sign.mark).side = .plain ∧
      Lexeme.symbol sign.mark ≠ .symbol .semicolon := by cases sign <;> decide
  cases hop : sign.op? with
  | some op =>
    rw [(lexemes_of_some hop).1]
    exact ⟨[], rfl, .plain hmark.1 hmark.2 .nil⟩
  | none =>
    rw [(lexemes_of_none hop).1]
    exact ⟨_, rfl, .plain hmark.1 hmark.2 (.plain rfl (by decide) .nil)⟩

end CompoundSign

/-- Some name stands directly after what can end a type, before the first `=`, parenthesis or
brace. Other brackets do not matter, so this can be inside a subscript. -/
def DeclaresName (ls : List Lexeme) : Prop :=
  ∃ before first name after,
    ls.takeWhile (fun l => !Shape.endsDeclarator l) = before ++ first :: .ident name :: after ∧
      Shape.endsType before.getLast? ((before ++ [first]).contains (.symbol .lt)) first = true

/-- A declaration is found where a name follows a lexeme that ends a type. -/
theorem Shape.declaresFrom_iff {earlier : Option Lexeme} {opened : Bool} {ls : List Lexeme} :
    declaresFrom earlier opened ls = true ↔ ∃ before first name after,
      ls = before ++ first :: .ident name :: after ∧
        endsType (before.getLast?.or earlier)
          (opened || (before ++ [first]).contains (.symbol .lt)) first = true := by
  induction ls generalizing earlier opened with
  | nil => simp [declaresFrom]
  | cons l ls ih =>
    have hopened : ∀ ms : List Lexeme, (opened || l == .symbol .lt || ms.contains (.symbol .lt)) =
        (opened || (l :: ms).contains (.symbol .lt)) := by
      intro ms
      rw [List.contains_cons, Bool.or_assoc, BEq.comm]
    rw [declaresFrom]
    simp only [Bool.or_eq_true, Bool.and_eq_true]
    rw [ih]
    constructor
    · rintro (⟨hname, hends⟩ | ⟨before, first, name, after, rfl, hends⟩)
      · obtain ⟨name, after, rfl⟩ : ∃ name after, ls = .ident name :: after := by
          cases ls with
          | nil => cases hname
          | cons m ms =>
            cases m with
            | ident name => exact ⟨name, ms, rfl⟩
            | _ => cases hname
        refine ⟨[], l, name, after, rfl, ?_⟩
        rw [List.nil_append, ← hopened, List.contains_nil, Bool.or_false]
        exact hends
      · refine ⟨l :: before, first, name, after, rfl, ?_⟩
        rw [getLast?_cons_or, List.cons_append, ← hopened]
        exact hends
    · rintro ⟨before, first, name, after, hls, hends⟩
      cases before with
      | nil =>
        obtain ⟨rfl, rfl⟩ := List.cons.inj hls
        rw [List.nil_append, ← hopened, List.contains_nil, Bool.or_false] at hends
        exact Or.inl ⟨rfl, hends⟩
      | cons k before =>
        obtain ⟨rfl, rfl⟩ := List.cons.inj hls
        rw [getLast?_cons_or, List.cons_append, ← hopened] at hends
        exact Or.inr ⟨before, first, name, after, rfl, hends⟩

/-- A statement is taken for a declaration if and only if it declares a name before its declarator
ends. -/
theorem declaresName_iff (ls : List Lexeme) :
    Shape.declaresFrom none false (ls.takeWhile fun l => !Shape.endsDeclarator l) = true ↔
      DeclaresName ls := by
  rw [Shape.declaresFrom_iff]
  simp only [Option.or_none, Bool.false_or]
  rfl

instance (ls : List Lexeme) : Decidable (DeclaresName ls) :=
  decidable_of_iff _ (declaresName_iff ls)

/-! ## From text to statement -/

/-- A source that is one simple statement in braces is read as the shape of that statement. -/
theorem parseBlock_of_clause {source : List Char} {first : Lexeme} {others : List Lexeme}
    (hfaults : (lex source).faults = [])
    (hitems : (lex source).tokens.map Located.item =
      .symbol .lbrace :: (first :: others ++ [.symbol .semicolon, .symbol .rbrace]))
    (ho : Parser.Opening.ofLexeme first = .simple) (hclause : Clause (first :: others)) :
    ∃ value semicolon span,
      parseBlock source = .ok (Node.ofStatements [Shape.statement value (some semicolon)] span) ∧
        value.map Located.item = first :: others ∧ semicolon.item = .symbol .semicolon := by
  have hahead : (lex source).cursor.ahead =
      .symbol .lbrace :: (first :: others ++ [.symbol .semicolon, .symbol .rbrace]) := hitems
  obtain ⟨brace, ts, hr, hbrace, hbody⟩ := Cursor.exists_rest_of_ahead hahead
  obtain ⟨value, mid, semicolon, hread, hvalue, hat, hhead, hsemicolon, hafter⟩ :=
    Cursor.untilSemicolon_of_ahead hclause hbody
  obtain ⟨u, us, hur, hu, -⟩ := Cursor.exists_rest_of_ahead hbody
  obtain ⟨closing, rest, hclosing, -, hend⟩ := Cursor.exists_rest_of_ahead hafter
  have hrbrace := Cursor.at_of_ahead hafter
  have hsimple : Parser.Reads .statement 1 (lex source).cursor.advance
      [Shape.statement value mid.rest.head?] mid.advance :=
    .simple hur (by rw [hu, ho]) hread hat
  have hdone : Parser.Reads .statements 1 mid.advance [] mid.advance :=
    .done (by rw [Cursor.atBlockEnd, hrbrace, Bool.or_true])
  have hfirst : first ≠ .symbol .rbrace := by
    rintro rfl
    exact hclause.side_ne_closing rfl
  have hstatements := Parser.Reads.more (Cursor.not_atBlockEnd_of_ahead hbody hfirst) hsimple hdone
  rw [hhead] at hstatements
  have hblock : Parser.Reads (.block brace.span) 0 (lex source).cursor.advance
      [Node.ofStatements [Shape.statement value (some semicolon)]
        (brace.span.merge mid.advance.here)] mid.advance.advance :=
    .block (by decide) hstatements hrbrace
  refine ⟨value, semicolon, _, parseBlock_eq_ok_iff.mpr ⟨hfaults, brace, ts, _, hr, ?_, hblock, ?_⟩,
    hvalue, eq_of_beq hsemicolon⟩
  · rw [Token.is, hbrace, beq_self_eq_true]
  · exact List.map_eq_nil_iff.mp hend

/-- A block of one statement is annotated as that statement. -/
theorem annotate_singleton {n : Node Token} {s : Stmt}
    (h : annotateStmt .root 1 (n.map Token.spelling) = .ok ⟨some s, 1, []⟩) (span : Span) :
    annotate ((Node.ofStatements [n] span).map Token.spelling) = .ok ⟨⟨.root, [s]⟩, 0, []⟩ := by
  rw [Node.ofStatements, Node.map, Node.mapList, Node.mapList, annotate]
  simp [annotateStmts, h, bind, Except.bind, pure, Except.pure]

/-- A body of one declaration is annotated with its tokens. -/
theorem annotate_declaration {ts : List Token} (h : Shape.declares ts = true) (semicolon : Token)
    (span : Span) :
    annotate ((Node.ofStatements [Shape.statement ts (some semicolon)] span).map Token.spelling) =
      .ok ⟨⟨.root, [.declare .root ((ts ++ [semicolon]).map Token.spelling)]⟩, 0, []⟩ := by
  refine annotate_singleton ?_ span
  rw [Shape.statement, if_pos h]
  rfl

/-- A body of one assignment is annotated with the statement read from it. -/
theorem annotate_operation {ts : List Token} {semicolon : Option Token} {s : Stmt}
    (hshape : Shape.statement ts semicolon = Node.ofTokens .operation ts)
    (hs : annotateOperation .root ((Node.ofTokens .operation ts).map Token.spelling) = (some s, []))
    (span : Span) :
    annotate ((Node.ofStatements [Shape.statement ts semicolon] span).map Token.spelling) =
      .ok ⟨⟨.root, [s]⟩, 0, []⟩ := by
  refine annotate_singleton ?_ span
  rw [hshape, annotateStmt_operation .root 1 rfl, hs]

section
variable {sign : CompoundSign} {target value : List Lexeme} {n : Node String}

/-- The assignment of an operator that vectors have. -/
theorem annotateOperation_of_some {op : VectorOp} (hop : sign.op? = some op)
    (htarget : Lvalue target) (hforms : ∀ l ∈ target, l.Form) (hne : value ≠ [])
    (hslots : (Operands.classify (value.map Lexeme.spelling)).slots = 1)
    (hn : n.tokens = (target ++ sign.lexemes ++ value).map Lexeme.spelling) :
    annotateOperation .root n =
      (some (.assign .root (renderExpr (target.map Lexeme.spelling))
        (.binary op (renderExpr (target.map Lexeme.spelling))
          (renderExpr (value.map Lexeme.spelling))) n.span), []) := by
  obtain ⟨hlexemes, hsign⟩ := CompoundSign.lexemes_of_some hop
  have htokens : n.tokens = target.map Lexeme.spelling ++ sign.mark.spelling ::
      value.map Lexeme.spelling := by
    rw [hn, hlexemes]
    simp [Lexeme.spelling]
  exact annotateOperation_compound hsign (by simpa using htarget.ne_nil)
    (htarget.bracketDepth_eq hforms) (htarget.assignsNothing hforms) (by simpa using hne) hslots
    .root htokens

/-- With any other sign the operator is left with the target. -/
theorem annotateOperation_of_none (hop : sign.op? = none) (htarget : Lvalue target)
    (hforms : ∀ l ∈ target, l.Form) (hne : value ≠ [])
    (hslots : (Operands.classify (value.map Lexeme.spelling)).slots = 1)
    (hn : n.tokens = (target ++ sign.lexemes ++ value).map Lexeme.spelling) :
    annotateOperation .root n =
      (some (.assign .root (renderExpr ((target ++ [Lexeme.symbol sign.mark]).map Lexeme.spelling))
        (.pass (renderExpr (value.map Lexeme.spelling))) n.span), []) := by
  obtain ⟨hlexemes, hsign⟩ := CompoundSign.lexemes_of_none hop
  have htokens : n.tokens = (target ++ [Lexeme.symbol sign.mark]).map Lexeme.spelling ++ "=" ::
      value.map Lexeme.spelling := by
    rw [hn, hlexemes]
    simp [Lexeme.spelling, Symbol.spelling]
  have hdepth : bracketDepth ((target ++ [Lexeme.symbol sign.mark]).map Lexeme.spelling) = 0 := by
    have hmark : bracketDepth [sign.mark.spelling] = 0 := by cases sign <;> decide
    rw [List.map_append, bracketDepth_append, htarget.bracketDepth_eq hforms, Int.zero_add]
    exact hmark
  have hassigns : AssignsNothing ((target ++ [Lexeme.symbol sign.mark]).map Lexeme.spelling) := by
    rw [List.map_append]
    exact (htarget.assignsNothing hforms).append (htarget.bracketDepth_eq hforms)
      (assignsNothing_singleton hsign)
  rw [annotateOperation_plain (by simp) hdepth hassigns (by simpa using hne) .root htokens,
    Operands.expr_of_slots_eq_one hslots, hslots]
  rfl

end

/-- Tokens are spelled as their lexemes are. -/
theorem map_spelling_eq {ts : List Token} {ls : List Lexeme} (h : ts.map Located.item = ls) :
    ts.map Token.spelling = ls.map Lexeme.spelling := by
  rw [← h, List.map_map]
  rfl

/-- A body that is one compound assignment of a value without operators to an lvalue, in whatever
layout, is accepted and annotated as one statement, with nothing reported. It is a declaration,
taken over token by token, if it looks like one. Otherwise it is the assignment of the operator
applied to both sides if the sign is one of the six that vectors have; for any other sign it is an
assignment of the value alone, and the operator has become part of the target. -/
theorem compound_assignment_read {source : List Char} {sign : CompoundSign}
    {target value : List Lexeme} (hfaults : (lex source).faults = [])
    (hitems : (lex source).tokens.map Located.item = .symbol .lbrace ::
      (target ++ sign.lexemes ++ value ++ [.symbol .semicolon, .symbol .rbrace]))
    (htarget : Lvalue target) (hvalue : Clause value) (hne : value ≠ [])
    (hslots : (Operands.classify (value.map Lexeme.spelling)).slots = 1) :
    ∃ body s span, parseBlock source = .ok body ∧
      annotate (body.map Token.spelling) = .ok ⟨⟨.root, [s]⟩, 0, []⟩ ∧
      (DeclaresName (target ++ sign.lexemes ++ value) →
        s = .declare .root
          ((target ++ sign.lexemes ++ value ++ [Lexeme.symbol .semicolon]).map Lexeme.spelling)) ∧
      (¬DeclaresName (target ++ sign.lexemes ++ value) → ∀ op, sign.op? = some op →
        s = .assign .root (renderExpr (target.map Lexeme.spelling))
          (.binary op (renderExpr (target.map Lexeme.spelling))
            (renderExpr (value.map Lexeme.spelling))) span) ∧
      (¬DeclaresName (target ++ sign.lexemes ++ value) → sign.op? = none →
        s = .assign .root (renderExpr ((target ++ [Lexeme.symbol sign.mark]).map Lexeme.spelling))
          (.pass (renderExpr (value.map Lexeme.spelling))) span) := by
  obtain ⟨name, others, hname⟩ := htarget.exists_cons
  obtain ⟨more, hmore, hsignClause⟩ := sign.exists_lexemes
  have hforms : ∀ l ∈ target, l.Form := by
    intro l hl
    have hmem : l ∈ (lex source).tokens.map Located.item := by
      rw [hitems]
      simp [hl]
    obtain ⟨t, ht, rfl⟩ := List.mem_map.mp hmem
    exact Lexeme.form_of_mem_lex ht
  have hclause := (htarget.clause.append hsignClause).append hvalue
  obtain ⟨ts, semicolon, span, hparse, hts, hsemicolon⟩ :
      ∃ ts semicolon span,
        parseBlock source = .ok (Node.ofStatements [Shape.statement ts (some semicolon)] span) ∧
          ts.map Located.item = target ++ sign.lexemes ++ value ∧
          semicolon.item = .symbol .semicolon := by
    rw [hname] at hitems hclause ⊢
    exact parseBlock_of_clause hfaults hitems rfl hclause
  have hspellings := map_spelling_eq hts
  have hdeclares : Shape.declares ts = true ↔ DeclaresName (target ++ sign.lexemes ++ value) := by
    rw [← declaresName_iff, ← hts]
    rfl
  by_cases hd : DeclaresName (target ++ sign.lexemes ++ value)
  · refine ⟨_, _, spanOf ts, hparse, annotate_declaration (hdeclares.mpr hd) semicolon span,
      fun _ => ?_, fun hnot => absurd hd hnot, fun hnot => absurd hd hnot⟩
    have hends : (ts ++ [semicolon]).map Located.item =
        target ++ sign.lexemes ++ value ++ [.symbol .semicolon] := by
      rw [List.map_append, hts, List.map_singleton, hsemicolon]
    rw [map_spelling_eq hends]
  · have hshape : Shape.statement ts (some semicolon) = Node.ofTokens .operation ts := by
      rw [hmore, List.append_assoc, List.cons_append] at hts
      obtain ⟨before, rest, rfl, hbefore, hrest⟩ := List.map_eq_append_iff.mp hts
      obtain ⟨u, after, rfl, hu, -⟩ := List.map_eq_cons_iff.mp hrest
      refine Shape.statement_operation _ ?_ ?_ sign.mark_mem hu ?_
      · rintro rfl
        exact htarget.ne_nil hbefore.symm
      · rw [hbefore, htarget.depthOf_eq]
      · exact Bool.eq_false_iff.mpr (mt hdeclares.mp hd)
    cases hop : sign.op? with
    | some op =>
      have hs := annotateOperation_of_some hop htarget hforms hne hslots
        (n := (Node.ofTokens .operation ts).map Token.spelling) hspellings
      refine ⟨_, _, spanOf ts, hparse, annotate_operation hshape hs span,
        fun hyes => absurd hyes hd, fun _ q hq => ?_, fun _ hnone => nomatch hnone⟩
      obtain rfl : op = q := Option.some.inj hq
      rfl
    | none =>
      have hs := annotateOperation_of_none hop htarget hforms hne hslots
        (n := (Node.ofTokens .operation ts).map Token.spelling) hspellings
      exact ⟨_, _, spanOf ts, hparse, annotate_operation hshape hs span,
        fun hyes => absurd hyes hd, fun _ q hq => (nomatch hq), fun _ _ => rfl⟩

/-- An lvalue with every kind of access. -/
def nestedTarget : List Lexeme :=
  [.ident "g", .symbol .arrow, .ident "w", .symbol .lbracket, .ident "i", .symbol .plus,
    .number "1", .symbol .rbracket, .symbol .dot, .ident "at", .symbol .lparen, .ident "k",
    .symbol .comma, .number "0", .symbol .rparen]

theorem lvalue_nestedTarget : Lvalue nestedTarget :=
  have harrow : Access [.symbol .arrow, .ident "w"] := .member (by decide) "w"
  have hsubscript := @Access.subscript [.ident "i", .symbol .plus, .number "1"] rfl
  have hdot : Access [.symbol .dot, .ident "at"] := .member (by decide) "at"
  have hcall := @Access.call [.ident "k", .symbol .comma, .number "0"] rfl
  ((((Lvalue.name "g").access harrow).access hsubscript).access hdot).access hcall

/-- A sum assigned to an element of a member. -/
theorem compound_assignment_read_nested :
    ∃ body span, parseBlock "\x7b g->w[i + 1].at(k,0) += -c; \x7d".toList = .ok body ∧
      annotate (body.map Token.spelling) =
        .ok ⟨⟨.root, [.assign .root "g->w[i + 1].at(k, 0)"
          (.binary .add "g->w[i + 1].at(k, 0)" "-c") span]⟩, 0, []⟩ := by
  obtain ⟨body, s, span, hparse, hannotate, -, hadd, -⟩ := @compound_assignment_read
    "\x7b g->w[i + 1].at(k,0) += -c; \x7d".toList .add nestedTarget [.symbol .minus, .ident "c"]
    (by decide +kernel) (by decide +kernel) lvalue_nestedTarget
    (.plain rfl (by decide) (.plain rfl (by decide) .nil)) (by decide) (by decide +kernel)
  have htarget : renderExpr (nestedTarget.map Lexeme.spelling) = "g->w[i + 1].at(k, 0)" := by
    decide +kernel
  have hvalue : renderExpr ([Lexeme.symbol .minus, .ident "c"].map Lexeme.spelling) = "-c" := by
    decide +kernel
  have hs := hadd (by decide +kernel) .add rfl
  rw [htarget, hvalue] at hs
  exact ⟨body, span, hparse, hs ▸ hannotate⟩

/-- The target of a statement, if it is an assignment. -/
def Stmt.target? : Stmt → Option String
  | .assign _ target _ _ => some target
  | _ => none

/-- A body annotated from its source. -/
def annotateSource (source : String) : Option Annotated :=
  (parseBlock source.toList).toOption.bind fun body =>
    (annotate (body.map Token.spelling)).toOption

/-- The remainder of `x` and `y` is assigned to nothing that was written, and a sum assigned to an
element of `x` is a declaration. Neither is reported. -/
theorem compound_assignment_misread :
    (annotateSource "\x7b x %= y; \x7d").map
        (fun a => (a.root.stmts.map Stmt.target?, a.notices)) = some ([some "x %"], []) ∧
      (annotateSource "\x7b x[i * n] += y; \x7d").map
        (fun a => (a.root.stmts.map Stmt.target?, a.notices)) = some ([none], []) := by
  decide +kernel

end VertexLanes
