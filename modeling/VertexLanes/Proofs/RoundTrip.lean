import VertexLanes.Proofs.BareTree
import VertexLanes.Proofs.BlockReading
import VertexLanes.Proofs.ClauseReading
import VertexLanes.Proofs.Relexing
import VertexLanes.Proofs.StatementPosition

/-!
# Printing a block and reading it back

A block that was read is printed in a canonical form, in which every branch has
braces, no statement is empty, and one blank stands between any two lexemes. The
text is read as the same tree, places apart. A loop keeps no body and cannot be
printed; and since the canonical form writes the braces that a branch may leave
out, no more blocks may stand inside one another than can be read with braces.

The argument has two halves. Whatever is read without fault and has no loops is
printable, which says of each statement what its lexemes are like. And whatever
is printable is read back from its lexemes, wherever they stand.
-/

namespace VertexLanes

mutual
/-- The lexemes of a statement in canonical form. -/
def Node.lexemes : Node Lexeme → List Lexeme
  | ⟨.block, _, _, children, _⟩ => .symbol .lbrace :: (lexemesOf children ++ [.symbol .rbrace])
  | ⟨.conditional, _, _, test :: branches, _⟩ =>
    .keyword .ifKw :: .symbol .lparen :: (test.tokens ++ .symbol .rparen :: branchLexemes branches)
  | ⟨.declaration, _, tokens, _, _⟩ => tokens
  | ⟨_, _, tokens, _, _⟩ => tokens ++ [.symbol .semicolon]
/-- The lexemes of statements, one after another. -/
def lexemesOf : List (Node Lexeme) → List Lexeme
  | [] => []
  | n :: ns => n.lexemes ++ lexemesOf ns
/-- The lexemes of the branches of a conditional. -/
def branchLexemes : List (Node Lexeme) → List Lexeme
  | [] => []
  | [b] => b.lexemes
  | b :: bs => b.lexemes ++ .keyword .elseKw :: branchLexemes bs
end

/-- The canonical text of a tree. -/
def Node.canonicalText (n : Node Token) : List Char := spaced n.bare.lexemes

mutual
/-- The greatest number of blocks on a path from the root of a tree to a leaf. -/
def Node.blockDepth {τ : Type} : Node τ → Nat
  | ⟨kind, _, _, children, _⟩ => (if kind = .block then 1 else 0) + blockDepthOf children
/-- The greatest number of blocks on a path through one of several trees. -/
def blockDepthOf {τ : Type} : List (Node τ) → Nat
  | [] => 0
  | n :: ns => max n.blockDepth (blockDepthOf ns)
end

/-- Whether a statement is a loop, whose body was not kept. -/
def Node.isLoop {τ : Type} (n : Node τ) : Bool :=
  n.kind == .other && ["for", "while", "switch", "do"].contains n.spelling

open VertexLanes.Parser VertexLanes.Cursor

/-- Statements that their canonical form can be read as, with lexemes that satisfy `P`. -/
inductive Printable (P : Lexeme → Prop) : Node Lexeme → Prop
  | block {ns : List (Node Lexeme)} (h : ∀ n ∈ ns, Printable P n) :
      Printable P ⟨.block, "", [], ns, Span.nowhere⟩
  | conditional {test : List Token} {branches : List (Node Lexeme)} (ht : test ≠ [])
      (hp : ∀ t ∈ test, P t.item) (hi : depthThrough 0 (test.map Located.item) = some 0)
      (hlen : branches.length = 1 ∨ branches.length = 2) (hk : ∀ b ∈ branches, b.kind = .block)
      (h : ∀ b ∈ branches, Printable P b) :
      Printable P
        ⟨.conditional, "", [], (Shape.expression test).bare :: branches, Span.nowhere⟩
  | returned {value : List Token} (hp : ∀ t ∈ value, P t.item)
      (hc : Clause (value.map Located.item)) :
      Printable P
        ⟨.return, "", .keyword .returnKw :: value.map Located.item,
          bareList (if value.isEmpty then [] else [Shape.expression value]), Span.nowhere⟩
  | simple {first : Token} {others : List Token} {semicolon : Token}
      (ho : Opening.ofLexeme first.item = .simple) (hp : ∀ t ∈ first :: others, P t.item)
      (hc : Clause ((first :: others).map Located.item)) (hs : semicolon.is .semicolon = true) :
      Printable P (Shape.statement (first :: others) (some semicolon)).bare

/-- A simple statement is printed as its clause and a semicolon, whatever its kind. -/
theorem lexemes_statement (ts : List Token) {semicolon : Token}
    (hs : semicolon.is .semicolon = true) :
    (Shape.statement ts (some semicolon)).bare.lexemes =
      ts.map Located.item ++ [.symbol .semicolon] := by
  have hitem : semicolon.item = .symbol .semicolon := eq_of_beq hs
  unfold Shape.statement
  split
  · simp [Node.ofTokens, Node.bare, Node.lexemes, hitem]
  · split
    · rfl
    · unfold Shape.call?
      simp only
      split
      · rfl
      · unfold Shape.expression Node.ofTokens
        simp only [Option.getD_none]
        split <;> rfl

/-- A statement that is read back from its lexemes at a given depth, wherever they stand. An `else`
after a conditional would be taken for its own. -/
def Node.Rereads (b : Node Lexeme) : Prop :=
  ∀ (depth : Nat) (c : Cursor) (follow : List Lexeme), c.ahead = b.lexemes ++ follow →
    depth + b.blockDepth ≤ maxDepth →
    (b.kind = .conditional → follow.head? ≠ some (.keyword .elseKw)) →
    ∃ n next, Reads .statement depth c [n] next ∧ n.bare = b ∧ next.ahead = follow

/-- No printable statement begins like the end of a block or an `else`. -/
theorem Printable.exists_lexemes {P : Lexeme → Prop} {b : Node Lexeme} (h : Printable P b) :
    ∃ l ls, b.lexemes = l :: ls ∧ l ≠ .symbol .rbrace ∧ l ≠ .keyword .elseKw := by
  cases h with
  | block => exact ⟨_, _, rfl, by decide, by decide⟩
  | conditional => exact ⟨_, _, rfl, by decide, by decide⟩
  | returned => exact ⟨_, _, rfl, by decide, by decide⟩
  | @simple first others semicolon ho hp hc hs =>
    refine ⟨first.item, _, lexemes_statement _ hs, ?_, ?_⟩
    · intro hbrace
      exact hc.side_ne_closing (by rw [hbrace]; rfl)
    · intro helse
      rw [helse] at ho
      cases ho

/-- No node of a list is deeper than the list. -/
theorem blockDepth_le_of_mem {τ : Type} {n : Node τ} {ns : List (Node τ)} (h : n ∈ ns) :
    n.blockDepth ≤ blockDepthOf ns := by
  induction ns with
  | nil => cases h
  | cons m ns ih =>
    rw [blockDepthOf]
    rcases List.mem_cons.mp h with rfl | h
    · exact Nat.le_max_left _ _
    · exact Nat.le_trans (ih h) (Nat.le_max_right _ _)

/-- Statements that are each read back are read back in their sequence. -/
theorem reads_statements {P : Lexeme → Prop} {bs : List (Node Lexeme)}
    (hp : ∀ b ∈ bs, Printable P b) (hb : ∀ b ∈ bs, b.Rereads) (depth : Nat) {c : Cursor}
    {follow : List Lexeme} (hc : c.ahead = lexemesOf bs ++ .symbol .rbrace :: follow)
    (hd : depth + blockDepthOf bs ≤ maxDepth) :
    ∃ ns next, Reads .statements depth c ns next ∧ bareList ns = bs ∧
      next.ahead = .symbol .rbrace :: follow := by
  induction bs generalizing c with
  | nil =>
    refine ⟨[], c, .done ?_, rfl, hc⟩
    rw [atBlockEnd, at_of_ahead hc, Bool.or_true]
  | cons b bs ih =>
    obtain ⟨l, ls, hl, hbrace, -⟩ := (hp b List.mem_cons_self).exists_lexemes
    have hrest : ∀ b' ∈ bs, b' ∈ b :: bs := fun b' h => List.mem_cons_of_mem b h
    have hfollow : (lexemesOf bs ++ .symbol .rbrace :: follow).head? ≠ some (.keyword .elseKw) := by
      cases bs with
      | nil => simp [lexemesOf]
      | cons b' bs =>
        obtain ⟨l', ls', hl', -, helse⟩ := (hp b' (hrest b' List.mem_cons_self)).exists_lexemes
        simpa [lexemesOf, hl'] using helse
    rw [lexemesOf, List.append_assoc] at hc
    rw [blockDepthOf] at hd
    obtain ⟨n, mid, hread, hbare, hmid⟩ :=
      hb b List.mem_cons_self depth c _ hc (by omega) fun _ => hfollow
    obtain ⟨ns, next, hreads, hbares, hnext⟩ :=
      ih (fun b' h => hp b' (hrest b' h)) (fun b' h => hb b' (hrest b' h)) hmid (by omega)
    rw [hl] at hc
    refine ⟨[n] ++ ns, next, .more (not_atBlockEnd_of_ahead hc hbrace) hread hreads, ?_, hnext⟩
    rw [List.singleton_append, bareList, hbare, hbares]

/-- A block is read back if its statements are. -/
theorem rereads_block {P : Lexeme → Prop} {bs : List (Node Lexeme)}
    (hp : ∀ b ∈ bs, Printable P b) (hb : ∀ b ∈ bs, b.Rereads) :
    Node.Rereads ⟨.block, "", [], bs, Span.nowhere⟩ := by
  intro depth c follow hc hd _
  rw [Node.lexemes, List.cons_append, List.append_assoc] at hc
  rw [Node.blockDepth, if_pos rfl] at hd
  obtain ⟨t, ts, hr, ht, hadvance⟩ := exists_rest_of_ahead hc
  obtain ⟨ns, next, hreads, hbare, hnext⟩ :=
    reads_statements hp hb (depth + 1) hadvance (by omega)
  obtain ⟨-, -, -, -, hafter⟩ := exists_rest_of_ahead hnext
  refine ⟨_, _, .nested hr (by rw [ht]; rfl) (.block (by omega) hreads (at_of_ahead hnext)),
    ?_, hafter⟩
  rw [Node.ofStatements, Node.bare, hbare]
  rfl

/-- A return is reread. -/
theorem rereads_returned {value : List Token} (hc : Clause (value.map Located.item)) :
    Node.Rereads ⟨.return, "", .keyword .returnKw :: value.map Located.item,
      bareList (if value.isEmpty then [] else [Shape.expression value]), Span.nowhere⟩ := by
  intro depth c follow hahead _ _
  change c.ahead = .keyword .returnKw ::
    (value.map Located.item ++ [.symbol .semicolon] ++ follow) at hahead
  rw [List.append_assoc] at hahead
  obtain ⟨t, ts, hr, ht, hadvance⟩ := exists_rest_of_ahead hahead
  obtain ⟨value', mid, semicolon, hread, hvalue, hs, -, -, hafter⟩ :=
    untilSemicolon_of_ahead hc hadvance
  refine ⟨_, _, .returned hr (by rw [ht]; rfl) hread hs, ?_, hafter⟩
  have hempty : value'.isEmpty = value.isEmpty := by
    rw [← List.isEmpty_map, hvalue, List.isEmpty_map]
  have hchildren : bareList (if value'.isEmpty then [] else [Shape.expression value']) =
      bareList (if value.isEmpty then [] else [Shape.expression value]) := by
    rw [hempty]
    split
    · rfl
    · exact congrArg (fun n => [n]) (Shape.bare_expression_congr hvalue)
  rw [Node.bare, hchildren, List.map_cons, ht, hvalue]

/-- A simple statement is reread. -/
theorem rereads_simple {first : Token} {others : List Token} {semicolon : Token}
    (ho : Opening.ofLexeme first.item = .simple)
    (hc : Clause ((first :: others).map Located.item)) (hs : semicolon.is .semicolon = true) :
    (Shape.statement (first :: others) (some semicolon)).bare.Rereads := by
  intro depth c follow hahead _ _
  rw [lexemes_statement _ hs, List.append_assoc] at hahead
  obtain ⟨value', mid, semicolon', hread, hvalue, hat, hhead, hs', hafter⟩ :=
    untilSemicolon_of_ahead hc hahead
  obtain ⟨t, ts, hr, ht, -⟩ := exists_rest_of_ahead hahead
  refine ⟨_, _, .simple hr (by rw [ht, ho]) hread hat, ?_, hafter⟩
  rw [hhead]
  refine Shape.bare_statement_congr hvalue ?_
  rw [Option.map_some, Option.map_some, eq_of_beq hs, eq_of_beq hs']

/-- A statement that begins with a brace is a block. -/
theorem Parser.Reads.block_of_lbrace {depth : Nat} {c next : Cursor} {ns : List (Node Token)}
    (h : Reads .statement depth c ns next) (hb : c.at? .lbrace = true) :
    Reads (.block c.here) depth c.advance ns next := by
  have hopening : ∀ {t : Token} {ts : List Token}, c.rest = t :: ts →
      Opening.ofLexeme t.item = .block := by
    intro t ts hr
    rw [at?, peek, hr] at hb
    have ht : t.item = .symbol .lbrace := by simpa using hb
    rw [ht]
    rfl
  cases h with
  | nested hr _ inner => rwa [here, hr]
  | empty hr ho => cases ho.symm.trans (hopening hr)
  | chosen hr ho => cases ho.symm.trans (hopening hr)
  | returned hr ho => cases ho.symm.trans (hopening hr)
  | loop hr ho => cases ho.symm.trans (hopening hr)
  | doLoop hr ho => cases ho.symm.trans (hopening hr)
  | simple hr ho => cases ho.symm.trans (hopening hr)

/-- The lexemes of a block begin with a brace. -/
theorem at_lbrace_of_ahead {b : Node Lexeme} (hk : b.kind = .block) {c : Cursor}
    {follow : List Lexeme} (hc : c.ahead = b.lexemes ++ follow) : c.at? .lbrace = true := by
  obtain ⟨kind, spelling, tokens, children, span⟩ := b
  cases hk
  exact at_of_ahead hc

/-- A block that is reread is read as a branch. -/
theorem reads_branch {b : Node Lexeme} (hk : b.kind = .block) (h : b.Rereads) {depth : Nat}
    {c : Cursor} {follow : List Lexeme} (hc : c.ahead = b.lexemes ++ follow)
    (hd : depth + b.blockDepth ≤ maxDepth) :
    ∃ n next, Reads .branch depth c [n] next ∧ n.bare = b ∧ next.ahead = follow := by
  obtain ⟨n, next, hread, hbare, hnext⟩ := h depth c follow hc hd fun hcond => by
    cases hk.symm.trans hcond
  have hbrace := at_lbrace_of_ahead hk hc
  exact ⟨n, next, .braced hbrace (hread.block_of_lbrace hbrace), hbare, hnext⟩

/-- A test between parentheses is read back. -/
theorem condition_of_ahead {test : List Token} (ht : test ≠ [])
    (hi : depthThrough 0 (test.map Located.item) = some 0) {c : Cursor} {follow : List Lexeme}
    (hc : c.ahead = .symbol .lparen :: (test.map Located.item ++ .symbol .rparen :: follow)) :
    ∃ test' mid, condition c = ⟨some (Shape.expression test'), [], mid⟩ ∧
      test'.map Located.item = test.map Located.item ∧ mid.ahead = follow := by
  obtain ⟨opening, ts, hr, -, hts⟩ := List.map_eq_cons_iff.mp hc
  obtain ⟨test', after, rfl, htest, hafter⟩ := List.map_eq_append_iff.mp hts
  obtain ⟨closing, rest, rfl, hclosing, rfl⟩ := List.map_eq_cons_iff.mp hafter
  have hside : Token.side closing = .closing := by rw [Token.side, hclosing]; rfl
  obtain ⟨hvalue, hfaults, hnext⟩ := group_append hr (htest ▸ hi) hside
  have hne : test' ≠ [] := by
    rintro rfl
    exact ht (List.map_eq_nil_iff.mp htest.symm)
  refine ⟨test', c.group.next, ?_, htest, ?_⟩
  · rw [condition, if_pos (at_of_ahead hc)]
    simp only [hvalue, hfaults, List.tail_cons]
    have hlast : (test' ++ [closing]).dropLast = test' := List.dropLast_concat
    have hcons : test' ++ [closing] ≠ [] := List.append_ne_nil_of_right_ne_nil _ (by simp)
    generalize test' ++ [closing] = inner at hlast hcons ⊢
    cases inner with
    | nil => exact absurd rfl hcons
    | cons t ts =>
      simp only [hlast]
      rw [if_neg (by simpa using hne)]
  · rw [ahead, hnext]

/-- A conditional is reread if its branches are. -/
theorem rereads_conditional {test : List Token} {branches : List (Node Lexeme)} (ht : test ≠ [])
    (hi : depthThrough 0 (test.map Located.item) = some 0)
    (hlen : branches.length = 1 ∨ branches.length = 2) (hk : ∀ b ∈ branches, b.kind = .block)
    (h : ∀ b ∈ branches, b.Rereads) :
    Node.Rereads
      ⟨.conditional, "", [], (Shape.expression test).bare :: branches, Span.nowhere⟩ := by
  intro depth c follow hahead hd helse
  have hdepth : ∀ b ∈ branches, depth + b.blockDepth ≤ maxDepth := by
    intro b hb
    have hle := blockDepth_le_of_mem (List.mem_cons_of_mem (Shape.expression test).bare hb)
    rw [Node.blockDepth] at hd
    omega
  change c.ahead = .keyword .ifKw :: .symbol .lparen ::
    ((test.map Located.item ++ .symbol .rparen :: branchLexemes branches) ++ follow) at hahead
  rw [List.append_assoc, List.cons_append] at hahead
  obtain ⟨t, ts, hr, hif, hadvance⟩ := exists_rest_of_ahead hahead
  obtain ⟨test', mid, hcond, htest, hmid⟩ := condition_of_ahead ht hi hadvance
  have hbare := Shape.bare_expression_congr htest
  rcases hlen with hlen | hlen
  · obtain ⟨b, rfl⟩ := List.length_eq_one_iff.mp hlen
    obtain ⟨n, next, hread, hn, hnext⟩ := reads_branch (hk b List.mem_cons_self)
      (h b List.mem_cons_self) hmid (hdepth b List.mem_cons_self)
    have hno : next.atKeyword? .elseKw = false := by
      rw [atKeyword?, peek_eq_head?_ahead, hnext]
      simpa using helse rfl
    refine ⟨_, _, .chosen hr (by rw [hif]; rfl) (.ifThen hcond hread hno), ?_, hnext⟩
    rw [Node.bare, bareList, bareList, bareList, hbare, hn]
    rfl
  · obtain ⟨first, second, rfl⟩ := List.length_eq_two.mp hlen
    have hsecond : second ∈ [first, second] := List.mem_cons_of_mem first List.mem_cons_self
    change mid.ahead = (first.lexemes ++ .keyword .elseKw :: second.lexemes) ++ follow at hmid
    rw [List.append_assoc] at hmid
    obtain ⟨n, next, hread, hn, hnext⟩ := reads_branch (hk first List.mem_cons_self)
      (h first List.mem_cons_self) hmid (hdepth first List.mem_cons_self)
    obtain ⟨u, us, hu, helse', hafter⟩ := exists_rest_of_ahead hnext
    obtain ⟨m, last, hreadElse, hm, hlast⟩ := reads_branch (hk second hsecond) (h second hsecond)
      hafter (hdepth second hsecond)
    have hyes : next.atKeyword? .elseKw = true := by
      rw [atKeyword?, peek_eq_head?_ahead, hnext]
      exact beq_self_eq_true _
    refine ⟨_, _, .chosen hr (by rw [hif]; rfl) (.ifElse hcond hread hyes hreadElse), ?_, hlast⟩
    rw [Node.bare, bareList, bareList, bareList, bareList, hbare, hn, hm]
    rfl

/-- Whatever is printable is read back from its lexemes. -/
theorem Printable.rereads {P : Lexeme → Prop} {b : Node Lexeme} (h : Printable P b) :
    b.Rereads := by
  induction h with
  | block h ih => exact rereads_block h ih
  | conditional ht _ hi hlen hk _ ih => exact rereads_conditional ht hi hlen hk ih
  | returned _ hc => exact rereads_returned hc
  | simple ho _ hc hs => exact rereads_simple ho hc hs

/-- Only the keyword opens a return. -/
theorem returnKw_of_ofLexeme {l : Lexeme} (h : Opening.ofLexeme l = .returning) :
    l = .keyword .returnKw := by
  cases l with
  | keyword k =>
    cases k with
    | returnKw => rfl
    | _ => cases h
  | symbol s => cases s <;> cases h
  | _ => cases h

/-- What a loop keyword opens is a loop. -/
theorem isLoop_of_ofLexeme {t : Token} (h : Opening.ofLexeme t.item = .loop ∨
    Opening.ofLexeme t.item = .doLoop) (tokens : List Token) (span : Span) :
    Node.isLoop ⟨.other, t.spelling, tokens, [], span⟩ = true := by
  obtain ⟨l, place⟩ := t
  cases l with
  | keyword k =>
    cases k with
    | forKw => rfl
    | whileKw => rfl
    | switchKw => rfl
    | doKw => rfl
    | _ => rcases h with h | h <;> cases h
  | symbol s => cases s <;> rcases h with h | h <;> cases h
  | _ => rcases h with h | h <;> cases h

/-- A test that is read without fault stands between an opening parenthesis and a bracket that
closes it. -/
theorem depthThrough_of_condition {c mid : Cursor} {test : Node Token}
    (h : condition c = ⟨some test, [], mid⟩) :
    ∃ opening inner closing, test = Shape.expression inner ∧ inner ≠ [] ∧
      depthThrough 0 (inner.map Located.item) = some 0 ∧
      c.rest = opening :: (inner ++ closing :: mid.rest) := by
  obtain ⟨-, hfaults, hne, he⟩ := condition_eq_of_faults (c := c) (by rw [h])
  obtain ⟨opening, inner, closing, hvalue, hrest, -, hinner⟩ := depthThrough_of_group hfaults
  cases h.symm.trans he
  have hinside : c.group.value.tail.dropLast = inner := by
    rw [hvalue, List.tail_cons, List.dropLast_concat]
  rw [hinside] at hne ⊢
  exact ⟨opening, inner, closing, rfl, hne, hinner, hrest⟩

/-- The tokens of a test, and those behind it, are among those ahead. -/
theorem condition_subset {P : Lexeme → Prop} {c mid : Cursor} {opening closing : Token}
    {inner : List Token} (hp : ∀ t ∈ c.rest, P t.item)
    (hr : c.rest = opening :: (inner ++ closing :: mid.rest)) :
    (∀ t ∈ inner, P t.item) ∧ mid.rest <:+ c.rest := by
  constructor
  · intro t ht
    refine hp t ?_
    rw [hr]
    exact List.mem_cons_of_mem opening (List.mem_append_left _ ht)
  · refine ⟨opening :: (inner ++ [closing]), ?_⟩
    rw [hr]
    simp

theorem advance_suffix (c : Cursor) : c.advance.rest <:+ c.rest := by
  unfold advance
  split
  · exact List.suffix_rfl
  · next t ts hr =>
    rw [hr]
    exact List.suffix_cons t ts

/-- A block is printable if its statements are. -/
theorem printable_ofStatements {P : Lexeme → Prop} {ns : List (Node Token)}
    (h : ∀ n ∈ ns, Printable P n.bare) (span : Span) :
    ∀ n ∈ [Node.ofStatements ns span], Printable P n.bare := by
  intro n hn
  rw [List.mem_singleton.mp hn, Node.ofStatements, Node.bare, bareList_eq_map]
  refine .block fun b hb => ?_
  obtain ⟨m, hm, rfl⟩ := List.mem_map.mp hb
  exact h m hm

/-- A block is free of loops if its statements are. -/
theorem loopless_branch {b : Node Token} (hk : b.kind = .block)
    (h : AllPositions (fun n => n.isLoop = false) b.children) :
    AllPositions (fun n => n.isLoop = false) [b] := by
  refine (allPositions_block hk).mpr ⟨?_, h⟩
  rw [Node.isLoop, hk]
  rfl

/-- A printable conditional has a test and one or two printable branches. -/
theorem printable_conditional {P : Lexeme → Prop} {test : List Token} {branches : List (Node Token)}
    (ht : test ≠ []) (hp : ∀ t ∈ test, P t.item)
    (hi : depthThrough 0 (test.map Located.item) = some 0)
    (hlen : branches.length = 1 ∨ branches.length = 2) (hk : ∀ b ∈ branches, b.kind = .block)
    (h : ∀ b ∈ branches, Printable P b.bare) (span : Span) :
    ∀ n ∈ [(⟨.conditional, "", [], Shape.expression test :: branches, span⟩ : Node Token)],
      Printable P n.bare := by
  intro n hn
  rw [List.mem_singleton.mp hn, Node.bare, bareList, bareList_eq_map]
  refine .conditional ht hp hi (by simpa using hlen) ?_ ?_
  · intro b hb
    obtain ⟨m, hm, rfl⟩ := List.mem_map.mp hb
    obtain ⟨kind, spelling, tokens, children, place⟩ := m
    exact hk _ hm
  · intro b hb
    obtain ⟨m, hm, rfl⟩ := List.mem_map.mp hb
    exact h m hm

/-- A return is printable. -/
theorem printable_returned {P : Lexeme → Prop} {t : Token} {value : List Token}
    (ht : t.item = .keyword .returnKw) (hp : ∀ u ∈ value, P u.item)
    (hc : Clause (value.map Located.item)) (span : Span) :
    ∀ n ∈ [(⟨.return, "", t :: value, if value.isEmpty then [] else [Shape.expression value],
      span⟩ : Node Token)], Printable P n.bare := by
  intro n hn
  rw [List.mem_singleton.mp hn, Node.bare, List.map_cons, ht]
  exact .returned hp hc

/-- The clause of a simple statement begins with the token that made it simple, and a semicolon
follows it. -/
theorem exists_of_simple {c mid : Cursor} {t : Token} {ts value : List Token}
    (hr : c.rest = t :: ts) (ho : Opening.ofLexeme t.item = .simple)
    (htiles : c.rest = value ++ mid.rest) (hs : mid.at? .semicolon = true) :
    ∃ others semicolon, value = t :: others ∧ mid.rest.head? = some semicolon ∧
      semicolon.is .semicolon = true := by
  cases hmid : mid.rest with
  | nil =>
    rw [at?, peek, hmid] at hs
    cases hs
  | cons semicolon rest =>
    have his : Token.is .semicolon semicolon = true := by
      rw [at?, peek, hmid] at hs
      simpa [Token.is] using hs
    rw [hr, hmid] at htiles
    cases value with
    | nil =>
      obtain ⟨rfl, -⟩ := List.cons.inj htiles
      rw [eq_of_beq his] at ho
      cases ho
    | cons u others =>
      obtain ⟨rfl, -⟩ := List.cons.inj htiles
      exact ⟨others, semicolon, rfl, rfl, his⟩

/-- Whatever is read without fault and has no loops is printable, and made of lexemes that were
there to be read. -/
theorem Parser.Reads.printable {P : Lexeme → Prop} {form : Form} {depth : Nat} {c next : Cursor}
    {ns : List (Node Token)} (h : Reads form depth c ns next) (hp : ∀ t ∈ c.rest, P t.item)
    (hloop : AllPositions (fun n => n.isLoop = false) ns) :
    (∀ n ∈ ns, Printable P n.bare) ∧ next.rest <:+ c.rest := by
  induction h with
  | done => exact ⟨fun _ hn => absurd hn List.not_mem_nil, List.suffix_rfl⟩
  | more _ _ _ ihFirst ihOthers =>
    obtain ⟨hl, hr⟩ := allPositions_append.mp hloop
    obtain ⟨hfirst, hmid⟩ := ihFirst hp hl
    obtain ⟨hothers, hnext⟩ := ihOthers (fun t ht => hp t (hmid.subset ht)) hr
    exact ⟨List.forall_mem_append.mpr ⟨hfirst, hothers⟩, hnext.trans hmid⟩
  | block _ _ _ ih =>
    obtain ⟨hbody, hmid⟩ := ih hp ((allPositions_block rfl).mp hloop).2
    exact ⟨printable_ofStatements hbody _, (advance_suffix _).trans hmid⟩
  | @nested _ c _ _ _ _ _ _ _ ih =>
    obtain ⟨hbody, hnext⟩ := ih (fun t ht => hp t ((advance_suffix c).subset ht)) hloop
    exact ⟨hbody, hnext.trans (advance_suffix c)⟩
  | empty => exact ⟨fun _ hn => absurd hn List.not_mem_nil, advance_suffix _⟩
  | @chosen _ c _ _ _ _ _ _ _ ih =>
    obtain ⟨hbody, hnext⟩ := ih (fun t ht => hp t ((advance_suffix c).subset ht)) hloop
    exact ⟨hbody, hnext.trans (advance_suffix c)⟩
  | @returned _ c t ts value mid hr ho clause _ =>
    obtain ⟨hclause, htiles⟩ := clause_of_untilSemicolon (c := c.advance) (by rw [clause])
    rw [clause] at hclause htiles
    have hvalue : ∀ u ∈ value, P u.item := fun u hu =>
      hp u ((advance_suffix c).subset (htiles ▸ List.mem_append_left _ hu))
    have hmid : mid.rest <:+ c.advance.rest := ⟨value, htiles.symm⟩
    exact ⟨printable_returned (returnKw_of_ofLexeme ho) hvalue hclause _,
      (advance_suffix mid).trans (hmid.trans (advance_suffix c))⟩
  | loop _ ho =>
    have hfalse := (allPositions_simple rfl).mp hloop
    rw [isLoop_of_ofLexeme (Or.inl ho)] at hfalse
    cases hfalse
  | doLoop _ ho =>
    have hfalse := (allPositions_simple rfl).mp hloop
    rw [isLoop_of_ofLexeme (Or.inr ho)] at hfalse
    cases hfalse
  | @simple _ c t ts value mid hr ho clause hs =>
    obtain ⟨hclause, htiles⟩ := clause_of_untilSemicolon (c := c) (by rw [clause])
    rw [clause] at hclause htiles
    obtain ⟨others, semicolon, rfl, hhead, his⟩ := exists_of_simple hr ho htiles hs
    have hvalue : ∀ u ∈ t :: others, P u.item := fun u hu =>
      hp u (htiles ▸ List.mem_append_left _ hu)
    have hmid : mid.rest <:+ c.rest := ⟨t :: others, htiles.symm⟩
    refine ⟨?_, (advance_suffix mid).trans hmid⟩
    intro n hn
    rw [List.mem_singleton.mp hn, hhead]
    exact .simple ho hvalue hclause his
  | @ifThen _ _ c _ mid first _ hc branch _ ih =>
    obtain ⟨opening, inner, closing, rfl, hne, hinner, hrest⟩ := depthThrough_of_condition hc
    have hk : ∀ b ∈ [first], b.kind = .block := branch.blocksOnly
    have hbody := ((allPositions_conditional rfl rfl hk).mp hloop).2
    obtain ⟨htest, hmid⟩ := condition_subset hp hrest
    obtain ⟨hfirst, hnext⟩ := ih (fun t ht => hp t (hmid.subset ht))
      (loopless_branch (hk first List.mem_cons_self) (hbody first List.mem_cons_self))
    exact ⟨printable_conditional hne htest hinner (Or.inl rfl) hk hfirst _, hnext.trans hmid⟩
  | @ifElse _ _ c _ mid first after second _ hc branch _ elseBranch ihFirst ihSecond =>
    obtain ⟨opening, inner, closing, rfl, hne, hinner, hrest⟩ := depthThrough_of_condition hc
    have hk := branch.kind_of_branches elseBranch
    have hbody := ((allPositions_conditional rfl rfl hk).mp hloop).2
    have hmem : second ∈ [first, second] := List.mem_cons_of_mem first List.mem_cons_self
    obtain ⟨htest, hmid⟩ := condition_subset hp hrest
    obtain ⟨hfirst, hafter⟩ := ihFirst (fun t ht => hp t (hmid.subset ht))
      (loopless_branch (hk first List.mem_cons_self) (hbody first List.mem_cons_self))
    have helse := (advance_suffix after).trans (hafter.trans hmid)
    obtain ⟨hsecond, hnext⟩ := ihSecond (fun t ht => hp t (helse.subset ht))
      (loopless_branch (hk second hmem) (hbody second hmem))
    refine ⟨printable_conditional hne htest hinner (Or.inr rfl) hk ?_ _, hnext.trans helse⟩
    exact List.forall_mem_cons.mpr ⟨hfirst first List.mem_cons_self, hsecond⟩
  | @braced _ c _ _ _ _ ih =>
    obtain ⟨hbody, hnext⟩ := ih (fun t ht => hp t ((advance_suffix c).subset ht)) hloop
    exact ⟨hbody, hnext.trans (advance_suffix c)⟩
  | unbraced _ _ ih =>
    obtain ⟨hbody, hnext⟩ := ih hp ((allPositions_block rfl).mp hloop).2
    exact ⟨printable_ofStatements hbody _, hnext⟩

/-- The lexemes of a list of nodes are those of its nodes. -/
theorem mem_lexemesOf {l : Lexeme} {bs : List (Node Lexeme)} (h : l ∈ lexemesOf bs) :
    ∃ b ∈ bs, l ∈ b.lexemes := by
  induction bs with
  | nil => cases h
  | cons b bs ih =>
    rw [lexemesOf] at h
    rcases List.mem_append.mp h with h | h
    · exact ⟨b, List.mem_cons_self, h⟩
    · obtain ⟨b', hb', hl⟩ := ih h
      exact ⟨b', List.mem_cons_of_mem b hb', hl⟩

/-- The lexemes of branches are those of the blocks, and the keyword between them. -/
theorem mem_branchLexemes {l : Lexeme} {bs : List (Node Lexeme)} (h : l ∈ branchLexemes bs) :
    l = .keyword .elseKw ∨ ∃ b ∈ bs, l ∈ b.lexemes := by
  induction bs with
  | nil => cases h
  | cons b bs ih =>
    cases bs with
    | nil => exact Or.inr ⟨b, List.mem_cons_self, h⟩
    | cons second others =>
      change l ∈ b.lexemes ++ .keyword .elseKw :: branchLexemes (second :: others) at h
      rcases List.mem_append.mp h with h | h
      · exact Or.inr ⟨b, List.mem_cons_self, h⟩
      · rcases List.mem_cons.mp h with h | h
        · exact Or.inl h
        · refine (ih h).imp_right ?_
          rintro ⟨b', hb', hl⟩
          exact ⟨b', List.mem_cons_of_mem b hb', hl⟩

/-- The lexemes of a printable statement are its own and those of the canonical form. -/
theorem Printable.forall_mem_lexemes {P : Lexeme → Prop} (hs : ∀ s, P (.symbol s))
    (hk : ∀ k, P (.keyword k)) {b : Node Lexeme} (h : Printable P b) : ∀ l ∈ b.lexemes, P l := by
  have hitems : ∀ {ts : List Token}, (∀ t ∈ ts, P t.item) → ∀ l ∈ ts.map Located.item, P l := by
    intro ts hts l hl
    obtain ⟨t, ht, rfl⟩ := List.mem_map.mp hl
    exact hts t ht
  induction h with
  | block _ ih =>
    intro l hl
    rcases List.mem_cons.mp hl with rfl | hl
    · exact hs _
    · rcases List.mem_append.mp hl with hl | hl
      · obtain ⟨b, hb, hl⟩ := mem_lexemesOf hl
        exact ih b hb l hl
      · rw [List.mem_singleton.mp hl]
        exact hs _
  | @conditional test branches _ hp _ _ _ _ ih =>
    intro l hl
    change l ∈ .keyword .ifKw :: .symbol .lparen ::
      (test.map Located.item ++ .symbol .rparen :: branchLexemes branches) at hl
    simp only [List.mem_cons, List.mem_append] at hl
    rcases hl with rfl | rfl | hl | rfl | hl
    · exact hk _
    · exact hs _
    · exact hitems hp l hl
    · exact hs _
    · rcases mem_branchLexemes hl with rfl | ⟨b, hb, hl⟩
      · exact hk _
      · exact ih b hb l hl
  | @returned value hp _ =>
    intro l hl
    change l ∈ .keyword .returnKw :: value.map Located.item ++ [.symbol .semicolon] at hl
    rcases List.mem_append.mp hl with hl | hl
    · rcases List.mem_cons.mp hl with rfl | hl
      · exact hk _
      · exact hitems hp l hl
    · rw [List.mem_singleton.mp hl]
      exact hs _
  | simple _ hp _ his =>
    intro l hl
    rw [lexemes_statement _ his] at hl
    rcases List.mem_append.mp hl with hl | hl
    · exact hitems hp l hl
    · rw [List.mem_singleton.mp hl]
      exact hs _

mutual
/-- A bare tree is as deep as the tree. -/
theorem Node.blockDepth_bare : ∀ n : Node Token, n.bare.blockDepth = n.blockDepth
  | ⟨kind, spelling, tokens, children, span⟩ => by
    rw [Node.bare, Node.blockDepth, Node.blockDepth, blockDepthOf_bareList children]
/-- Bare trees are as deep as the trees. -/
theorem blockDepthOf_bareList : ∀ ns : List (Node Token),
    blockDepthOf (bareList ns) = blockDepthOf ns
  | [] => rfl
  | n :: ns => by
    rw [bareList, blockDepthOf, blockDepthOf, Node.blockDepth_bare n, blockDepthOf_bareList ns]
end

/-- The canonical text of a block that was read is read as the same tree, places apart, if no
directive and no loop is in it and no more than 256 of its blocks stand inside one another. -/
theorem parseBlock_canonicalText {source : List Char} {t : Node Token}
    (hd : ∀ u ∈ (lex source).tokens, u.item.isDirective = false)
    (h : parseBlock source = .ok t) (hloop : ∀ n ∈ positions [t], n.isLoop = false)
    (hdepth : t.blockDepth ≤ 256) :
    ∃ t', parseBlock t.canonicalText = .ok t' ∧ t'.bare = t.bare := by
  obtain ⟨-, first, ts, next, -, -, hread, -⟩ := parseBlock_eq_ok_iff.mp h
  have hreadable : ∀ u ∈ (lex source).cursor.advance.rest, u.item.Readable := by
    intro u hu
    have hmem := (advance_suffix (lex source).cursor).subset hu
    exact readable_of_mem_lex hmem (hd u hmem)
  have hprint := (hread.printable hreadable hloop).1 t List.mem_cons_self
  obtain ⟨hfaults, hitems⟩ :=
    lex_spaced (hprint.forall_mem_lexemes Symbol.readable Keyword.readable)
  have hahead : (lex t.canonicalText).cursor.ahead = t.bare.lexemes ++ [] := by
    rw [List.append_nil]
    exact hitems
  have hk : t.bare.kind = .block := by
    have hblock := hread.blocksOnly t List.mem_cons_self
    cases t
    exact hblock
  obtain ⟨t', next', hreread, hbare, hnext⟩ := hprint.rereads 0 _ [] hahead
    (by rw [Nat.zero_add, Node.blockDepth_bare]; exact hdepth) fun _ => by simp
  have hbrace := at_lbrace_of_ahead hk hahead
  obtain ⟨u, us, hu⟩ := List.exists_cons_of_ne_nil (Cursor.rest_ne_nil_of_at hbrace)
  refine ⟨t', parseBlock_eq_ok_iff.mpr ⟨hfaults, u, us, next', hu, ?_, ?_, ?_⟩, hbare⟩
  · rw [at?, peek, hu] at hbrace
    simpa [Token.is] using hbrace
  · have hblock := hreread.block_of_lbrace hbrace
    rwa [here, hu] at hblock
  · exact List.map_eq_nil_iff.mp hnext

/-- A block with an `else` that belongs to the inner of two conditionals, empty statements, and a
group that holds a semicolon and is closed by another kind of bracket. -/
def tangledSource : String := "\x7bif(x)if(y);else z=f(a;b];int k=2;;\x7breturn;\x7d\x7d"

/-- The canonical text of that block. -/
def tangledText : String :=
  "\x7b if ( x ) \x7b if ( y ) \x7b \x7d else \x7b z = f ( a ; b ] ; \x7d \x7d " ++
    "int k = 2 ; \x7b return ; \x7d \x7d"

/-- The tangled block is printed with its braces and reread. -/
theorem parseBlock_canonicalText_tangled :
    ∃ t t', parseBlock tangledSource.toList = .ok t ∧ t.canonicalText = tangledText.toList ∧
      parseBlock tangledText.toList = .ok t' ∧ t'.bare = t.bare := by
  have hall : ((parseBlock tangledSource.toList).toOption.any fun t =>
      (positions [t]).all (fun n => n.isLoop == false) && decide (t.blockDepth ≤ 256) &&
        t.canonicalText == tangledText.toList) = true := by
    decide +kernel
  have hd : (lex tangledSource.toList).tokens.all (fun u => u.item.isDirective == false) =
      true := by
    decide +kernel
  cases hp : parseBlock tangledSource.toList with
  | error e =>
    rw [hp] at hall
    cases hall
  | ok t =>
    rw [hp] at hall
    simp only [Except.toOption, Option.any_some, Bool.and_eq_true, List.all_eq_true, beq_iff_eq,
      decide_eq_true_eq] at hall hd
    obtain ⟨⟨hloop, hdepth⟩, htext⟩ := hall
    obtain ⟨t', hread, hbare⟩ := parseBlock_canonicalText hd hp hloop hdepth
    exact ⟨t, t', rfl, htext, htext ▸ hread, hbare⟩

end VertexLanes
