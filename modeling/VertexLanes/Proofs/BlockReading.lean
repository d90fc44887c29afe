import VertexLanes.Block.Parser

/-!
# Faultless reading of blocks

What a parser of statements reads without a fault is said once, by a grammar with
one rule for each way to go on. A derivation names the cursor before and after
every part, the nodes that were built and the depth at which braces are counted.
The parsers read without fault exactly what the grammar derives, so a fact about
accepted blocks is an induction on derivations and never opens a parser.
-/

namespace VertexLanes.Parser

section
variable {depth : Nat} {c : Cursor}

/-- At the end of a block there are no more statements. -/
theorem statements_of_atBlockEnd (h : c.atBlockEnd = true) :
    (statements depth c).val = ⟨[], [], c⟩ := by
  rw [statements, dif_pos h]

/-- Elsewhere a statement is read, and the others behind it. -/
theorem statements_of_not_atBlockEnd {first : Parsed (Option (Node Token))}
    (h : c.atBlockEnd = false) (hf : (statement depth c).val = first) :
    (statements depth c).val =
      let others := (statements depth first.next).val
      ⟨first.value.toList ++ others.value, first.faults ++ others.faults, others.next⟩ := by
  subst hf
  rw [statements, dif_neg (by simp [h])]

/-- A block that is not nested too deep is its statements up to the closing brace. -/
theorem block_of_lt (opening : Span) {body : Parsed (List (Node Token))} (h : depth < maxDepth)
    (hb : (statements (depth + 1) c).val = body) :
    (block depth opening c).val =
      let e := body.next.expect .rbrace
      ⟨Node.ofStatements body.value (opening.merge e.value), body.faults ++ e.faults, e.next⟩ := by
  subst hb
  rw [block, if_pos h]

/-- A block that is nested too deep is reported and skipped to the end. -/
theorem block_of_not_lt (opening : Span) (h : ¬depth < maxDepth) :
    (block depth opening c).val =
      ⟨Node.ofStatements [] opening, [c.fault .nestingTooDeep], c.toEnd⟩ := by
  rw [block, if_neg h]

/-- At the end of the tokens a statement is read as a simple one. -/
theorem statement_of_nil (hr : c.rest = []) : (statement depth c).val = (simple c).map some := by
  rw [statement]
  split
  · rfl
  · next h => rw [hr] at h; cases h

/-- A statement is read by what its first token opens. -/
theorem statement_of_cons {t : Token} {ts : List Token} (hr : c.rest = t :: ts) :
    (statement depth c).val =
      match Opening.ofLexeme t.item with
      | .block => (block depth t.span c.advance).val.map some
      | .empty => ⟨none, [], c.advance⟩
      | .conditional => (conditional depth t.span c.advance).val.map some
      | .returning => (returning t c.advance).map some
      | .loop => (loop depth t c.advance).val.map some
      | .doLoop => (doLoop depth t c.advance).val.map some
      | .orphanElse => ⟨none, [c.fault .orphanElse], c.advance⟩
      | .simple => (simple c).map some := by
  rw [statement]
  split
  · next h => rw [hr] at h; cases h
  · next u us h =>
    rw [hr] at h
    cases h
    cases ho : Opening.ofLexeme t.item <;> simp only [onward]

/-- A conditional with the keyword behind its first branch has a second one. -/
theorem conditional_of_else (keyword : Span) {test : Parsed (Option (Node Token))}
    {first : Parsed (Node Token)} (ht : condition c = test)
    (hf : (branch depth test.next).val = first) (h : first.next.atKeyword? .elseKw = true) :
    (conditional depth keyword c).val =
      let second := (branch depth first.next.advance).val
      ⟨⟨.conditional, "", [], test.value.toList ++ [first.value, second.value],
          keyword.merge second.next.before⟩,
        test.faults ++ first.faults ++ second.faults, second.next⟩ := by
  subst ht hf
  rw [conditional]
  simp only
  rw [dif_pos h]

/-- A conditional without the keyword has one branch. -/
theorem conditional_of_not_else (keyword : Span) {test : Parsed (Option (Node Token))}
    {first : Parsed (Node Token)} (ht : condition c = test)
    (hf : (branch depth test.next).val = first) (h : first.next.atKeyword? .elseKw = false) :
    (conditional depth keyword c).val =
      ⟨⟨.conditional, "", [], test.value.toList ++ [first.value], keyword.merge first.next.before⟩,
        test.faults ++ first.faults, first.next⟩ := by
  subst ht hf
  rw [conditional]
  simp only
  rw [dif_neg (by simp [h])]

/-- A branch that begins with a brace is a block. -/
theorem branch_of_lbrace (h : c.at? .lbrace = true) :
    (branch depth c).val = (block depth c.here c.advance).val := by
  rw [branch, dif_pos h]

/-- Any other branch is a block of one statement. -/
theorem branch_of_not_lbrace {r : Parsed (Option (Node Token))} (h : c.at? .lbrace = false)
    (hs : (statement depth c).val = r) :
    (branch depth c).val =
      ⟨Node.ofStatements r.value.toList (c.here.merge r.next.before), r.faults, r.next⟩ := by
  subst hs
  rw [branch, dif_neg (by simp [h])]

/-- A loop keeps its head and not its body. -/
theorem loop_val (keyword : Token) {head : Parsed (List Token)}
    {body : Parsed (Option (Node Token))} (hh : groupIfNext c = head)
    (hb : (statement depth head.next).val = body) :
    (loop depth keyword c).val =
      ⟨⟨.other, keyword.spelling, keyword :: head.value, [], keyword.span.merge body.next.before⟩,
        head.faults ++ body.faults, body.next⟩ := by
  subst hh hb
  rw [loop]

/-- A loop with its test at the end keeps neither body nor test. -/
theorem doLoop_val (keyword : Token) {body : Parsed (Option (Node Token))}
    (hb : (statement depth c).val = body) :
    (doLoop depth keyword c).val =
      let e := loopEnd body.next
      ⟨⟨.other, keyword.spelling, [keyword], [], keyword.span.merge e.next.before⟩,
        body.faults ++ e.faults, e.next⟩ := by
  subst hb
  rw [doLoop]

end

/-- What is to be read at a cursor. -/
inductive Form where
  /-- The statements up to the end of the enclosing block. -/
  | statements
  /-- One statement, or none for a lone semicolon. -/
  | statement
  /-- A branch of a conditional. -/
  | branch
  /-- A conditional after its keyword. -/
  | conditional (keyword : Span)
  /-- A block after its opening brace. -/
  | block (opening : Span)

/-- Reading a form at a depth, from a cursor, without fault: the nodes that are read and the cursor
after them. -/
inductive Reads : Form → Nat → Cursor → List (Node Token) → Cursor → Prop
  | done {depth c} (he : c.atBlockEnd = true) : Reads .statements depth c [] c
  | more {depth c mid next ns ms} (he : c.atBlockEnd = false)
      (first : Reads .statement depth c ns mid) (others : Reads .statements depth mid ms next) :
      Reads .statements depth c (ns ++ ms) next
  /-- The braces are counted here and nowhere else. -/
  | block {depth opening c mid ns} (hd : depth < maxDepth)
      (body : Reads .statements (depth + 1) c ns mid) (hclose : mid.at? .rbrace = true) :
      Reads (.block opening) depth c [Node.ofStatements ns (opening.merge mid.here)] mid.advance
  | nested {depth c t ts ns next} (hr : c.rest = t :: ts) (ho : Opening.ofLexeme t.item = .block)
      (inner : Reads (.block t.span) depth c.advance ns next) : Reads .statement depth c ns next
  | empty {depth c t ts} (hr : c.rest = t :: ts) (ho : Opening.ofLexeme t.item = .empty) :
      Reads .statement depth c [] c.advance
  | chosen {depth c t ts ns next} (hr : c.rest = t :: ts)
      (ho : Opening.ofLexeme t.item = .conditional)
      (inner : Reads (.conditional t.span) depth c.advance ns next) :
      Reads .statement depth c ns next
  | returned {depth c t ts value mid} (hr : c.rest = t :: ts)
      (ho : Opening.ofLexeme t.item = .returning)
      (clause : c.advance.untilSemicolon = ⟨value, [], mid⟩) (hs : mid.at? .semicolon = true) :
      Reads .statement depth c
        [⟨.return, "", t :: value, if value.isEmpty then [] else [Shape.expression value],
          t.span.merge mid.here⟩] mid.advance
  /-- The body of a loop is read and forgotten. -/
  | loop {depth c t ts head mid ns next} (hr : c.rest = t :: ts)
      (ho : Opening.ofLexeme t.item = .loop) (hhead : groupIfNext c.advance = ⟨head, [], mid⟩)
      (body : Reads .statement depth mid ns next) :
      Reads .statement depth c
        [⟨.other, t.spelling, t :: head, [], t.span.merge next.before⟩] next
  | doLoop {depth c t ts mid ns next} (hr : c.rest = t :: ts)
      (ho : Opening.ofLexeme t.item = .doLoop) (body : Reads .statement depth c.advance ns mid)
      (hend : loopEnd mid = ⟨(), [], next⟩) :
      Reads .statement depth c [⟨.other, t.spelling, [t], [], t.span.merge next.before⟩] next
  | simple {depth c t ts value mid} (hr : c.rest = t :: ts)
      (ho : Opening.ofLexeme t.item = .simple) (clause : c.untilSemicolon = ⟨value, [], mid⟩)
      (hs : mid.at? .semicolon = true) :
      Reads .statement depth c [Shape.statement value mid.rest.head?] mid.advance
  | ifThen {depth keyword c test mid first next} (hc : condition c = ⟨some test, [], mid⟩)
      (branch : Reads .branch depth mid [first] next) (he : next.atKeyword? .elseKw = false) :
      Reads (.conditional keyword) depth c
        [⟨.conditional, "", [], [test, first], keyword.merge next.before⟩] next
  | ifElse {depth keyword c test mid first after second next}
      (hc : condition c = ⟨some test, [], mid⟩) (branch : Reads .branch depth mid [first] after)
      (he : after.atKeyword? .elseKw = true)
      (elseBranch : Reads .branch depth after.advance [second] next) :
      Reads (.conditional keyword) depth c
        [⟨.conditional, "", [], [test, first, second], keyword.merge next.before⟩] next
  | braced {depth c ns next} (hb : c.at? .lbrace = true)
      (inner : Reads (.block c.here) depth c.advance ns next) : Reads .branch depth c ns next
  /-- A branch without braces becomes a block that no brace counts. -/
  | unbraced {depth c ns next} (hb : c.at? .lbrace = false)
      (inner : Reads .statement depth c ns next) :
      Reads .branch depth c [Node.ofStatements ns (c.here.merge next.before)] next

/-- The nodes of a branch or a block are blocks. -/
def Form.BlocksOnly (form : Form) (ns : List (Node Token)) : Prop :=
  match form with
  | .branch | .block _ => ∀ n ∈ ns, n.kind = .block
  | _ => True

/-- Where a block or a branch is read, the node is a block. -/
theorem Reads.blocksOnly {form : Form} {depth : Nat} {c next : Cursor} {ns : List (Node Token)}
    (h : Reads form depth c ns next) : form.BlocksOnly ns := by
  have hone : ∀ (ms : List (Node Token)) (span : Span),
      ∀ n ∈ [Node.ofStatements ms span], n.kind = .block := by
    intro ms span n hn
    rw [List.mem_singleton.mp hn]
    rfl
  induction h with
  | block => exact hone _ _
  | unbraced => exact hone _ _
  | braced _ _ ih => exact ih
  | _ => trivial

/-- Both branches of a conditional are blocks. -/
theorem Reads.kind_of_branches {depth : Nat} {c after c' next : Cursor} {first second : Node Token}
    (branch : Reads .branch depth c [first] after)
    (elseBranch : Reads .branch depth c' [second] next) :
    ∀ b ∈ [first, second], b.kind = .block := by
  rw [List.forall_mem_cons]
  exact ⟨branch.blocksOnly first List.mem_cons_self, elseBranch.blocksOnly⟩

/-- The parser of a form. -/
def Form.run : Form → Nat → Cursor → Parsed (List (Node Token))
  | .statements, depth, c => (Parser.statements depth c).val
  | .statement, depth, c => (Parser.statement depth c).val.map Option.toList
  | .branch, depth, c => (Parser.branch depth c).val.map fun n => [n]
  | .conditional keyword, depth, c => (Parser.conditional depth keyword c).val.map fun n => [n]
  | .block opening, depth, c => (Parser.block depth opening c).val.map fun n => [n]

/-- A mark that is expected and there is passed without fault. -/
theorem expect_of_at {mark : Symbol} {c : Cursor} (h : c.at? mark = true) :
    c.expect mark = ⟨c.here, [], c.advance⟩ := by
  simp [Cursor.expect, h]

/-- Expecting a symbol is faultless only where it is next. -/
theorem at_of_expect {mark : Symbol} {c : Cursor} (h : (c.expect mark).faults = []) :
    c.at? mark = true := by
  cases hm : c.at? mark with
  | true => rfl
  | false => simp [Cursor.expect, hm] at h

/-- A group that is closed ends in a bracket. -/
theorem spanGroup_tokens_ne_nil {depth : Nat} {ts : List Token}
    (h : (Cursor.spanGroup depth ts).closed = true) : (Cursor.spanGroup depth ts).tokens ≠ [] := by
  cases ts with
  | nil => cases h
  | cons t ts =>
    rw [Cursor.spanGroup]
    split <;> simp

/-- A test that is read without fault is there: it stands between the two ends of a group. -/
theorem condition_eq_of_faults {c : Cursor} (h : (condition c).faults = []) :
    c.at? .lparen = true ∧ c.group.faults = [] ∧ c.group.value.tail.dropLast ≠ [] ∧
      condition c =
        ⟨some (Shape.expression c.group.value.tail.dropLast), [], c.group.next⟩ := by
  cases hp : c.at? .lparen with
  | false => simp [condition, hp] at h
  | true =>
    obtain ⟨t, ts, hr⟩ := List.exists_cons_of_ne_nil (Cursor.rest_ne_nil_of_at hp)
    have hvalue : c.group.value.tail = (Cursor.spanGroup 0 ts).tokens := by simp [Cursor.group, hr]
    have hfaults : c.group.faults = if (Cursor.spanGroup 0 ts).closed then []
        else [c.fault .unclosedDelimiter] := by simp [Cursor.group, hr]
    simp only [condition, hp, if_true] at h ⊢
    cases hclosed : (Cursor.spanGroup 0 ts).closed with
    | false =>
      rw [hclosed] at hfaults
      rw [hfaults] at h
      split at h
      · simp at h
      · split at h <;> simp at h
    | true =>
      rw [hclosed, if_pos rfl] at hfaults
      have hne := spanGroup_tokens_ne_nil hclosed
      rw [hvalue, hfaults] at h ⊢
      split at h
      · next hnil => exact absurd hnil hne
      · split at h
        · simp at h
        · next hin =>
          refine ⟨trivial, rfl, by simpa using hin, ?_⟩
          rw [if_neg hin]

/-- What is read and then mapped is read with the same faults. -/
theorem Parsed.eq_of_map {α β : Type} {r : Parsed α} {f : α → β} {b : β}
    {faults : List (Located SyntaxFault)} {next : Cursor} (h : r.map f = ⟨b, faults, next⟩) :
    ∃ a, r = ⟨a, faults, next⟩ ∧ f a = b := by
  cases h
  exact ⟨r.value, rfl, rfl⟩

/-- What the grammar derives, the parser of the form reads without fault. -/
theorem Reads.run_eq {form : Form} {depth : Nat} {c next : Cursor} {ns : List (Node Token)}
    (h : Reads form depth c ns next) : form.run depth c = ⟨ns, [], next⟩ := by
  induction h with
  | done he => exact statements_of_atBlockEnd he
  | more he _ _ ihFirst ihOthers =>
    simp only [Form.run] at ihFirst ihOthers ⊢
    obtain ⟨first, hfirst, rfl⟩ := Parsed.eq_of_map ihFirst
    rw [statements_of_not_atBlockEnd he hfirst]
    simp only [ihOthers, List.nil_append]
  | block hd _ hclose ih =>
    rw [Form.run, block_of_lt _ hd ih]
    simp [expect_of_at hclose, Parsed.map]
  | nested hr ho _ ih =>
    simp only [Form.run] at ih ⊢
    obtain ⟨n, hblock, rfl⟩ := Parsed.eq_of_map ih
    rw [statement_of_cons hr, ho, hblock]
    rfl
  | empty hr ho =>
    rw [Form.run, statement_of_cons hr, ho]
    rfl
  | chosen hr ho _ ih =>
    simp only [Form.run] at ih ⊢
    obtain ⟨n, hchosen, rfl⟩ := Parsed.eq_of_map ih
    rw [statement_of_cons hr, ho, hchosen]
    rfl
  | returned hr ho clause hs =>
    rw [Form.run, statement_of_cons hr, ho]
    simp [returning, clause, expect_of_at hs, Parsed.map]
  | loop hr ho hhead _ ih =>
    simp only [Form.run] at ih ⊢
    obtain ⟨n, hbody, -⟩ := Parsed.eq_of_map ih
    rw [statement_of_cons hr, ho, loop_val _ hhead hbody]
    rfl
  | doLoop hr ho _ hend ih =>
    simp only [Form.run] at ih ⊢
    obtain ⟨n, hbody, -⟩ := Parsed.eq_of_map ih
    rw [statement_of_cons hr, ho, doLoop_val _ hbody]
    simp [hend, Parsed.map]
  | simple hr ho clause hs =>
    rw [Form.run, statement_of_cons hr, ho]
    simp [Parser.simple, clause, hs, expect_of_at hs, Parsed.map]
  | ifThen hc _ he ih =>
    simp only [Form.run] at ih ⊢
    obtain ⟨n, hfirst, hn⟩ := Parsed.eq_of_map ih
    cases hn
    rw [conditional_of_not_else _ hc hfirst he]
    rfl
  | ifElse hc _ he _ ihFirst ihSecond =>
    simp only [Form.run] at ihFirst ihSecond ⊢
    obtain ⟨n, hfirst, hn⟩ := Parsed.eq_of_map ihFirst
    obtain ⟨m, hsecond, hm⟩ := Parsed.eq_of_map ihSecond
    cases hn
    cases hm
    rw [conditional_of_else _ hc hfirst he, hsecond]
    rfl
  | braced hb _ ih =>
    simp only [Form.run] at ih ⊢
    rw [branch_of_lbrace hb, ih]
  | unbraced hb _ ih =>
    simp only [Form.run] at ih ⊢
    obtain ⟨n, hinner, rfl⟩ := Parsed.eq_of_map ih
    rw [branch_of_not_lbrace hb hinner]
    rfl

/-- The order in which the parsers call one another at one cursor. -/
def Form.rank : Form → Nat
  | .statements => 3
  | .statement => 1
  | .branch => 2
  | .conditional _ => 3
  | .block _ => 4

/-- What the parser of a form reads without fault, the grammar derives. -/
theorem reads_of_run : ∀ (form : Form) (depth : Nat) (c : Cursor),
    (form.run depth c).faults = [] →
    Reads form depth c (form.run depth c).value (form.run depth c).next
  | .statements, depth, c, h => by
    simp only [Form.run] at h ⊢
    cases he : c.atBlockEnd with
    | true =>
      rw [statements_of_atBlockEnd he]
      exact .done he
    | false =>
      have hlt := (statement depth c).property.2 he
      rw [statements_of_not_atBlockEnd he rfl] at h ⊢
      simp only [List.append_eq_nil_iff] at h
      exact .more he (reads_of_run .statement depth c h.1)
        (reads_of_run .statements depth (statement depth c).val.next h.2)
  | .statement, depth, c, h => by
    simp only [Form.run] at h ⊢
    cases hr : c.rest with
    | nil =>
      -- At the end of the source no semicolon is found.
      rw [statement_of_nil hr] at h
      have hs := at_of_expect (List.append_eq_nil_iff.mp h).2
      have hne := List.length_pos_iff.mpr (Cursor.rest_ne_nil_of_at hs)
      have hle := c.size_untilSemicolon_le
      simp only [Cursor.size, hr, List.length_nil] at hle
      omega
    | cons t ts =>
      rw [statement_of_cons hr] at h ⊢
      have hadv := Cursor.size_advance_lt (Cursor.rest_ne_nil_of_eq hr)
      cases ho : Opening.ofLexeme t.item with
      | block =>
        simp only [ho] at h ⊢
        exact .nested hr ho (reads_of_run (.block t.span) depth c.advance h)
      | empty => exact .empty hr ho
      | conditional =>
        simp only [ho] at h ⊢
        exact .chosen hr ho (reads_of_run (.conditional t.span) depth c.advance h)
      | returning =>
        cases hclause : c.advance.untilSemicolon with
        | mk value faults mid =>
          simp only [ho, returning, hclause, Parsed.map, List.append_eq_nil_iff] at h ⊢
          obtain ⟨rfl, hs⟩ := h
          simp only [expect_of_at (at_of_expect hs)]
          exact .returned hr ho hclause (at_of_expect hs)
      | loop =>
        have hle := size_groupIfNext_le c.advance
        cases hhead : groupIfNext c.advance with
        | mk head faults mid =>
          rw [hhead] at hle
          simp only [ho, loop_val t hhead rfl, Parsed.map, List.append_eq_nil_iff] at h ⊢
          obtain ⟨rfl, hbody⟩ := h
          exact .loop hr ho hhead (reads_of_run .statement depth mid hbody)
      | doLoop =>
        simp only [ho, doLoop_val t rfl, Parsed.map, List.append_eq_nil_iff] at h ⊢
        cases hend : loopEnd (statement depth c.advance).val.next with
        | mk value faults next =>
          simp only [hend] at h ⊢
          obtain ⟨hbody, rfl⟩ := h
          exact .doLoop hr ho (reads_of_run .statement depth c.advance hbody) hend
      | orphanElse => simp [ho, Parsed.map] at h
      | simple =>
        cases hclause : c.untilSemicolon with
        | mk value faults mid =>
          simp only [ho, simple, hclause, Parsed.map, List.append_eq_nil_iff] at h ⊢
          obtain ⟨rfl, hs⟩ := h
          have hs := at_of_expect hs
          simp only [expect_of_at hs, hs, if_true]
          exact .simple hr ho hclause hs
  | .branch, depth, c, h => by
    simp only [Form.run] at h ⊢
    cases hb : c.at? .lbrace with
    | true =>
      have hadv := Cursor.size_advance_lt (Cursor.rest_ne_nil_of_at hb)
      rw [branch_of_lbrace hb] at h ⊢
      exact .braced hb (reads_of_run (.block c.here) depth c.advance h)
    | false =>
      rw [branch_of_not_lbrace hb rfl] at h ⊢
      exact .unbraced hb (reads_of_run .statement depth c h)
  | .conditional keyword, depth, c, h => by
    simp only [Form.run] at h ⊢
    have hle := size_condition_le c
    cases hc : condition c with
    | mk test faults mid =>
      rw [hc] at hle
      have hmid := (branch depth mid).property
      cases he : (branch depth mid).val.next.atKeyword? .elseKw with
      | true =>
        have hadv := Cursor.size_advance_lt (Cursor.rest_ne_nil_of_atKeyword he)
        simp only [conditional_of_else keyword hc rfl he, Parsed.map, List.append_eq_nil_iff] at h ⊢
        obtain ⟨⟨rfl, hfirst⟩, hsecond⟩ := h
        obtain ⟨-, -, -, hsome⟩ := condition_eq_of_faults (c := c) (by rw [hc])
        cases hc.symm.trans hsome
        exact .ifElse hc (reads_of_run .branch depth c.group.next hfirst) he
          (reads_of_run .branch depth (branch depth c.group.next).val.next.advance hsecond)
      | false =>
        simp only [conditional_of_not_else keyword hc rfl he, Parsed.map,
          List.append_eq_nil_iff] at h ⊢
        obtain ⟨rfl, hfirst⟩ := h
        obtain ⟨-, -, -, hsome⟩ := condition_eq_of_faults (c := c) (by rw [hc])
        cases hc.symm.trans hsome
        exact .ifThen hc (reads_of_run .branch depth c.group.next hfirst) he
  | .block opening, depth, c, h => by
    simp only [Form.run] at h ⊢
    by_cases hd : depth < maxDepth
    · rw [block_of_lt opening hd rfl] at h ⊢
      simp only [Parsed.map, List.append_eq_nil_iff] at h
      have hclose := at_of_expect h.2
      simp only [expect_of_at hclose]
      exact .block hd (reads_of_run .statements (depth + 1) c h.1) hclose
    · simp [block_of_not_lt opening hd, Parsed.map] at h
termination_by form _ c => 4 * c.size + form.rank
decreasing_by all_goals simp only [Form.rank] at *; omega

end VertexLanes.Parser

namespace VertexLanes

open VertexLanes.Parser

/-- A block is read from a cursor without fault if and only if the grammar derives it after one
brace, and nothing follows. -/
theorem parseTokens_eq_iff {c next : Cursor} {t : Node Token} :
    parseTokens c = ⟨some t, [], next⟩ ↔
      ∃ first ts, c.rest = first :: ts ∧ first.is .lbrace = true ∧
        Reads (.block first.span) 0 c.advance [t] next ∧ next.rest = [] := by
  cases hr : c.rest with
  | nil => simp [parseTokens, hr]
  | cons first ts =>
    cases hb : first.is .lbrace with
    | false => simp [parseTokens, hr, hb]
    | true =>
      have hblock : (Form.block first.span).run 0 c.advance =
          (block 0 first.span c.advance).val.map fun n => [n] := rfl
      simp only [parseTokens, hr, hb, if_true]
      constructor
      · intro h
        cases hrun : (block 0 first.span c.advance).val with
        | mk value faults after =>
          rw [hrun] at h hblock
          cases hend : after.rest.isEmpty with
          | false => simp [hend] at h
          | true =>
            simp only [hend, if_true, Parsed.mk.injEq, Option.some.injEq] at h
            obtain ⟨rfl, rfl, rfl⟩ := h
            have hreads := reads_of_run (.block first.span) 0 c.advance (by rw [hblock]; rfl)
            rw [hblock] at hreads
            exact ⟨first, ts, rfl, hb, hreads, List.isEmpty_iff.mp hend⟩
      · rintro ⟨u, us, hu, -, hreads, hend⟩
        cases hu
        have hrun := hreads.run_eq
        rw [hblock] at hrun
        obtain ⟨n, hval, hn⟩ := Parsed.eq_of_map hrun
        cases hn
        simp [hval, hend]

/-- A source is accepted as a block with tree `t` if and only if it has no lexical fault and the
grammar derives `t` after one brace, and nothing follows. -/
theorem parseBlock_eq_ok_iff {source : List Char} {t : Node Token} :
    parseBlock source = .ok t ↔
      (lex source).faults = [] ∧ ∃ first ts next, (lex source).tokens = first :: ts ∧
        first.is .lbrace = true ∧
        Reads (.block first.span) 0 (lex source).cursor.advance [t] next ∧ next.rest = [] := by
  have htokens : (∃ next, parseTokens (lex source).cursor = ⟨some t, [], next⟩) ↔
      ∃ first ts next, (lex source).tokens = first :: ts ∧ first.is .lbrace = true ∧
        Reads (.block first.span) 0 (lex source).cursor.advance [t] next ∧ next.rest = [] := by
    simp only [parseTokens_eq_iff]
    constructor
    · rintro ⟨next, first, ts, h⟩
      exact ⟨first, ts, next, h⟩
    · rintro ⟨first, ts, next, h⟩
      exact ⟨next, first, ts, h⟩
  rw [← htokens]
  unfold parseBlock
  by_cases hl : (lex source).faults = []
  · cases hp : parseTokens (lex source).cursor with
    | mk value faults next => cases value <;> cases faults <;> simp [hl, hp]
  · simp [hl]

end VertexLanes
