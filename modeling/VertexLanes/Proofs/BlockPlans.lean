import Mathlib.Data.List.TakeWhile
import VertexLanes.Proofs.BlockReading
import VertexLanes.Proofs.ParserTasks

/-!
# What the tasks of a block come to

For every task of the parser of blocks: what it comes to may be done, goes on to
read or is simpler, and leads where the parser ends.
-/

namespace VertexLanes

/-! ## Steps over tokens and groups -/

namespace Cursor

section
variable {c : Cursor} {t : Token} {ts : List Token} {p : Lexeme → Bool}

/-- Advancing drops the next token and remembers where it was. -/
theorem advance_of_rest (hr : c.rest = t :: ts) :
    c.advance = { c with rest := ts, last := some t.span } := by
  rw [advance, hr]

theorem afterRun_of_nil (hr : c.rest = []) : c.afterRun p = c := by
  simp only [afterRun, run, hr, List.dropWhile_nil, List.takeWhile_nil, List.getLast?_nil]
  rw [← hr]
  rfl

theorem afterRun_of_stops (hr : c.rest = t :: ts) (hp : p t.item = false) : c.afterRun p = c := by
  simp only [afterRun, run, hr, List.dropWhile_cons, List.takeWhile_cons, hp, Bool.false_eq_true,
    if_false]
  rw [← hr]
  rfl

/-- A run goes on behind a token that belongs to it. -/
theorem afterRun_of_goesOn (hr : c.rest = t :: ts) (hp : p t.item = true) :
    c.afterRun p = c.advance.afterRun p := by
  simp only [advance_of_rest hr, afterRun, run, hr, List.dropWhile_cons, List.takeWhile_cons, hp,
    if_true, List.getLast?_cons]
  cases (List.takeWhile (fun t => p t.item) ts).getLast? <;> rfl

/-- Going to the end is a run of whatever tokens there are. -/
theorem toEnd_eq_afterRun (c : Cursor) : c.toEnd = c.afterRun fun _ => true := by
  have htake : c.rest.takeWhile (fun _ => true) = c.rest :=
    List.takeWhile_eq_self_iff.mpr fun _ _ => rfl
  have hdrop : c.rest.dropWhile (fun _ => true) = [] :=
    List.dropWhile_eq_nil_iff.mpr fun _ _ => rfl
  simp only [toEnd, afterRun, run, htake, hdrop]

private theorem afterGroup_of_nil (hr : c.rest = []) (depth : Nat) : c.afterGroup depth = c := by
  simp only [afterGroup, hr, spanGroup, List.getLast?_nil]
  rw [← hr]
  rfl

/-- A group ends behind the bracket that closes it. -/
theorem afterGroup_of_closes {depth : Nat} (hr : c.rest = t :: ts)
    (hd : depthAfter depth t.side = none) : c.afterGroup depth = c.advance := by
  simp only [afterGroup, advance, hr, spanGroup, hd]
  rfl

/-- A group goes on behind a token that leaves it open. -/
theorem afterGroup_of_goesOn {depth inside : Nat} (hr : c.rest = t :: ts)
    (hd : depthAfter depth t.side = some inside) :
    c.afterGroup depth = c.advance.afterGroup inside := by
  simp only [advance_of_rest hr, afterGroup, hr, spanGroup, hd, List.getLast?_cons]
  cases (spanGroup inside ts).tokens.getLast? <;> rfl

private theorem group_next (hr : c.rest = t :: ts) : c.group.next = c.advance.afterGroup 0 := by
  simp only [advance_of_rest hr, afterGroup, group, hr, List.getLast?_cons]
  cases (spanGroup 0 ts).tokens.getLast? <;> rfl

/-- A mark that is expected is skipped if it is there. -/
theorem expect_next (mark : Symbol) (c : Cursor) : (c.expect mark).next = c.skip mark := by
  unfold expect skip
  split <;> rfl

/-- At a mark there is a token with it. -/
theorem exists_rest_of_at {mark : Symbol} (h : c.at? mark = true) :
    ∃ t ts, c.rest = t :: ts ∧ t.is mark = true := by
  obtain ⟨t, ts, hr⟩ := List.exists_cons_of_ne_nil (rest_ne_nil_of_at h)
  refine ⟨t, ts, hr, ?_⟩
  simpa [at?, peek, hr, Token.is] using h

end

end Cursor

/-- A token with a mark stands on the side of the mark. -/
theorem Token.side_of_is {mark : Symbol} {t : Token} (h : t.is mark = true) :
    t.side = (Lexeme.symbol mark).side := by
  rw [Token.side, eq_of_beq h]

namespace Parser.Task

/-- Skipping a mark comes to stepping over it, or to nothing where it is missing. -/
theorem exists_plans_skip (mark : Symbol) (c : Cursor) : ∃ ts, (Task.skip mark).Plans c ts := by
  cases h : c.at? mark with
  | false =>
    refine ⟨[], .done (by simp only [plan, h]; rfl) ?_⟩
    simp only [target, move, Cursor.skip, h]
    rfl
  | true =>
    refine ⟨[.advance], .advance (by simp only [plan, h]; rfl) rfl (Cursor.rest_ne_nil_of_at h)
      Nat.one_pos trivial ?_⟩
    simp only [targets, target, Cursor.skip, h]
    rfl

/-- A run comes to one token of it and the rest of the run. -/
theorem exists_plans_run (kind : Run) (c : Cursor) : ∃ ts, (Task.run kind).Plans c ts := by
  cases hr : c.rest with
  | nil => exact ⟨[], .done (by simp only [plan, hr]) (Cursor.afterRun_of_nil hr)⟩
  | cons t ts =>
    cases h : kind.goesOn t.item with
    | false =>
      exact ⟨[], .done (by simp only [plan, hr, h]; rfl) (Cursor.afterRun_of_stops hr h)⟩
    | true =>
      exact ⟨[.advance, .run kind], .advance (by simp only [plan, hr, h]; rfl) rfl
        (Cursor.rest_ne_nil_of_eq hr) Nat.one_pos ⟨trivial, trivial⟩
        (Cursor.afterRun_of_goesOn hr h).symm⟩

/-- Inside a group a closing bracket leaves one open bracket less. -/
theorem openedAfter_succ (depth : Nat) (side : Side) :
    openedAfter (depth + 1) side = some ((Cursor.depthAfter depth side).elim 0 Nat.succ) := by
  cases side with
  | opening => rfl
  | plain => rfl
  | closing =>
    cases depth with
    | zero => rfl
    | succ depth => rfl

/-- A group that may begin here comes to its next bracket or token and what is left of it. -/
theorem exists_plans_group (opened : Nat) {c : Cursor} (h : (Task.group opened).Ready c) :
    ∃ ts, (Task.group opened).Plans c ts := by
  cases hr : c.rest with
  | nil =>
    refine ⟨[], .done (by simp only [plan, hr]) ?_⟩
    cases opened with
    | zero => simp only [target, move, Cursor.group, hr]
    | succ depth => exact Cursor.afterGroup_of_nil hr depth
  | cons t ts =>
    have hne := Cursor.rest_ne_nil_of_eq hr
    cases opened with
    | zero =>
      have hside : t.side = .opening := h t (by rw [hr]; rfl)
      exact ⟨[.advance, .group 1], .advance (by simp only [plan, hr, hside]; rfl) rfl hne
        Nat.one_pos ⟨trivial, trivial⟩ (Cursor.group_next hr).symm⟩
    | succ depth =>
      cases hd : Cursor.depthAfter depth t.side with
      | none =>
        exact ⟨[.advance], .advance (by simp only [plan, hr, openedAfter_succ, hd]; rfl) rfl hne
          Nat.one_pos trivial (Cursor.afterGroup_of_closes hr hd).symm⟩
      | some inside =>
        exact ⟨[.advance, .group (inside + 1)],
          .advance (by simp only [plan, hr, openedAfter_succ, hd]; rfl) rfl hne Nat.one_pos
            ⟨trivial, trivial⟩ (Cursor.afterGroup_of_goesOn hr hd).symm⟩

/-- A clause comes to a token, or to a group as a whole, and the rest of the clause. -/
theorem exists_plans_untilSemicolon (c : Cursor) : ∃ ts, untilSemicolon.Plans c ts := by
  have htarget : untilSemicolon.target c = c.untilSemicolon.next := rfl
  rw [Cursor.untilSemicolon] at htarget
  split at htarget
  · next hr => exact ⟨[], .done (by simp only [plan, hr]) htarget⟩
  · next t ts hr =>
    have hne := Cursor.rest_ne_nil_of_eq hr
    split at htarget
    · next hstop => exact ⟨[], .done (by simp only [plan, hr, hstop, if_true]) htarget⟩
    · next hstop =>
      split at htarget
      · next hside =>
        exact ⟨[.group 0, .untilSemicolon],
          .group (by simp only [plan, hr, hstop, hside]; rfl) rfl hr hside Nat.one_lt_two
            ⟨trivial, trivial⟩ htarget.symm⟩
      · next hside =>
        exact ⟨[.advance, .untilSemicolon],
          .advance (by simp only [plan, hr, hstop, hside]; rfl) rfl hne Nat.two_pos
            ⟨trivial, trivial⟩ htarget.symm⟩
      · next hside =>
        exact ⟨[.advance, .untilSemicolon],
          .advance (by simp only [plan, hr, hstop, hside]; rfl) rfl hne Nat.two_pos
            ⟨trivial, trivial⟩ htarget.symm⟩

/-- A skipped item comes to a token or a group and, unless that ends it, to the rest of the item. -/
theorem exists_plans_skipItem (c : Cursor) : ∃ ts, skipItem.Plans c ts := by
  have htarget : skipItem.target c = c.skipItem.next := rfl
  rw [Cursor.skipItem] at htarget
  split at htarget
  · next hr => exact ⟨[], .done (by simp only [plan, hr]) htarget⟩
  · next t ts hr =>
    have hne := Cursor.rest_ne_nil_of_eq hr
    split at htarget
    · next hmark =>
      exact ⟨[.advance], .advance (by simp only [plan, hr, hmark, if_true]) rfl hne Nat.two_pos
        trivial htarget.symm⟩
    · next hmark =>
      split at htarget
      · next hbrace =>
        exact ⟨[.group 0, .skip .semicolon],
          .group (by simp only [plan, hr, hmark, hbrace]; rfl) rfl hr (Token.side_of_is hbrace)
            Nat.one_lt_two ⟨trivial, trivial⟩ htarget.symm⟩
      · next hbrace =>
        split at htarget
        · next hside =>
          exact ⟨[.group 0, .skipItem],
            .group (by simp only [plan, hr, hmark, hbrace, hside]; rfl) rfl hr hside
              Nat.one_lt_two ⟨trivial, trivial⟩ htarget.symm⟩
        · next hside =>
          exact ⟨[.advance], .advance (by simp only [plan, hr, hmark, hbrace, hside]; rfl) rfl hne
            Nat.two_pos trivial htarget.symm⟩
        · next hside =>
          exact ⟨[.advance, .skipItem],
            .advance (by simp only [plan, hr, hmark, hbrace, hside]; rfl) rfl hne Nat.two_pos
              ⟨trivial, trivial⟩ htarget.symm⟩

/-- Skipped initialisers come to a token or a group, up to the brace of the body. -/
theorem exists_plans_skipInitializers (afterName : Bool) (c : Cursor) :
    ∃ ts, (skipInitializers afterName).Plans c ts := by
  have htarget : (skipInitializers afterName).target c = (c.skipInitializers afterName).next := rfl
  rw [Cursor.skipInitializers] at htarget
  split at htarget
  · next hr => exact ⟨[], .done (by simp only [plan, hr]) htarget⟩
  · next t ts hr =>
    split at htarget
    · next hopens =>
      have hside : t.side = .opening := by
        rcases Bool.or_eq_true_iff.mp hopens with h | h
        · exact Token.side_of_is h
        · exact Token.side_of_is (Bool.and_eq_true_iff.mp h).1
      exact ⟨[.group 0, .skipInitializers false],
        .group (by simp only [plan, hr, hopens, if_true]) rfl hr hside Nat.one_lt_two
          ⟨trivial, trivial⟩ htarget.symm⟩
    · next hopens =>
      split at htarget
      · next hbrace =>
        exact ⟨[], .done (by simp only [plan, hr, if_neg hopens, if_pos hbrace]) htarget⟩
      · next hbrace =>
        exact ⟨[.advance, .skipInitializers t.item.isName],
          .advance (by simp only [plan, hr, if_neg hopens, if_neg hbrace]) rfl
            (Cursor.rest_ne_nil_of_eq hr) Nat.two_pos ⟨trivial, trivial⟩ htarget.symm⟩

/-- A group that may be missing comes to a group or to nothing. -/
theorem exists_plans_groupIfNext (c : Cursor) : ∃ ts, groupIfNext.Plans c ts := by
  have htarget : groupIfNext.target c = (Parser.groupIfNext c).next := rfl
  rw [Parser.groupIfNext] at htarget
  split at htarget
  · next h =>
    obtain ⟨t, ts, hr, ht⟩ := Cursor.exists_rest_of_at h
    exact ⟨[.group 0], .group (by simp only [plan, h, if_true]) rfl hr (Token.side_of_is ht)
      Nat.one_lt_two trivial htarget.symm⟩
  · next h => exact ⟨[], .done (by simp only [plan, h]; rfl) htarget⟩

end Parser.Task

/-! ## Statements -/

namespace Parser

private theorem condition_next (c : Cursor) : (condition c).next = (groupIfNext c).next := by
  unfold condition groupIfNext
  split
  · simp only
    split
    · rfl
    · split <;> rfl
  · rfl

section
variable (depth : Nat) {c : Cursor}

/-- A block that is not nested too deep ends behind its statements and its brace. -/
theorem block_next_of_lt (opening : Span) (h : depth < maxDepth) :
    (block depth opening c).val.next = (statements (depth + 1) c).val.next.skip .rbrace := by
  rw [block_of_lt opening h rfl]
  exact Cursor.expect_next .rbrace _

/-- A block that is nested too deep takes all tokens. -/
theorem block_next_of_not_lt (opening : Span) (h : ¬depth < maxDepth) :
    (block depth opening c).val.next = c.afterRun fun _ => true := by
  rw [block_of_not_lt opening h]
  exact c.toEnd_eq_afterRun

/-- The place behind a block does not depend on where it is said to begin. -/
theorem block_next (opening : Span) (c : Cursor) :
    (block depth opening c).val.next = (Task.block depth).target c := by
  by_cases h : depth < maxDepth
  · exact (block_next_of_lt depth opening h).trans (block_next_of_lt depth c.here h).symm
  · exact (block_next_of_not_lt depth opening h).trans (block_next_of_not_lt depth c.here h).symm

/-- At the keyword, an else branch is a branch behind it. -/
theorem Task.target_elseBranch_of_at (h : c.atKeyword? .elseKw = true) :
    (Task.elseBranch depth).target c = (Task.branch depth).target c.advance := if_pos h

/-- Without the keyword there is no else branch. -/
theorem Task.target_elseBranch_of_not_at (h : c.atKeyword? .elseKw = false) :
    (Task.elseBranch depth).target c = c := by
  rw [Task.target, h]
  rfl

/-- A conditional ends behind its test and its branches. -/
theorem conditional_next (keyword : Span) (c : Cursor) :
    (conditional depth keyword c).val.next =
      Task.targets c [.groupIfNext, .branch depth, .elseBranch depth] := by
  change _ = (Task.elseBranch depth).target ((Task.branch depth).target (groupIfNext c).next)
  rw [← condition_next]
  cases h : ((Task.branch depth).target (condition c).next).atKeyword? .elseKw with
  | true =>
    rw [Task.target_elseBranch_of_at depth h, conditional_of_else keyword rfl rfl h]
    rfl
  | false =>
    rw [Task.target_elseBranch_of_not_at depth h, conditional_of_not_else keyword rfl rfl h]
    rfl

/-- A statement ends where the plan for its first token leads. -/
theorem statement_next {t : Token} {ts : List Token} (hr : c.rest = t :: ts) :
    (statement depth c).val.next =
      Task.targets c (Task.statementPlan depth (.ofLexeme t.item)) := by
  rw [statement_of_cons hr]
  cases Opening.ofLexeme t.item with
  | block => exact block_next depth t.span c.advance
  | empty => rfl
  | conditional => exact conditional_next depth t.span c.advance
  | returning => exact Cursor.expect_next .semicolon _
  | loop =>
    change (loop depth t c.advance).val.next = _
    rw [loop_val t rfl rfl]
    rfl
  | doLoop =>
    change (doLoop depth t c.advance).val.next = _
    rw [doLoop_val t rfl]
    rfl
  | orphanElse => rfl
  | simple => exact Cursor.expect_next .semicolon _

end

end Parser

namespace Parser.Task

/-- Statements come to one statement and the others, up to the end of the block. -/
theorem exists_plans_statements (depth : Nat) (c : Cursor) :
    ∃ ts, (statements depth).Plans c ts := by
  cases h : c.atBlockEnd with
  | true =>
    exact ⟨[], .done (by simp only [plan, h, if_true])
      (congrArg Parsed.next (statements_of_atBlockEnd h))⟩
  | false =>
    -- the next round begins behind the statement, which has something to read
    have hlt := (Parser.statement depth c).property.2 h
    exact ⟨[.statement depth, .statements depth], by simp only [plan, h]; rfl,
      ⟨trivial, trivial, trivial⟩, ⟨.inr ⟨Nat.le_refl _, Nat.lt_add_one 3⟩, descends_of_lt hlt _⟩,
      (congrArg Parsed.next (statements_of_not_atBlockEnd h rfl)).symm⟩

/-- A block comes to its statements one level deeper and a brace. At the deepest level it comes to a
run to the end. -/
theorem exists_plans_block (depth : Nat) (c : Cursor) : ∃ ts, (block depth).Plans c ts := by
  by_cases h : depth < maxDepth
  · exact ⟨[.statements (depth + 1), .skip .rbrace],
      .simpler (by simp only [plan, h, if_true]) rfl ⟨trivial, trivial, trivial⟩ (by simp [rank])
        (block_next_of_lt depth c.here h).symm⟩
  · exact ⟨[.run .toEnd],
      .simpler (by simp only [plan, h, if_false]) rfl ⟨trivial, trivial⟩ (by simp [rank])
        (block_next_of_not_lt depth c.here h).symm⟩

/-- A statement whose plan is that of a simple one may be done in this way, since a clause and a
mark rank below statements. -/
theorem plans_statement_of_simple {depth : Nat} {c : Cursor}
    (hplan : (statement depth).plan c = some (statementPlan depth .simple))
    (htarget : targets c (statementPlan depth .simple) = (statement depth).target c) :
    (statement depth).Plans c (statementPlan depth .simple) :=
  .simpler hplan rfl ⟨trivial, trivial, trivial⟩ (by simp [rank, statementPlan]) htarget

/-- A statement comes to what its first token opens. -/
theorem exists_plans_statement (depth : Nat) (c : Cursor) :
    ∃ ts, (statement depth).Plans c ts := by
  cases hr : c.rest with
  | nil =>
    refine ⟨_, plans_statement_of_simple (by simp only [plan, hr]) ?_⟩
    rw [target, statement_of_nil hr]
    exact (Cursor.expect_next .semicolon _).symm
  | cons t ts =>
    have hne := Cursor.rest_ne_nil_of_eq hr
    have hplan : (statement depth).plan c = some (statementPlan depth (.ofLexeme t.item)) := by
      simp only [plan, hr]
    have htarget := (statement_next depth hr).symm
    refine ⟨statementPlan depth (.ofLexeme t.item), ?_⟩
    cases ho : Opening.ofLexeme t.item with
    | simple =>
      rw [ho] at hplan htarget
      exact plans_statement_of_simple hplan htarget
    | _ =>
      rw [ho] at hplan htarget
      exact .advance hplan rfl hne (Nat.succ_pos _) (by simp [AllReady, Ready]) htarget

/-- A branch comes to a block behind its brace or to one statement. -/
theorem exists_plans_branch (depth : Nat) (c : Cursor) : ∃ ts, (branch depth).Plans c ts := by
  cases h : c.at? .lbrace with
  | true =>
    refine ⟨[.advance, .block depth], .advance (by simp only [plan, h, if_true]) rfl
      (Cursor.rest_ne_nil_of_at h) (Nat.succ_pos _) ⟨trivial, trivial⟩ ?_⟩
    rw [target, branch_of_lbrace h]
    exact (block_next depth c.here c.advance).symm
  | false =>
    refine ⟨[.statement depth], .simpler (by simp only [plan, h]; rfl) rfl ⟨trivial, trivial⟩
      (by simp [rank]) ?_⟩
    rw [target, branch_of_not_lbrace h rfl]
    rfl

/-- An else branch comes to the branch behind its keyword, or to nothing. -/
theorem exists_plans_elseBranch (depth : Nat) (c : Cursor) :
    ∃ ts, (elseBranch depth).Plans c ts := by
  cases h : c.atKeyword? .elseKw with
  | true =>
    exact ⟨[.advance, .branch depth], .advance (by simp only [plan, h, if_true]) rfl
      (Cursor.rest_ne_nil_of_atKeyword h) (Nat.succ_pos _) ⟨trivial, trivial⟩
      (target_elseBranch_of_at depth h).symm⟩
  | false =>
    exact ⟨[], .done (by simp only [plan, h]; rfl) (target_elseBranch_of_not_at depth h)⟩

/-- The end of a loop comes to its keyword, its test and a semicolon, or to the semicolon alone. -/
theorem exists_plans_loopEnd (c : Cursor) : ∃ ts, loopEnd.Plans c ts := by
  have htarget : loopEnd.target c = (Parser.loopEnd c).next := rfl
  rw [Parser.loopEnd, Cursor.expect_next] at htarget
  split at htarget
  · next h =>
    exact ⟨[.advance, .groupIfNext, .skip .semicolon],
      .advance (by simp only [plan, h, if_true]) rfl (Cursor.rest_ne_nil_of_atKeyword h)
        (Nat.succ_pos _) ⟨trivial, trivial, trivial⟩ htarget.symm⟩
  · next h =>
    exact ⟨[.skip .semicolon], .simpler (by simp only [plan, h]; rfl) rfl ⟨trivial, trivial⟩
      (by simp [rank]) htarget.symm⟩

/-- A body comes to a block behind its brace, or to nothing. -/
theorem exists_plans_body (c : Cursor) : ∃ ts, body.Plans c ts := by
  have htarget : body.target c = (parseTokens c).next := rfl
  rw [parseTokens] at htarget
  split at htarget
  · next hr =>
    exact ⟨[], .done (by simp [plan, Cursor.at?, Cursor.peek, hr]) htarget⟩
  · next t ts hr =>
    have hat : c.at? .lbrace = t.is .lbrace := by
      simp only [Cursor.at?, Cursor.peek, hr, Token.is]
      rfl
    split at htarget
    · next h =>
      exact ⟨[.advance, .block 0], .advance (by simp only [plan, hat, h, if_true]) rfl
        (Cursor.rest_ne_nil_of_eq hr) Nat.one_pos ⟨trivial, trivial⟩
        ((block_next 0 t.span c.advance).symm.trans htarget.symm)⟩
    · next h => exact ⟨[], .done (by simp only [plan, hat, h]; rfl) htarget⟩

end Parser.Task

end VertexLanes
