import VertexLanes.Proofs.BlockPlans
import VertexLanes.Proofs.ClassReading

/-!
# What the tasks of a file come to

For every task of the parser of classes, and so for every task there is: what it
comes to may be done, goes on to read or is simpler, and leads where the parser
ends.
-/

namespace VertexLanes

namespace Parser

/-- A data member ends behind its value and its semicolon. -/
theorem dataMember_next (head : List Token) (start : Span) (c : Cursor) :
    (dataMember head start c).next = (fieldValue c).next.skip .semicolon := by
  rw [dataMember, ← Cursor.expect_next]
  split <;> rfl

/-- A skipped declaration ends behind its semicolon. -/
theorem skipDeclaration_next (c : Cursor) :
    (skipDeclaration c).next = c.untilSemicolon.next.skip .semicolon :=
  Cursor.expect_next .semicolon _

private theorem memberHead_of_nil {c : Cursor} (hr : c.rest = []) : memberHead c = ([], c) := by
  have hafter := Cursor.afterRun_of_nil (p := inHead) hr
  simp only [memberHead, hafter, Cursor.run, hr, List.takeWhile_nil]

/-- A head ends at the first token that ends heads. -/
theorem memberHead_of_ends {c : Cursor} {t : Token} {ts : List Token} (hr : c.rest = t :: ts)
    (ho : (t.item == .keyword .operatorKw) = false) (he : endsHead t.item = true) :
    memberHead c = ([], c) := by
  have hin : inHead t.item = false := by rw [inHead, he]; rfl
  have hafter := Cursor.afterRun_of_stops hr hin
  simp only [memberHead, hafter, hr, ho, Cursor.run, List.takeWhile_cons, hin]
  rfl

/-- The head of an operator goes up to its parameters. -/
theorem memberHead_of_operator {c : Cursor} {t : Token} {ts : List Token} (hr : c.rest = t :: ts)
    (ho : (t.item == .keyword .operatorKw) = true) :
    (memberHead c).2 = (callMark c.advance).2.afterRun (· != .symbol .lparen) := by
  have hin : inHead t.item = false := by rw [inHead, eq_of_beq ho]; rfl
  have hafter := Cursor.afterRun_of_stops hr hin
  simp only [memberHead, hafter, hr, ho]
  rfl

/-- A head goes on behind a token that belongs to it. -/
theorem memberHead_of_inHead {c : Cursor} {t : Token} {ts : List Token} (hr : c.rest = t :: ts)
    (hin : inHead t.item = true) : (memberHead c).2 = (memberHead c.advance).2 := by
  simp only [memberHead, Cursor.afterRun_of_goesOn hr hin]
  split
  · split <;> rfl
  · rfl

/-- Behind the name of an operator its head ends. -/
theorem memberHead_afterRun (c : Cursor) :
    (memberHead (c.afterRun (· != .symbol .lparen))).2 = c.afterRun (· != .symbol .lparen) := by
  cases hr : (c.afterRun (· != .symbol .lparen)).rest with
  | nil => rw [memberHead_of_nil hr]
  | cons t ts =>
    have hdrop : c.rest.dropWhile (fun t : Token => t.item != .symbol .lparen) = t :: ts := hr
    have hstop := List.head?_dropWhile_not (fun t : Token => t.item != .symbol .lparen) c.rest
    rw [hdrop] at hstop
    have ht : t.item = .symbol .lparen := by simpa using hstop
    rw [memberHead_of_ends hr (by rw [ht]; rfl) (by rw [ht]; rfl)]

end Parser

namespace Parser.Task

/-- The mark of a call operator comes to its two parentheses, or to nothing. -/
theorem exists_plans_callMark (c : Cursor) : ∃ ts, callMark.Plans c ts := by
  have htarget : callMark.target c = (Parser.callMark c).2 := rfl
  rw [Parser.callMark] at htarget
  split at htarget
  · next t u us hr =>
    have hnext : c.advance.rest ≠ [] := by
      rw [Cursor.advance, hr]
      exact List.cons_ne_nil u us
    split at htarget
    · next h =>
      exact ⟨[.advance, .advance], .advance (by simp only [plan, hr, h, if_true]) rfl
        (Cursor.rest_ne_nil_of_eq hr) Nat.one_pos ⟨hnext, trivial⟩ htarget.symm⟩
    · next h => exact ⟨[], .done (by simp only [plan, hr, if_neg h]) htarget⟩
  · next h =>
    refine ⟨[], .done ?_ htarget⟩
    rw [plan]
    split
    · next t u us hr => exact absurd hr (h t u us)
    · rfl

/-- The head of a member comes to a token and the rest of the head. An operator takes its name in
one run. -/
theorem exists_plans_memberHead (c : Cursor) : ∃ ts, memberHead.Plans c ts := by
  cases hr : c.rest with
  | nil =>
    exact ⟨[], .done (by simp only [plan, hr]) (congrArg Prod.snd (memberHead_of_nil hr))⟩
  | cons t ts =>
    have hne := Cursor.rest_ne_nil_of_eq hr
    cases ho : t.item == .keyword .operatorKw with
    | true =>
      refine ⟨[.advance, .callMark, .run .operatorName, .memberHead],
        .advance (by simp only [plan, hr, ho, if_true]) rfl hne Nat.two_pos
          ⟨trivial, trivial, trivial, trivial⟩ ?_⟩
      exact (memberHead_afterRun _).trans (memberHead_of_operator hr ho).symm
    | false =>
      cases he : endsHead t.item with
      | true =>
        exact ⟨[], .done (by simp only [plan, hr, ho, he]; rfl)
          (congrArg Prod.snd (memberHead_of_ends hr ho he))⟩
      | false =>
        have hin : inHead t.item = true := by
          rw [inHead, he, bne, ho]
          rfl
        exact ⟨[.advance, .memberHead],
          .advance (by simp only [plan, hr, ho, he]; rfl) rfl hne Nat.two_pos ⟨trivial, trivial⟩
            (memberHead_of_inHead hr hin).symm⟩

/-- The value of a field comes to a clause, behind its sign or its braces. -/
theorem exists_plans_fieldValue (c : Cursor) : ∃ ts, fieldValue.Plans c ts := by
  have htarget : fieldValue.target c = (Parser.fieldValue c).next := rfl
  rw [Parser.fieldValue] at htarget
  split at htarget
  · next h =>
    exact ⟨[.advance, .untilSemicolon], .advance (by simp only [plan, h, if_true]) rfl
      (Cursor.rest_ne_nil_of_at h) (Nat.succ_pos _) ⟨trivial, trivial⟩ htarget.symm⟩
  · next h =>
    split at htarget
    · next hbrace =>
      obtain ⟨t, ts, hr, ht⟩ := Cursor.exists_rest_of_at hbrace
      exact ⟨[.group 0, .untilSemicolon],
        .group (by simp only [plan, if_neg h, if_pos hbrace]) rfl hr (Token.side_of_is ht)
          (by decide) ⟨trivial, trivial⟩ htarget.symm⟩
    · next hbrace =>
      exact ⟨[.untilSemicolon], .simpler (by simp only [plan, if_neg h, if_neg hbrace]) rfl
        ⟨trivial, trivial⟩ (by simp [rank]) htarget.symm⟩

/-- Initialisers are skipped behind their colon. -/
theorem exists_plans_initializers (c : Cursor) : ∃ ts, initializers.Plans c ts := by
  have htarget : initializers.target c = (Parser.initializers c).next := rfl
  rw [Parser.initializers] at htarget
  split at htarget
  · next h =>
    exact ⟨[.advance, .skipInitializers false], .advance (by simp only [plan, h, if_true]) rfl
      (Cursor.rest_ne_nil_of_at h) (Nat.succ_pos _) ⟨trivial, trivial⟩ htarget.symm⟩
  · next h => exact ⟨[], .done (by simp only [plan, if_neg h]) htarget⟩

/-- The body of a method comes to a block behind its brace, or to a semicolon. -/
theorem exists_plans_methodBody (c : Cursor) : ∃ ts, methodBody.Plans c ts := by
  cases h : c.at? .lbrace with
  | true =>
    refine ⟨[.advance, .block 0], .advance (by simp only [plan, h, if_true]) rfl
      (Cursor.rest_ne_nil_of_at h) (Nat.succ_pos _) ⟨trivial, trivial⟩ ?_⟩
    rw [target, h]
    exact (block_next 0 c.here c.advance).symm
  | false =>
    refine ⟨[.skip .semicolon], .simpler (by simp only [plan, h]; rfl) rfl ⟨trivial, trivial⟩
      (by simp [rank]) ?_⟩
    rw [target, h]
    rfl

/-- The end of a method comes to a clause behind its sign, or to initialisers and a body. -/
theorem exists_plans_methodEnd (c : Cursor) : ∃ ts, methodEnd.Plans c ts := by
  have htarget : methodEnd.target c = (Parser.methodEnd c).next := rfl
  rw [Parser.methodEnd] at htarget
  split at htarget
  · next h =>
    exact ⟨[.advance, .untilSemicolon, .skip .semicolon],
      .advance (by simp only [plan, h, if_true]) rfl (Cursor.rest_ne_nil_of_at h)
        (Nat.succ_pos _) ⟨trivial, trivial, trivial⟩
        ((Cursor.expect_next .semicolon _).symm.trans htarget.symm)⟩
  · next h =>
    refine ⟨[.initializers, .methodBody], .simpler (by simp only [plan, if_neg h]) rfl
      ⟨trivial, trivial, trivial⟩ (by simp [rank]) ?_⟩
    change methodBody.target (Parser.initializers c).next = _
    rw [htarget, target]
    cases hb : (Parser.initializers c).next.at? .lbrace with
    | true => simp only [hb, if_true]
    | false =>
      simp only [hb, Bool.false_eq_true, if_false]
      exact (Cursor.expect_next .semicolon _).symm

/-- Behind its head a member comes to the parameters and the end of a method, or to a value and a
semicolon. -/
theorem exists_plans_memberRest (c : Cursor) : ∃ ts, memberRest.Plans c ts := by
  cases h : c.at? .lparen with
  | true =>
    obtain ⟨t, ts, hr, ht⟩ := Cursor.exists_rest_of_at h
    refine ⟨[.group 0, .run .qualifiers, .methodEnd],
      .group (by simp only [plan, h, if_true]) rfl hr (Token.side_of_is ht) (by decide)
        ⟨trivial, trivial, trivial⟩ ?_⟩
    rw [target, h]
    rfl
  | false =>
    refine ⟨[.fieldValue, .skip .semicolon], .simpler (by simp only [plan, h]; rfl) rfl
      ⟨trivial, trivial, trivial⟩ (by simp [rank]) ?_⟩
    rw [target, h]
    exact (dataMember_next [] c.here c).symm

/-- A member comes to its head and what is behind it. Without a head it is skipped as an item. -/
theorem exists_plans_member (c : Cursor) : ∃ ts, member.Plans c ts := by
  have htarget : member.target c = (Parser.member c).next := rfl
  rw [Parser.member] at htarget
  split at htarget
  · next h =>
    exact ⟨[.memberHead, .skipItem], .simpler (by simp only [plan, h, if_true]) rfl
      ⟨trivial, trivial, trivial⟩ (by simp [rank]) htarget.symm⟩
  · next h =>
    refine ⟨[.memberHead, .memberRest], .simpler (by simp only [plan, if_neg h]) rfl
      ⟨trivial, trivial, trivial⟩ (by simp [rank]) ?_⟩
    change memberRest.target (Parser.memberHead c).2 = _
    rw [htarget, target]
    cases (Parser.memberHead c).2.at? .lparen with
    | true => rfl
    | false => exact (dataMember_next _ _ _).trans (dataMember_next _ _ _).symm

/-- Base classes come to a run behind their colon, or to nothing. -/
theorem exists_plans_bases (c : Cursor) : ∃ ts, bases.Plans c ts := by
  have htarget : bases.target c = (Parser.bases c).2 := rfl
  rw [Parser.bases] at htarget
  split at htarget
  · next h =>
    exact ⟨[.advance, .run .bases], .advance (by simp only [plan, h, if_true]) rfl
      (Cursor.rest_ne_nil_of_at h) Nat.two_pos ⟨trivial, trivial⟩ htarget.symm⟩
  · next h => exact ⟨[], .done (by simp only [plan, if_neg h]) htarget⟩

/-- The body of a class comes to its members between braces and what is left up to a semicolon. -/
theorem exists_plans_classBody (c : Cursor) : ∃ ts, classBody.Plans c ts := by
  have htarget : classBody.target c = afterBases c := rfl
  rw [afterBases] at htarget
  split at htarget
  · next h =>
    refine ⟨[.advance, .members, .skip .rbrace, .untilSemicolon, .skip .semicolon],
      .advance (by simp only [plan, h, if_true]) rfl (Cursor.rest_ne_nil_of_at h)
        (Nat.succ_pos _) ⟨trivial, trivial, trivial, trivial, trivial⟩ ?_⟩
    rw [htarget, skipDeclaration_next, Cursor.expect_next]
    rfl
  · next h =>
    exact ⟨[.skipItem], .simpler (by simp only [plan, if_neg h]) rfl ⟨trivial, trivial⟩
      (by simp [rank]) htarget.symm⟩

/-- Behind its name a class comes to a semicolon, or to its bases and its body. -/
theorem exists_plans_classRest (c : Cursor) : ∃ ts, classRest.Plans c ts := by
  cases h : c.at? .semicolon with
  | true =>
    exact ⟨[.advance], .advance (by simp only [plan, h, if_true]) rfl
      (Cursor.rest_ne_nil_of_at h) (Nat.succ_pos _) trivial (by rw [target, h]; rfl)⟩
  | false =>
    exact ⟨[.bases, .classBody], .simpler (by simp only [plan, h]; rfl) rfl
      ⟨trivial, trivial, trivial⟩ (by simp [rank]) (by rw [target, h]; rfl)⟩

end Parser.Task

namespace Parser

/-- A class with a name ends where the rest behind the name does. -/
theorem classDef_next_of_ident {c : Cursor} {name : String} {span : Span} {ts : List Token}
    (key : ClassKey) (start : Span) (hr : c.rest = ⟨.ident name, span⟩ :: ts) :
    (classDef key start c).val.next = Task.classRest.target c.advance := by
  rw [classDef]
  split
  · next name' span' ts' hr' =>
    rw [hr] at hr'
    cases hr'
    rw [Task.target]
    cases c.advance.at? .semicolon with
    | true => rfl
    | false =>
      rw [Task.afterBases]
      cases (bases c.advance).2.at? .lbrace <;> rfl
  · next h => exact absurd hr (h _ _ _)

/-- A class without a name is skipped. -/
theorem classDef_next_of_not_ident {c : Cursor}
    (key : ClassKey) (start : Span) (hr : ∀ name span ts, c.rest ≠ ⟨.ident name, span⟩ :: ts) :
    (classDef key start c).val.next = c.skipItem.next := by
  rw [classDef]
  split
  · next name span ts hc => exact absurd hc (hr name span ts)
  · rfl

end Parser

namespace Parser.Task

/-- A name comes next, or it does not. -/
theorem exists_ident_or_ne (c : Cursor) :
    (∃ name span ts, c.rest = ⟨.ident name, span⟩ :: ts) ∨
      ∀ name span ts, c.rest ≠ ⟨.ident name, span⟩ :: ts := by
  by_cases h : ∃ name span ts, c.rest = ⟨.ident name, span⟩ :: ts
  · exact .inl h
  · exact .inr fun name span ts hr => h ⟨name, span, ts, hr⟩

/-- The place behind a class does not depend on its keyword. -/
theorem classDef_next (key : ClassKey) (start : Span) (c : Cursor) :
    (Parser.classDef key start c).val.next = classDef.target c := by
  rcases exists_ident_or_ne c with ⟨name, span, ts, hr⟩ | hr
  · exact (classDef_next_of_ident key start hr).trans
      (classDef_next_of_ident .structKey c.here hr).symm
  · exact (classDef_next_of_not_ident key start hr).trans
      (classDef_next_of_not_ident .structKey c.here hr).symm

/-- A class comes to its name and what is behind it. Without a name it is skipped as an item. -/
theorem exists_plans_classDef (c : Cursor) : ∃ ts, classDef.Plans c ts := by
  rcases exists_ident_or_ne c with ⟨name, span, ts, hr⟩ | hr
  · exact ⟨[.advance, .classRest], .advance (by simp only [plan, hr]) rfl
      (Cursor.rest_ne_nil_of_eq hr) (Nat.succ_pos _) ⟨trivial, trivial⟩
      (classDef_next_of_ident .structKey c.here hr).symm⟩
  · refine ⟨[.skipItem], .simpler ?_ rfl ⟨trivial, trivial⟩ (by simp [rank])
      (classDef_next_of_not_ident .structKey c.here hr).symm⟩
    rw [plan]
    split
    · next name span ts hc => exact absurd hc (hr name span ts)
    · rfl

/-- An entry of a class ends where the plan for its first token leads. -/
theorem entry_next {t : Token} {c : Cursor} :
    (entryFrom t c).next = targets c (entryPlan (.ofLexeme t.item)) := by
  rw [entryFrom]
  cases MemberOpening.ofLexeme t.item with
  | access => exact Cursor.expect_next .colon _
  | idle => rfl
  | nested key => exact classDef_next key t.span c.advance
  | member => rfl
  | _ => exact skipDeclaration_next c.advance

/-- An item of a file ends where the plan for its first token leads. -/
theorem item_next {t : Token} {c : Cursor} :
    (itemFrom t c).next = targets c (itemPlan (.ofLexeme t.item)) := by
  rw [itemFrom]
  cases MemberOpening.ofLexeme t.item with
  | idle => rfl
  | nested key => exact classDef_next key t.span c.advance
  | _ => rfl

/-- The members of a class go on behind the next entry. -/
theorem members_next {t : Token} {ts : List Token} {c : Cursor} (hr : c.rest = t :: ts)
    (ht : ¬t.is .rbrace = true) :
    (Parser.members c).val.next = members.target (entryFrom t c).next := by
  rw [Parser.members]
  split
  · next hc => cases hr.symm.trans hc
  · next u us hc =>
    cases hr.symm.trans hc
    rw [if_neg ht, entryFrom]
    simp only
    cases MemberOpening.ofLexeme t.item <;> rfl

/-- The classes of a file go on behind the next item. -/
theorem classes_next {t : Token} {ts : List Token} {c : Cursor} (hr : c.rest = t :: ts) :
    (Parser.classes c).next = (Parser.classes (itemFrom t c).next).next := by
  rw [Parser.classes]
  split
  · next hc => cases hr.symm.trans hc
  · next u us hc =>
    cases hr.symm.trans hc
    rw [itemFrom]
    simp only
    cases MemberOpening.ofLexeme t.item <;> rfl

/-- Members come to what the next token opens and the other members, up to the closing brace. -/
theorem exists_plans_members (c : Cursor) : ∃ ts, members.Plans c ts := by
  cases hr : c.rest with
  | nil =>
    exact ⟨[], .done (by simp only [plan, hr])
      (congrArg Parsed.next (members_of_atBlockEnd (by simp [Cursor.atBlockEnd, hr])))⟩
  | cons t ts =>
    by_cases ht : t.is .rbrace = true
    · have hend : c.atBlockEnd = true := by
        simpa [Cursor.atBlockEnd, Cursor.at?, Cursor.peek, hr, Token.is] using ht
      exact ⟨[], .done (by simp only [plan, hr, if_pos ht])
        (congrArg Parsed.next (members_of_atBlockEnd hend))⟩
    · have hne := Cursor.rest_ne_nil_of_eq hr
      have hplan : members.plan c = some (entryPlan (.ofLexeme t.item) ++ [.members]) := by
        simp only [plan, hr, if_neg ht]
      have htarget : targets c (entryPlan (.ofLexeme t.item) ++ [.members]) = members.target c := by
        rw [targets_append, ← entry_next]
        exact (members_next hr ht).symm
      refine ⟨entryPlan (.ofLexeme t.item) ++ [.members], ?_⟩
      cases ho : MemberOpening.ofLexeme t.item with
      | member =>
        rw [ho] at hplan htarget
        exact ⟨hplan, ⟨trivial, trivial, trivial⟩, ⟨.inr ⟨Nat.le_refl _, Nat.lt_add_one 8⟩,
          descends_of_lt (size_member_lt hne) _⟩, htarget⟩
      | _ =>
        rw [ho] at hplan htarget
        exact .advance hplan rfl hne (Nat.succ_pos _) (by simp [AllReady, Ready]) htarget

/-- The classes of a file come to what the next token opens and the other classes. -/
theorem exists_plans_classes (c : Cursor) : ∃ ts, classes.Plans c ts := by
  cases hr : c.rest with
  | nil =>
    refine ⟨[], .done (by simp only [plan, hr]) ?_⟩
    rw [target, Parser.classes]
    split
    · rfl
    · next t ts hc => cases hr.symm.trans hc
  | cons t ts =>
    have hne := Cursor.rest_ne_nil_of_eq hr
    have hplan : classes.plan c = some (itemPlan (.ofLexeme t.item) ++ [.classes]) := by
      simp only [plan, hr]
    have htarget : targets c (itemPlan (.ofLexeme t.item) ++ [.classes]) = classes.target c := by
      rw [targets_append, ← item_next]
      exact (classes_next hr).symm
    refine ⟨itemPlan (.ofLexeme t.item) ++ [.classes], ?_⟩
    have hskip : AllReady c [.skipItem, .classes] ∧ Descends 9 c c [.skipItem, .classes] :=
      ⟨⟨trivial, trivial, trivial⟩, .inr ⟨Nat.le_refl _, by decide⟩,
        descends_of_lt (Cursor.size_skipItem_lt hne) _⟩
    cases ho : MemberOpening.ofLexeme t.item with
    | idle | nested =>
      rw [ho] at hplan htarget
      exact .advance hplan rfl hne (Nat.succ_pos _) (by simp [AllReady, Ready]) htarget
    | _ =>
      rw [ho] at hplan htarget
      exact ⟨hplan, hskip.1, hskip.2, htarget⟩

/-! ## Every task -/

/-- A task that may begin comes to tasks that may be done, go on to read or are simpler, and lead
where it leads. -/
theorem exists_plans {t : Task} {c : Cursor} (h : t.Ready c) : ∃ ts, t.Plans c ts := by
  cases t with
  | advance =>
    have hne : c.rest.isEmpty = false := List.isEmpty_eq_false_iff.mpr h
    exact ⟨[], .done (by rw [plan, hne]; rfl) rfl⟩
  | skip mark => exact exists_plans_skip mark c
  | run kind => exact exists_plans_run kind c
  | group opened => exact exists_plans_group opened h
  | untilSemicolon => exact exists_plans_untilSemicolon c
  | skipItem => exact exists_plans_skipItem c
  | skipInitializers afterName => exact exists_plans_skipInitializers afterName c
  | groupIfNext => exact exists_plans_groupIfNext c
  | statements depth => exact exists_plans_statements depth c
  | block depth => exact exists_plans_block depth c
  | statement depth => exact exists_plans_statement depth c
  | branch depth => exact exists_plans_branch depth c
  | elseBranch depth => exact exists_plans_elseBranch depth c
  | loopEnd => exact exists_plans_loopEnd c
  | body => exact exists_plans_body c
  | callMark => exact exists_plans_callMark c
  | memberHead => exact exists_plans_memberHead c
  | member => exact exists_plans_member c
  | memberRest => exact exists_plans_memberRest c
  | fieldValue => exact exists_plans_fieldValue c
  | methodEnd => exact exists_plans_methodEnd c
  | initializers => exact exists_plans_initializers c
  | methodBody => exact exists_plans_methodBody c
  | bases => exact exists_plans_bases c
  | classDef => exact exists_plans_classDef c
  | classRest => exact exists_plans_classRest c
  | classBody => exact exists_plans_classBody c
  | members => exact exists_plans_members c
  | classes => exact exists_plans_classes c

end Parser.Task

end VertexLanes
