import VertexLanes.Proofs.AssignmentReading
import VertexLanes.Proofs.SendShape
import VertexLanes.Proofs.StatementContext

/-!
# Sends from source to annotation

A statement that sends a message through the context is followed from the tokens
of a block to the annotated body. It is read without fault wherever a statement
can stand outside the loops of the block, and the annotation keeps it as one send.
Nothing else changes: what the annotation finds and reports in the other
statements is the same as without it. In a loop it is dropped with the loop.
-/

namespace VertexLanes

open Cursor (Clause depthThrough)

/-! ## Reading a send -/

/-- A call of the send function is a clause. -/
theorem clause_signalCall {v m : List Lexeme} (hv : CallArgument v) (hm : CallArgument m) :
    Clause (signalCall v m) := by
  have hgroup : Clause (.symbol .lparen :: (v ++ .symbol .comma :: m ++ [.symbol .rparen])) :=
    .group rfl (balanced_pair hv hm) rfl .nil
  exact .plain rfl (by decide) (.plain rfl (by decide) (.plain rfl (by decide) hgroup))

theorem Cursor.stop_untilSemicolon (c : Cursor) : c.untilSemicolon.next.stop = c.stop := by
  have hadvance : ∀ d : Cursor, d.advance.stop = d.stop := by
    intro d
    unfold advance
    split <;> rfl
  have hgroup : ∀ d : Cursor, d.group.next.stop = d.stop := by
    intro d
    unfold group
    split <;> rfl
  fun_induction untilSemicolon c with
  | case1 => rfl
  | case2 => rfl
  | case3 c t ts _ _ _ g r ih => exact ih.trans (hgroup c)
  | case4 c t ts _ _ _ r ih => exact ih.trans (hadvance c)
  | case5 c t ts _ _ _ r ih => exact ih.trans (hadvance c)

/-- A send is read without fault wherever a statement is read. -/
theorem Parser.reads_signalCall {v m : List Lexeme} (hv : CallArgument v) (hm : CallArgument m)
    (depth : Nat) {c : Cursor} {tokens rest : List Token} {semicolon : Token}
    (hr : c.rest = tokens ++ semicolon :: rest) (hcall : tokens.map Located.item = signalCall v m)
    (hs : semicolon.item = .symbol .semicolon) :
    Reads .statement depth c [Shape.statement tokens (some semicolon)]
      ⟨rest, some semicolon.span, c.stop⟩ := by
  have his : semicolon.is .semicolon = true := by rw [Token.is, hs]; rfl
  obtain ⟨mid, hread, hmid⟩ :=
    Cursor.untilSemicolon_of_clause (clause_signalCall hv hm) hcall hr his
  obtain ⟨context, others, rfl, hcontext, -⟩ := List.map_eq_cons_iff.mp hcall
  have hat : mid.at? .semicolon = true := by
    rw [Cursor.at?, Cursor.peek, hmid, List.head?_cons, Option.map_some, hs, beq_self_eq_true]
  have hstop : mid.stop = c.stop := by
    rw [← c.stop_untilSemicolon, hread]
  have hnext : mid.advance = ⟨rest, some semicolon.span, c.stop⟩ := by
    rw [Cursor.advance, hmid, ← hstop]
  have hsimple := @Reads.simple depth c context _ _ mid hr (by rw [hcontext]; rfl) hread hat
  rwa [hmid, List.head?_cons, hnext] at hsimple

/-! ## The sends of a body -/

mutual
/-- The vertices and messages of the sends of a statement, in order. -/
def Stmt.sends : Stmt → List (String × String)
  | .block ⟨_, stmts⟩ => sendsOf stmts
  | .ifThen _ _ ⟨_, stmts⟩ _ => sendsOf stmts
  | .ifElse _ _ ⟨_, stmts⟩ _ ⟨_, others⟩ _ => sendsOf stmts ++ sendsOf others
  | .send _ vertex message _ => [(vertex, message)]
  | _ => []
/-- The vertices and messages of the sends of some statements, in order. -/
def sendsOf : List Stmt → List (String × String)
  | [] => []
  | s :: ss => s.sends ++ sendsOf ss
end

/-- The vertex and the message of a statement that is a send. -/
def Node.send? (n : Node String) : Option (String × String) :=
  match n.kind with
  | .call => if sendMarker.toList.isPrefixOf n.spelling.toList then sendParts? n else none
  | _ => none

theorem Node.send?_of_kind {n : Node String} (h : n.kind ≠ .call) : n.send? = none := by
  unfold Node.send?
  split
  · next hk => exact absurd hk h
  · rfl

/-- A simple statement is annotated as a send if its node is one. -/
theorem Simple.sendsOf_eq {label : Label} {n : Node String} {kept : Option Stmt}
    {notes : List (Located BodyNotice)} (h : Simple label n kept notes) :
    sendsOf kept.toList = n.send?.toList := by
  cases h with
  | operation hk h =>
    rw [Node.send?_of_kind (by rw [hk]; exact NodeKind.noConfusion)]
    cases kept with
    | none => rfl
    | some s =>
      obtain ⟨target, value, rfl, -⟩ := annotateOperation_kept h
      rfl
  | declaration hk =>
    rw [Node.send?_of_kind (by rw [hk]; exact NodeKind.noConfusion)]
    rfl
  | call hk h =>
    unfold annotateCall at h
    simp only [Node.send?, hk]
    by_cases hp : sendMarker.toList.isPrefixOf n.spelling.toList = true
    · rw [if_pos hp] at h ⊢
      cases hs : sendParts? n with
      | none =>
        rw [hs] at h
        cases h
      | some parts =>
        rw [hs] at h
        cases h
        rfl
    · rw [if_neg hp] at h ⊢
      cases h
      rfl
  | «return» hk =>
    rw [Node.send?_of_kind (by rw [hk]; exact NodeKind.noConfusion)]
    rfl
  | other hk =>
    rw [Node.send?_of_kind (by rw [hk]; exact NodeKind.noConfusion)]
    rfl

theorem gathers_sendsOf : Gathers sendsOf where
  nil := rfl
  cons s ss := by simp [sendsOf]
  block _ _ := List.append_nil _
  ifThen _ _ _ _ _ := List.append_nil _
  ifElse _ _ _ _ _ _ _ _ := List.append_nil _

/-- The sends of a walk are those of the statements in statement position, in their order. -/
theorem Walk.sendsOf_eq {label : Label} {next : Nat} {ns : List (Node String)}
    {r : Noted (List Stmt)} (h : Walk label next ns r) :
    sendsOf r.value = (positions ns).flatMap fun n => n.send?.toList := by
  refine h.gather_eq gathers_sendsOf (fun n hn => ?_) Simple.sendsOf_eq
  rw [Node.send?_of_kind (by rintro hk; rw [hk] at hn; cases hn)]
  rfl

/-! ## A send in a block -/

/-- What the annotation finds of sends in a statement. -/
def sendIn (n : Node Token) : List (String × String) := (n.map Token.spelling).send?.toList

/-- What the annotation reports about a statement. -/
def noticesIn (n : Node Token) : List (Located BodyNotice) := (n.map Token.spelling).notices

/-- A statement at which the annotation fails. -/
def unreadableIn (n : Node Token) : List (Node Token) :=
  if (n.map Token.spelling).unreadableSend then [n] else []

theorem shallow_sendIn : Shallow sendIn where
  block n hk := by
    rw [sendIn, Node.send?_of_kind (by rw [Node.kind_map, hk]; exact NodeKind.noConfusion)]
    rfl
  conditional _ _ _ _ := rfl

/-- A block has no notice of its own, and a conditional that of its test. -/
theorem shallow_noticesIn : Shallow noticesIn where
  block n hk := Node.notices_of_block (by rw [Node.kind_map, hk])
  conditional _ _ _ _ := rfl

theorem shallow_unreadableIn : Shallow unreadableIn where
  block n hk := by
    have hread : (n.map Token.spelling).unreadableSend = false := by
      rw [Node.unreadableSend, Node.kind_map, hk]
      rfl
    rw [unreadableIn, hread]
    rfl
  conditional _ _ _ _ := rfl

section
variable {t : Node Token} {a : Annotated}

/-- The sends and the notices of an annotated body are found in its statements. -/
theorem found_of_annotate (h : annotate (t.map Token.spelling) = .ok a) :
    sendsOf a.root.stmts = foundIn sendIn t.children ∧
      a.notices = foundIn noticesIn t.children := by
  obtain ⟨-, r, hw, rfl⟩ := walk_of_annotate h
  rw [Node.children_map] at hw
  exact ⟨hw.sendsOf_eq.trans (foundIn_map _ _), hw.notices_eq.trans (foundIn_map _ _)⟩

/-- No unreadable send is found if and only if no statement is one. -/
theorem foundIn_unreadableIn_eq_nil_iff {ns : List (Node Token)} :
    foundIn unreadableIn ns = [] ↔
      ∀ n ∈ positions (ns.map (Node.map Token.spelling)), n.unreadableSend = false := by
  rw [foundIn, List.flatMap_eq_nil_iff, ← Node.mapList_eq_map, positions_mapList,
    List.forall_mem_map]
  refine forall_congr' fun n => forall_congr' fun _ => ?_
  unfold unreadableIn
  cases (n.map Token.spelling).unreadableSend <;> simp

/-- No statement of an annotated body is an unreadable send. -/
theorem unreadable_of_annotate (h : annotate (t.map Token.spelling) = .ok a) :
    foundIn unreadableIn t.children = [] := by
  obtain ⟨hk, -⟩ := walk_of_annotate h
  have hfault := fault?_annotate hk
  rw [h, Node.children_map] at hfault
  rw [foundIn_unreadableIn_eq_nil_iff]
  intro n hn
  have hnone := List.findSome?_eq_none_iff.mp hfault.symm n hn
  rw [Node.bodyFault?, Option.map_eq_none_iff, Node.malformation?] at hnone
  cases hu : n.unreadableSend with
  | false => rfl
  | true =>
    have hcall : n.kind = .call := by
      simp only [Node.unreadableSend, Bool.and_eq_true, beq_iff_eq] at hu
      exact hu.1.1.1
    rw [hcall] at hnone
    simp [hu] at hnone

/-- An accepted body without unreadable sends is annotated. -/
theorem exists_annotate (h : t.Accepted) (hread : foundIn unreadableIn t.children = []) :
    ∃ a, annotate (t.map Token.spelling) = .ok a := by
  refine exists_ok_of_fault? ?_
  have hwf := allPositions_wellFormed_map Token.spelling h.wellFormed
  rw [fault?_annotate (by rw [Node.kind_map, h.kind_eq]), Node.children_map,
    findSome?_bodyFault? hwf, Option.map_eq_none_iff, List.find?_eq_none]
  intro n hn
  rw [foundIn_unreadableIn_eq_nil_iff.mp hread n hn]
  exact Bool.false_ne_true

end

/-- A call spelled as a send of two arguments is a readable send without notices. -/
theorem Node.send_of_sendSpelling {n vertex message : Node String} {v m : String}
    (hk : n.kind = .call) (hs : n.spelling = Shape.sendSpelling v m)
    (hc : n.children = [vertex, message]) :
    n.send? = sendParts? n ∧ n.notices = [] ∧ n.unreadableSend = false := by
  have hmarker := isPrefixOf_sendSpelling v m
  rw [← hs] at hmarker
  refine ⟨?_, ?_, ?_⟩
  · simp only [Node.send?, hk, hmarker, if_true]
  · simp only [Node.notices, Node.dropped?, Node.operands?, hk, hmarker, if_true]
  · rw [Node.unreadableSend, hc]
    exact Bool.and_false _

/-- The node of a send is annotated as one, and tells its arguments apart. -/
theorem exists_sendIn {v m : List Lexeme} (hv : CallArgument v) (hm : CallArgument m) :
    ∃ vertex message, Spread (v.map Lexeme.spelling) vertex ∧
      Spread (m.map Lexeme.spelling) message ∧
      ∀ (tokens : List Token) (semicolon : Option Token),
        tokens.map Located.item = signalCall v m →
        sendIn (Shape.statement tokens semicolon) = [(vertex, message)] ∧
          noticesIn (Shape.statement tokens semicolon) = [] ∧
          unreadableIn (Shape.statement tokens semicolon) = [] := by
  have hvne : v.map Lexeme.spelling ≠ [] := by simpa using hv.ne_nil
  have hmne : m.map Lexeme.spelling ≠ [] := by simpa using hm.ne_nil
  obtain ⟨⟨vertex, message⟩, hparts, hsend⟩ :=
    exists_sendParts? (String.join (v.map Lexeme.spelling)) (String.join (m.map Lexeme.spelling))
      (v.map Lexeme.spelling) (m.map Lexeme.spelling)
  have hspread : Spread (v.map Lexeme.spelling) vertex ∧
      Spread (m.map Lexeme.spelling) message := by
    rcases hparts with hparts | hparts
    · cases hparts
      exact ⟨spread_join hvne, spread_join hmne⟩
    · cases hparts
      exact ⟨spread_renderExpr hvne, spread_renderExpr hmne⟩
  refine ⟨vertex, message, hspread.1, hspread.2, fun tokens semicolon htokens => ?_⟩
  obtain ⟨vertexTokens, messageTokens, hvertex, hmessage, hshape⟩ :=
    Shape.statement_signalCall hv hm htokens semicolon
  have hmap : (Shape.statement tokens semicolon).map Token.spelling =
      ⟨.call, Shape.sendSpelling (String.join (v.map Lexeme.spelling))
          (String.join (m.map Lexeme.spelling)), tokens.map Token.spelling,
        [(Shape.expression vertexTokens).map Token.spelling,
          (Shape.expression messageTokens).map Token.spelling], spanOf tokens⟩ := by
    rw [hshape, joinTight, joinTight, map_spelling_eq hvertex, map_spelling_eq hmessage]
    rfl
  have hread := hsend _ ((Shape.expression vertexTokens).map Token.spelling)
    ((Shape.expression messageTokens).map Token.spelling) (congrArg Node.spelling hmap)
    (congrArg Node.children hmap) (map_spelling_eq hvertex) (map_spelling_eq hmessage)
  obtain ⟨hfound, hnotices, hreadable⟩ := Node.send_of_sendSpelling (congrArg Node.kind hmap)
    (congrArg Node.spelling hmap) (congrArg Node.children hmap)
  refine ⟨?_, hnotices, ?_⟩
  · rw [sendIn, hfound, hread]
    rfl
  · rw [unreadableIn, hreadable]
    rfl

/-- Sends keep their destination and their message. A statement `context.signal(v, m);` with two
arguments, whatever underscores they have, can stand wherever a block has room for a statement, in
the block itself or in the blocks and branches inside it. The bodies of loops and switches are not
among these places, since nothing in them is kept. The block is then read without fault. If without
the statement it is annotated, it is so with it, with the same notices and with the same sends but
one more, at the place of the statement: its vertex is made of the tokens of `v` and its message of
those of `m`, with nothing but blanks between them. -/
theorem signal_read_as_send {v m : List Lexeme} (hv : CallArgument v) (hm : CallArgument m) :
    ∃ vertex message, Spread (v.map Lexeme.spelling) vertex ∧
      Spread (m.map Lexeme.spelling) message ∧
      ∀ (source : List Char) (depth : Nat) (start : Cursor) (tokens rest : List Token)
        (semicolon : Token) (fill : List (Node Token) → Node Token),
        start.rest = tokens ++ semicolon :: rest → tokens.map Located.item = signalCall v m →
        semicolon.item = .symbol .semicolon →
        Surrounds source depth start ⟨rest, some semicolon.span, start.stop⟩ fill →
        ∃ n, parseBlock source = .ok (fill [n]) ∧
          ∀ a, annotate ((fill []).map Token.spelling) = .ok a →
            ∃ b before after, annotate ((fill [n]).map Token.spelling) = .ok b ∧
              b.notices = a.notices ∧ sendsOf a.root.stmts = before ++ after ∧
              sendsOf b.root.stmts = before ++ (vertex, message) :: after := by
  obtain ⟨vertex, message, hvertex, hmessage, hnode⟩ := exists_sendIn hv hm
  refine ⟨vertex, message, hvertex, hmessage, ?_⟩
  intro source depth start tokens rest semicolon fill hr htokens hs hsurrounds
  have hread := Parser.reads_signalCall hv hm depth hr htokens hs
  obtain ⟨hsend, hnotices, hunreadable⟩ := hnode tokens (some semicolon) htokens
  have hfound : ∀ {α : Type} {g : Node Token → List α} {out : List α},
      g (Shape.statement tokens (some semicolon)) = out →
      foundIn g [Shape.statement tokens (some semicolon)] = out := by
    intro α g out hg
    rw [foundIn, positions_cons_simple (Shape.kind_statement _ _), positions,
      List.flatMap_singleton, hg]
  refine ⟨_, hsurrounds.parseBlock hread, fun a ha => ?_⟩
  -- What is found around the statement is the same with and without it.
  obtain ⟨unreadBefore, unreadAfter, hun⟩ := hsurrounds.exists_foundIn shallow_unreadableIn
  obtain ⟨noticesBefore, noticesAfter, hno⟩ := hsurrounds.exists_foundIn shallow_noticesIn
  obtain ⟨before, after, hse⟩ := hsurrounds.exists_foundIn shallow_sendIn
  have hwithout := unreadable_of_annotate ha
  obtain ⟨hasends, hanotices⟩ := found_of_annotate ha
  obtain ⟨b, hb⟩ : ∃ b, annotate
      ((fill [Shape.statement tokens (some semicolon)]).map Token.spelling) = .ok b := by
    refine exists_annotate (hsurrounds.accepted hread) ?_
    rw [hun] at hwithout
    rw [hun, hfound hunreadable]
    exact hwithout
  obtain ⟨hbsends, hbnotices⟩ := found_of_annotate hb
  refine ⟨b, before, after, hb, ?_, ?_, ?_⟩
  · rw [hbnotices, hanotices, hno, hno, hfound hnotices]
    rfl
  · rw [hasends, hse]
    simp [foundIn, positions]
  · rw [hbsends, hse, hfound hsend]
    simp

/-- A send in an inner block, with underscores at both ends of a name and a comma inside an
argument. -/
def underscoredSource : String :=
  "\x7b ; \x7b context.signal(u_1, f(_x_, y)); \x7d \x7d"

/-- The send in the underscored source. -/
theorem signal_read_as_send_underscored :
    ∃ vertex message, Spread ["u_1"] vertex ∧ Spread ["f", "(", "_x_", ",", "y", ")"] message ∧
      ∃ t b, parseBlock underscoredSource.toList = .ok t ∧
        annotate (t.map Token.spelling) = .ok b ∧ sendsOf b.root.stmts = [(vertex, message)] := by
  have hv : CallArgument [.ident "u_1"] := by decide
  have hm : CallArgument [.ident "f", .symbol .lparen, .ident "_x_", .symbol .comma, .ident "y",
      .symbol .rparen] := by decide
  obtain ⟨vertex, message, hvertex, hmessage, hread⟩ := signal_read_as_send hv hm
  refine ⟨vertex, message, hvertex, hmessage, ?_⟩
  have hfaults : (lex underscoredSource.toList).faults = [] := by decide +kernel
  have hahead : (lex underscoredSource.toList).cursor.ahead =
      .symbol .lbrace :: .symbol .semicolon :: .symbol .lbrace :: (signalCall [.ident "u_1"]
        [.ident "f", .symbol .lparen, .ident "_x_", .symbol .comma, .ident "y", .symbol .rparen] ++
          [.symbol .semicolon, .symbol .rbrace, .symbol .rbrace]) := by decide +kernel
  obtain ⟨brace, ts, hr, hbrace, hbody⟩ := Cursor.exists_rest_of_ahead hahead
  obtain ⟨lone, ls, hrLone, hlone, hinner⟩ := Cursor.exists_rest_of_ahead hbody
  obtain ⟨opening, os, hrOpening, hopening, hcall⟩ := Cursor.exists_rest_of_ahead hinner
  obtain ⟨tokens, us, hrest, htokens, hus⟩ := List.map_eq_append_iff.mp hcall
  obtain ⟨semicolon, rest, rfl, hsemicolon, hbraces⟩ := List.map_eq_cons_iff.mp hus
  have hbehind : Cursor.ahead ⟨rest, some semicolon.span,
      (lex underscoredSource.toList).cursor.advance.advance.advance.stop⟩ =
        [.symbol .rbrace, .symbol .rbrace] := hbraces
  have hclose := Cursor.at_of_ahead hbehind
  obtain ⟨closing, cs, -, -, hlast⟩ := Cursor.exists_rest_of_ahead hbehind
  have hcloseLast := Cursor.at_of_ahead hlast
  obtain ⟨last, rs, -, -, hend⟩ := Cursor.exists_rest_of_ahead hlast
  have hplace := @Parser.Around.block 2 _ _ 1 opening.span _ _ _ (by decide)
    (.first (Cursor.not_atBlockEnd_of_ahead hcall (by decide)) .here
      (.done (by rw [Cursor.atBlockEnd, hclose, Bool.or_true]))) hclose
  have hblock := @Parser.Around.block 2 _ _ 0 brace.span _ _ _ (by decide)
    (.later (Cursor.not_atBlockEnd_of_ahead hbody (by decide))
      (.empty hrLone (by rw [hlone]; rfl))
      (.first (Cursor.not_atBlockEnd_of_ahead hinner (by decide))
        (.nested hrOpening (by rw [hopening]; rfl) hplace)
        (.done (by rw [Cursor.atBlockEnd, hcloseLast, Bool.or_true])))) hcloseLast
  obtain ⟨n, hparse, hannotate⟩ := hread _ 2 _ tokens rest semicolon _ hrest htokens hsemicolon
    ⟨hfaults, brace, ts, _, hr, by rw [Token.is, hbrace]; rfl, hblock, List.map_eq_nil_iff.mp hend⟩
  obtain ⟨b, before, after, hb, -, hnone, hsends⟩ := hannotate _ rfl
  obtain ⟨rfl, rfl⟩ := List.append_eq_nil_iff.mp hnone.symm
  exact ⟨_, b, hparse, hb, hsends⟩

/-- A send in the body of a loop. -/
def loopedSource : String := "\x7b while (x) \x7b context.signal(v, m); \x7d \x7d"

/-- A send in the body of a loop is not kept. The block is read and annotated without fault, but the
loop is left out with all that is in it, and the notice is about the loop. -/
theorem signal_dropped_in_loop :
    CallArgument [.ident "v"] ∧ CallArgument [.ident "m"] ∧
      ∃ t a, parseBlock loopedSource.toList = .ok t ∧ annotate (t.map Token.spelling) = .ok a ∧
        sendsOf a.root.stmts = [] ∧ a.notices = [⟨.dropped .unsupported, ⟨2, 37⟩⟩] := by
  have heval : (parseBlock loopedSource.toList).toOption.map (fun t =>
      (annotate (t.map Token.spelling)).toOption.map fun a => (sendsOf a.root.stmts, a.notices)) =
        some (some ([], [⟨.dropped .unsupported, ⟨2, 37⟩⟩])) := by decide +kernel
  obtain ⟨t, ht, heval⟩ := exists_eq_ok heval
  obtain ⟨a, ha, hvalues⟩ := exists_eq_ok heval
  obtain ⟨hsends, hnotices⟩ := Prod.mk.inj hvalues
  exact ⟨by decide, by decide, t, a, ht, ha, hsends, hnotices⟩

end VertexLanes
