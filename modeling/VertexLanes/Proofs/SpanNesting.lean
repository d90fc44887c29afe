import Mathlib.Data.List.Infix
import VertexLanes.Proofs.NestingBound
import VertexLanes.Proofs.SendShape

/-!
# Ranges of the nodes of an accepted block

The range of a node is computed in several ways: from the first token of the node
to its last, from a keyword to the token before the cursor, from brace to brace.
In an accepted block all of them come to the same: a node stands on a run of
tokens, which holds its own tokens and the runs of its children one after the
other, and its range is that of the run. Only an argument of a call with nothing
in it stands nowhere. Since tokens are disjoint and in order, so are the ranges of
siblings, and each lies within that of its parent.
-/

namespace VertexLanes

/-- Whether a child of a node is an argument of a call with nothing in it. -/
def Node.emptyArgument (parent child : Node Token) : Bool :=
  parent.kind == .call && child.tokens.isEmpty

/-- The children of a node, empty arguments apart. -/
def Node.properChildren (n : Node Token) : List (Node Token) :=
  n.children.filter fun child => !n.emptyArgument child

/-- Only a call has children that are not its own. -/
theorem Node.properChildren_of_kind {n : Node Token} (h : n.kind ≠ .call) :
    n.properChildren = n.children := by
  rw [Node.properChildren, List.filter_eq_self]
  intro child _
  rw [Node.emptyArgument, beq_eq_false_iff_ne.mpr h]
  rfl

/-! ## Nodes on runs of tokens -/

/-- Nodes stand on separate runs of some tokens, in order. The range of a node is that of its run,
and in the run stand the tokens of the node and its children. -/
inductive Placed : List Token → List (Node Token) → Prop
  | nil (ts : List Token) : Placed ts []
  | skip {ts : List Token} {ns : List (Node Token)} (t : Token) (h : Placed ts ns) :
      Placed (t :: ts) ns
  | node {run ts : List Token} {n : Node Token} {ns : List (Node Token)} (hne : run ≠ [])
      (hspan : n.span = spanOf run) (htokens : n.tokens <:+: run)
      (inner : Placed run n.properChildren) (others : Placed ts ns) : Placed (run ++ ts) (n :: ns)

namespace Placed

variable {ts us : List Token} {n : Node Token} {ns ms : List (Node Token)}

/-- A node stands on all of some tokens. -/
theorem whole (hne : ts ≠ []) (hspan : n.span = spanOf ts) (htokens : n.tokens <:+: ts)
    (inner : Placed ts n.properChildren) : Placed ts [n] := by
  have hnode := Placed.node hne hspan htokens inner (.nil [])
  rwa [List.append_nil] at hnode

theorem skips (us : List Token) (h : Placed ts ns) : Placed (us ++ ts) ns := by
  induction us with
  | nil => exact h
  | cons u us ih => exact .skip u ih

/-- Nodes placed in two runs are placed in both together. -/
protected theorem append (h : Placed ts ns) (h' : Placed us ms) :
    Placed (ts ++ us) (ns ++ ms) := by
  induction h with
  | nil ts => exact h'.skips ts
  | skip t _ ih => exact .skip t ih
  | node hne hspan htokens inner _ _ ih =>
    rw [List.append_assoc]
    exact .node hne hspan htokens inner ih

theorem extend (h : Placed ts ns) (us : List Token) : Placed (ts ++ us) ns := by
  have happend := h.append (.nil us)
  rwa [List.append_nil] at happend

/-- Each node stands on a run of its own. -/
theorem exists_run (h : Placed ts ns) (hn : n ∈ ns) :
    ∃ run, run ≠ [] ∧ run <:+: ts ∧ n.span = spanOf run ∧ n.tokens <:+: run ∧
      Placed run n.properChildren := by
  induction h with
  | nil => cases hn
  | skip t _ ih =>
    obtain ⟨run, hne, hrun, hrest⟩ := ih hn
    exact ⟨run, hne, hrun.trans (List.infix_cons List.infix_rfl), hrest⟩
  | @node run ts _ _ hne hspan htokens inner _ _ ih =>
    rcases List.mem_cons.mp hn with rfl | hn
    · exact ⟨run, hne, (List.prefix_append run ts).isInfix, hspan, htokens, inner⟩
    · obtain ⟨other, hother, hrun, hrest⟩ := ih hn
      exact ⟨other, hother, hrun.trans (List.suffix_append run ts).isInfix, hrest⟩

end Placed

/-- A run spans from its first token to its last. -/
theorem spanOf_eq {ts : List Token} {first last : Token} (hf : ts.head? = some first)
    (hl : ts.getLast? = some last) : spanOf ts = first.span.merge last.span := by
  rw [spanOf, hf, hl]

/-- A run between two tokens spans from the one to the other. -/
theorem spanOf_enclosed (first last : Token) (ts : List Token) :
    spanOf (first :: (ts ++ [last])) = first.span.merge last.span :=
  spanOf_eq rfl (by rw [← List.cons_append, List.getLast?_concat])

/-! ## Shapes -/

theorem placed_expression {ts : List Token} (h : ts ≠ []) : Placed ts [Shape.expression ts] :=
  .whole h rfl List.infix_rfl (.nil ts)

/-- Parts of a list with one separator between any two. -/
inductive Interposed : List Token → List (List Token) → Prop
  | last (part : List Token) : Interposed part [part]
  | cons (part : List Token) (separator : Token) {rest : List Token} {parts : List (List Token)}
      (h : Interposed rest parts) : Interposed (part ++ separator :: rest) (part :: parts)

/-- A token may be added to the first part. -/
theorem Interposed.grow {ts part : List Token} {parts : List (List Token)}
    (h : Interposed ts (part :: parts)) (t : Token) :
    Interposed (t :: ts) ((t :: part) :: parts) := by
  cases h with
  | last => exact .last _
  | cons _ separator h => exact .cons (t :: part) separator h

/-- The parts of a list that is split stand in it in order, with separators between them. -/
theorem Nesting.interposed_split (side : Token → Side) (p : Token → Bool) (depth : Int)
    (ts : List Token) : Interposed ts (Nesting.split side p depth ts) := by
  induction ts generalizing depth with
  | nil => exact .last []
  | cons t ts ih =>
    rcases split_cons_cases side p depth t ts with ⟨-, hcut⟩ | ⟨part, parts, hs, hgrow⟩
    · rw [hcut]
      exact .cons [] t (ih depth)
    · rw [hgrow]
      exact (hs ▸ ih _).grow t

/-- Arguments that are not empty stand between the commas. -/
theorem Interposed.placed {ts : List Token} {parts : List (List Token)} (h : Interposed ts parts) :
    Placed ts ((parts.map Shape.expression).filter fun n => !n.tokens.isEmpty) := by
  have hpart : ∀ part : List Token,
      Placed part ([Shape.expression part].filter fun n => !n.tokens.isEmpty) := by
    intro part
    cases part with
    | nil => exact .nil []
    | cons t ts => exact placed_expression (List.cons_ne_nil t ts)
  induction h with
  | last part => exact hpart part
  | cons part separator _ ih =>
    have happend := (hpart part).append (.skip separator ih)
    rwa [← List.filter_append] at happend

/-- The arguments of a call are placed in its tokens. -/
theorem placed_splitCommas (ts : List Token) :
    Placed ts (((splitCommas ts).map Shape.expression).filter fun n => !n.tokens.isEmpty) := by
  rw [splitCommas]
  split
  · exact .nil ts
  · exact (Nesting.interposed_split _ _ _ ts).placed

/-- A call is placed in its tokens. -/
theorem placed_call? {ts : List Token} {n : Node Token} (h : Shape.call? ts = some n) :
    Placed ts [n] := by
  unfold Shape.call? at h
  simp only at h
  split at h
  · next hcond =>
    obtain rfl := Option.some.inj h
    simp only [Bool.and_eq_true, Bool.not_eq_true', List.isEmpty_eq_false_iff] at hcond
    obtain ⟨⟨⟨⟨hgroup, -⟩, hlast⟩, -⟩, -⟩ := hcond
    -- The parentheses around the arguments are the first token of the group and the last of all.
    obtain ⟨callee, group, hts, hg⟩ : ∃ callee group, ts = callee ++ group ∧
        ts.dropWhile (fun t => !Token.is .lparen t) = group :=
      ⟨_, _, List.takeWhile_append_dropWhile.symm, rfl⟩
    rw [hg] at hgroup ⊢
    obtain ⟨opening, rest, rfl⟩ := List.exists_cons_of_ne_nil hgroup
    have hne : ts ≠ [] := by
      rintro rfl
      cases hlast
    refine .whole hne rfl List.infix_rfl ?_
    have harguments : Placed rest.dropLast (((splitCommas rest.dropLast).map
        Shape.expression).filter fun n => !n.tokens.isEmpty) := placed_splitCommas rest.dropLast
    have hrest : Placed rest (((splitCommas rest.dropLast).map
        Shape.expression).filter fun n => !n.tokens.isEmpty) := by
      obtain ⟨tail, htail⟩ := rest.dropLast_prefix
      rw [← htail]
      simpa only [htail] using harguments.extend tail
    rw [hts]
    exact (hrest.skip opening).skips callee
  · cases h

/-- A simple statement stands on its tokens; its semicolon belongs to it if it is a declaration. -/
theorem placed_statement {ts : List Token} (h : ts ≠ []) (semicolon : Token) :
    Placed (ts ++ [semicolon]) [Shape.statement ts (some semicolon)] := by
  unfold Shape.statement
  split
  · exact .whole (by simp) rfl List.infix_rfl (.nil _)
  · split
    · refine Placed.extend ?_ [semicolon]
      exact .whole h rfl List.infix_rfl (.nil ts)
    · cases hc : Shape.call? ts with
      | none => exact (placed_expression h).extend [semicolon]
      | some n => exact (placed_call? hc).extend [semicolon]

/-! ## Reading -/

namespace Cursor

variable {c next : Cursor} {passed : List Token}

/-- Between two cursors there is one run of tokens. -/
theorem Passes.unique {other : List Token} (h : c.Passes passed next) (h' : c.Passes other next) :
    passed = other :=
  List.append_cancel_right (h.rest_eq.symm.trans h'.rest_eq)

theorem Passes.here_eq {t : Token} (h : c.Passes (t :: passed) next) : c.here = t.span := by
  rw [here, h.rest_eq]
  rfl

/-- The token before the cursor is the last one it has passed. -/
theorem Passes.before_eq {last : Token} (h : c.Passes passed next)
    (hl : passed.getLast? = some last) : next.before = last.span := by
  rw [before, h.last_eq, hl]
  rfl

/-- What is read after a token ranges from that token to the one before the cursor. -/
theorem Passes.merge_before {keyword : Token} (h : c.Passes passed next) (hne : passed ≠ []) :
    keyword.span.merge next.before = spanOf (keyword :: passed) := by
  have hlast := List.getLast?_eq_some_getLast hne
  rw [h.before_eq hlast, spanOf_eq rfl (List.getLast?_cons_of_ne_nil hne ▸ hlast)]

/-- From where a cursor was to where it has come is the span of the tokens it passed. -/
theorem Passes.merge_here (h : c.Passes passed next) (hne : passed ≠ []) :
    c.here.merge next.before = spanOf passed := by
  have hlast := List.getLast?_eq_some_getLast hne
  obtain ⟨t, ts, rfl⟩ := List.exists_cons_of_ne_nil hne
  rw [h.here_eq, h.before_eq hlast, spanOf_eq rfl hlast]

end Cursor

namespace Parser

open VertexLanes.Cursor

theorem passes_groupIfNext (c : Cursor) : c.Passes (groupIfNext c).value (groupIfNext c).next := by
  unfold groupIfNext
  split
  · next h => exact passes_group (rest_ne_nil_of_at h)
  · exact .refl c

/-- A test stands between the parentheses. -/
theorem exists_placed_condition {c mid : Cursor} {test : Node Token}
    (h : condition c = ⟨some test, [], mid⟩) :
    ∃ passed, c.Passes passed mid ∧ passed ≠ [] ∧ Placed passed [test] := by
  obtain ⟨hparen, hfaults, hne, he⟩ := condition_eq_of_faults (c := c) (by rw [h])
  obtain ⟨opening, inner, closing, hvalue, -, -, -⟩ := depthThrough_of_group hfaults
  cases h.symm.trans he
  have hpassed := passes_group (rest_ne_nil_of_at hparen)
  rw [hvalue] at hpassed hne ⊢
  simp only [List.tail_cons, List.dropLast_concat] at hne ⊢
  exact ⟨_, hpassed, List.cons_ne_nil _ _, ((placed_expression hne).extend [closing]).skip opening⟩

/-- The nodes of a form stand on the tokens that are passed when it is read, a block and a
conditional also on the token before these. -/
def Form.Places (passed : List Token) (ns : List (Node Token)) : Form → Prop
  | .block opening => ∀ t : Token, t.span = opening → Placed (t :: passed) ns
  | .conditional keyword => ∀ t : Token, t.span = keyword → Placed (t :: passed) ns
  | _ => Placed passed ns

/-- The nodes that a form makes are placed in the tokens it passes. -/
theorem Reads.placed {form : Form} {depth : Nat} {c next : Cursor} {ns : List (Node Token)}
    (h : Reads form depth c ns next) {passed : List Token} (hp : c.Passes passed next) :
    form.Places passed ns := by
  induction h generalizing passed with
  | done => exact .nil passed
  | more _ first others ihFirst ihOthers =>
    obtain ⟨p, hfirst, -⟩ := first.exists_passes
    obtain ⟨q, hothers, -⟩ := others.exists_passes
    rw [hp.unique (hfirst.trans hothers)]
    exact Placed.append (ihFirst hfirst) (ihOthers hothers)
  | block _ body hclose ih =>
    rintro t rfl
    obtain ⟨p, hbody, -⟩ := body.exists_passes
    obtain ⟨closing, hclosing⟩ := exists_passes_advance_of_at hclose
    rw [hp.unique (hbody.trans hclosing), hclosing.here_eq]
    refine .whole (List.cons_ne_nil _ _) (spanOf_enclosed t closing p).symm List.nil_infix ?_
    rw [Node.properChildren_of_kind NodeKind.noConfusion]
    exact .skip t (Placed.extend (ih hbody) [closing])
  | nested hr _ inner ih =>
    obtain ⟨p, hinner, -⟩ := inner.exists_passes
    rw [hp.unique ((passes_advance hr).trans hinner)]
    exact ih hinner _ rfl
  | empty => exact .nil passed
  | chosen hr _ inner ih =>
    obtain ⟨p, hinner, -⟩ := inner.exists_passes
    rw [hp.unique ((passes_advance hr).trans hinner)]
    exact ih hinner _ rfl
  | @returned _ c t _ value mid hr _ clause hs =>
    have hclause := passes_untilSemicolon (c := c.advance) (by rw [clause])
    rw [clause] at hclause
    obtain ⟨semicolon, hsemicolon⟩ := exists_passes_advance_of_at hs
    rw [hp.unique ((passes_advance hr).trans (hclause.trans hsemicolon)), hsemicolon.here_eq]
    refine .whole (List.cons_ne_nil _ _) (spanOf_enclosed t semicolon value).symm ?_ ?_
    · exact List.IsPrefix.isInfix ⟨[semicolon], rfl⟩
    · rw [Node.properChildren_of_kind NodeKind.noConfusion]
      split
      · exact .nil _
      · next hne =>
        exact .skip t ((placed_expression (by simpa using hne)).extend [semicolon])
  | @loop _ c t _ head mid _ _ hr _ hhead body ih =>
    have hpassed := passes_groupIfNext c.advance
    rw [hhead] at hpassed
    obtain ⟨p, hbody, hne⟩ := body.exists_passes
    rw [hp.unique ((passes_advance hr).trans (hpassed.trans hbody))]
    refine .whole (List.cons_ne_nil _ _) ?_ (List.IsPrefix.isInfix ⟨p, rfl⟩) (.nil _)
    exact (hpassed.trans hbody).merge_before (by simp [hne])
  | @doLoop _ c t _ mid _ _ hr _ body hend =>
    obtain ⟨p, hbody, hne⟩ := body.exists_passes
    obtain ⟨q, htest⟩ := exists_passes_loopEnd hend
    rw [hp.unique ((passes_advance hr).trans (hbody.trans htest))]
    refine .whole (List.cons_ne_nil _ _) ?_ ?_ (.nil _)
    · exact (hbody.trans htest).merge_before (by simp [hne])
    · exact (List.prefix_append [t] (p ++ q)).isInfix
  | @simple _ c t ts value mid hr ho clause hs =>
    have hclause := passes_untilSemicolon (c := c) (by rw [clause])
    rw [clause] at hclause
    obtain ⟨semicolon, hsemicolon⟩ := exists_passes_advance_of_at hs
    have hhead : mid.rest.head? = some semicolon := by rw [hsemicolon.rest_eq]; rfl
    rw [hp.unique (hclause.trans hsemicolon), hhead]
    refine placed_statement ?_ semicolon
    -- Without a token before the semicolon the statement would be empty.
    rintro rfl
    rw [at?, peek, ← List.nil_append mid.rest, ← hclause.rest_eq, hr] at hs
    have hfirst : t.item = .symbol .semicolon := by simpa using hs
    rw [hfirst] at ho
    cases ho
  | ifThen hc branch _ ih =>
    rintro t rfl
    obtain ⟨p, htest, hne, hplaced⟩ := exists_placed_condition hc
    obtain ⟨q, hfirst, -⟩ := branch.exists_passes
    rw [hp.unique (htest.trans hfirst)]
    refine .whole (List.cons_ne_nil _ _) ?_ List.nil_infix ?_
    · exact (htest.trans hfirst).merge_before (by simp [hne])
    · exact .skip t (hplaced.append (ih hfirst))
  | ifElse hc branch he elseBranch ihFirst ihSecond =>
    rintro t rfl
    obtain ⟨p, htest, hne, hplaced⟩ := exists_placed_condition hc
    obtain ⟨q, hfirst, -⟩ := branch.exists_passes
    obtain ⟨word, ts, hr⟩ := List.exists_cons_of_ne_nil (rest_ne_nil_of_atKeyword he)
    obtain ⟨r, hsecond, -⟩ := elseBranch.exists_passes
    have hwhole := htest.trans (hfirst.trans ((passes_advance hr).trans hsecond))
    rw [hp.unique hwhole]
    refine .whole (List.cons_ne_nil _ _) ?_ List.nil_infix ?_
    · exact hwhole.merge_before (by simp [hne])
    · exact .skip t (hplaced.append
        (Placed.append (ihFirst hfirst) (Placed.skip word (ihSecond hsecond))))
  | braced hb inner ih =>
    obtain ⟨opening, hopening⟩ := exists_passes_advance_of_at hb
    obtain ⟨p, hinner, -⟩ := inner.exists_passes
    rw [hp.unique (hopening.trans hinner)]
    exact ih hinner opening hopening.here_eq.symm
  | unbraced _ inner ih =>
    obtain ⟨p, hinner, hne⟩ := inner.exists_passes
    rw [hp.unique hinner]
    refine .whole (hne (by simp)) (hinner.merge_here (hne (by simp))) List.nil_infix ?_
    rw [Node.properChildren_of_kind NodeKind.noConfusion]
    exact ih hinner

end Parser

/-- The tree of an accepted source stands on the tokens of the source. -/
theorem placed_of_parseBlock {source : List Char} {t : Node Token}
    (h : parseBlock source = .ok t) : Placed (lex source).tokens [t] := by
  obtain ⟨-, first, ts, next, htokens, -, hread, hend⟩ := parseBlock_eq_ok_iff.mp h
  obtain ⟨passed, hpassed, -⟩ := hread.exists_passes
  have hts : ts = passed := by
    have hrest := hpassed.rest_eq
    rwa [hend, List.append_nil, Cursor.advance_rest htokens] at hrest
  rw [htokens, hts]
  exact hread.placed hpassed first rfl

/-! ## Ranges -/

/-- Whether a range lies within another one. -/
def Span.Within (s outer : Span) : Prop := outer.start ≤ s.start ∧ s.stop ≤ outer.stop

/-- Whether a range covers some text of a source: it is not empty, lies within the source and begins
and stops between characters. -/
def Span.Occupies (s : Span) (source : List Char) : Prop :=
  ∃ before text after, s.Covers source before text after ∧ text ≠ []

section
variable {tokens run : List Token}

/-- A run of tokens within a span spans a part of it. -/
theorem spanOf_within {s : Span} (hne : run ≠ []) (h : ∀ t ∈ run, t.span.Within s) :
    (spanOf run).Within s := by
  have hfirst := List.head?_eq_some_head hne
  have hlast := List.getLast?_eq_some_getLast hne
  obtain ⟨hfs, hft⟩ := h _ (List.head_mem hne)
  obtain ⟨hls, hlt⟩ := h _ (List.getLast_mem hne)
  rw [spanOf_eq hfirst hlast]
  exact ⟨Nat.le_min.mpr ⟨hfs, hls⟩, Nat.max_le.mpr ⟨hft, hlt⟩⟩

/-- A run of tokens before another one ends before the other starts. -/
theorem spanOf_stop_le {other : List Token} (hne : run ≠ []) (hother : other ≠ [])
    (h : ∀ a ∈ run, ∀ b ∈ other, a.span.stop ≤ b.span.start) :
    (spanOf run).stop ≤ (spanOf other).start := by
  have hfirst := h _ (List.head_mem hne)
  have hlast := h _ (List.getLast_mem hne)
  rw [spanOf_eq (List.head?_eq_some_head hne) (List.getLast?_eq_some_getLast hne),
    spanOf_eq (List.head?_eq_some_head hother) (List.getLast?_eq_some_getLast hother)]
  refine Nat.max_le.mpr ⟨Nat.le_min.mpr ⟨?_, ?_⟩, Nat.le_min.mpr ⟨?_, ?_⟩⟩
  · exact hfirst _ (List.head_mem hother)
  · exact hfirst _ (List.getLast_mem hother)
  · exact hlast _ (List.head_mem hother)
  · exact hlast _ (List.getLast_mem hother)

variable (hord : tokens.Pairwise fun a b => a.span.stop ≤ b.span.start)
  (hpos : ∀ t ∈ tokens, t.span.start < t.span.stop)
include hord hpos

/-- No token starts before the first. -/
theorem start_head_le (hne : tokens ≠ []) {t : Token} (ht : t ∈ tokens) :
    (tokens.head hne).span.start ≤ t.span.start := by
  have hcons := List.cons_head_tail hne
  have hlt := hpos _ (List.head_mem hne)
  rw [← hcons, List.mem_cons] at ht
  rcases ht with rfl | ht
  · exact Nat.le_refl _
  · rw [← hcons] at hord
    have hle := List.rel_of_pairwise_cons hord ht
    omega

/-- No token ends behind the last. -/
theorem stop_le_getLast (hne : tokens ≠ []) {t : Token} (ht : t ∈ tokens) :
    t.span.stop ≤ (tokens.getLast hne).span.stop := by
  have hconcat := List.dropLast_concat_getLast hne
  have hlt := hpos _ (List.getLast_mem hne)
  rw [← hconcat, List.mem_append, List.mem_singleton] at ht
  rcases ht with ht | rfl
  · rw [← hconcat] at hord
    have hle := (List.pairwise_append.mp hord).2.2 _ ht _ List.mem_cons_self
    omega
  · exact Nat.le_refl _

/-- The range of tokens in order begins with the first of them and stops with the last. -/
theorem spanOf_ends (hne : tokens ≠ []) :
    spanOf tokens = ⟨(tokens.head hne).span.start, (tokens.getLast hne).span.stop⟩ := by
  have hstart := start_head_le hord hpos hne (List.getLast_mem hne)
  have hstop := stop_le_getLast hord hpos hne (List.head_mem hne)
  rw [spanOf_eq (List.head?_eq_some_head hne) (List.getLast?_eq_some_getLast hne), Span.merge,
    Nat.min_eq_left hstart, Nat.max_eq_right hstop]

theorem within_spanOf {t : Token} (ht : t ∈ tokens) : t.span.Within (spanOf tokens) := by
  have hne := List.ne_nil_of_mem ht
  rw [spanOf_ends hord hpos hne]
  exact ⟨start_head_le hord hpos hne ht, stop_le_getLast hord hpos hne ht⟩

/-- Nodes on the runs of some tokens lie within the range of these tokens. -/
theorem Placed.within {ns : List (Node Token)} (h : Placed tokens ns) {n : Node Token}
    (hn : n ∈ ns) : n.span.Within (spanOf tokens) := by
  obtain ⟨run, hne, hrun, hspan, -, -⟩ := h.exists_run hn
  rw [hspan]
  exact spanOf_within hne fun t ht => within_spanOf hord hpos (hrun.subset ht)

omit hpos in
/-- Nodes on separate runs are disjoint and in order. -/
theorem Placed.ordered {ns : List (Node Token)} (h : Placed tokens ns) :
    ns.Pairwise fun a b => a.span.stop ≤ b.span.start := by
  induction h with
  | nil => exact .nil
  | skip t _ ih => exact ih hord.of_cons
  | node hne hspan _ _ others _ ih =>
    obtain ⟨-, hothers, hcross⟩ := List.pairwise_append.mp hord
    refine .cons (fun m hm => ?_) (ih hothers)
    obtain ⟨run, hrun, hwithin, hm', -, -⟩ := others.exists_run hm
    rw [hspan, hm']
    exact spanOf_stop_le hne hrun fun a ha b hb => hcross a ha b (hwithin.subset hb)

end

/-- Of two beginnings of a text the one with fewer bytes begins the other. -/
theorem prefix_of_byteLength_le {text before other : List Char} (h : before <+: text)
    (h' : other <+: text) (hle : byteLength before ≤ byteLength other) : before <+: other := by
  rcases List.prefix_or_prefix_of_prefix h h' with hp | ⟨rest, rfl⟩
  · exact hp
  · rw [byteLength_append] at hle
    cases rest with
    | nil => rw [List.append_nil]
    | cons c cs =>
      have hpos := byteLength_pos (List.cons_ne_nil c cs)
      omega

/-- The range of a run of tokens of a source covers some of its text. -/
theorem occupies_spanOf {source : List Char} {run : List Token} (hne : run ≠ [])
    (h : run <:+: (lex source).tokens) : (spanOf run).Occupies source := by
  have hord := (lex_ordered source).sublist h.sublist
  have hpos : ∀ t ∈ run, t.span.start < t.span.stop := fun t ht =>
    (bounds_of_mem_lex (h.subset ht)).1
  have hfirst := List.head_mem hne
  have hlt := Nat.lt_of_lt_of_le (hpos _ hfirst) (stop_le_getLast hord hpos hne hfirst)
  obtain ⟨before, first, after, hbegin, -, -, -⟩ := Lexer.covers_token (h.subset hfirst)
  obtain ⟨earlier, last, rest, hend, -, -, -⟩ :=
    Lexer.covers_token (h.subset (List.getLast_mem hne))
  rw [hbegin.start_eq, hend.stop_eq] at hlt
  have hbefore : before <+: source := ⟨first ++ after, by rw [hbegin.tiles, List.append_assoc]⟩
  obtain ⟨text, htext⟩ :=
    prefix_of_byteLength_le hbefore ⟨rest, hend.tiles.symm⟩ (Nat.le_of_lt hlt)
  rw [spanOf_ends hord hpos hne]
  refine ⟨before, text, rest, ⟨?_, hbegin.start_eq, ?_⟩, ?_⟩
  · rw [htext, hend.tiles]
  · rw [htext]
    exact hend.stop_eq
  · rintro rfl
    rw [← htext, List.append_nil] at hlt
    exact Nat.lt_irrefl _ hlt

/-! ## All nodes of a tree -/

/-- The nodes of a tree, empty arguments apart. -/
inductive Node.Reaches (root : Node Token) : Node Token → Prop
  | root : Node.Reaches root root
  | child {n child : Node Token} (h : Node.Reaches root n) (hc : child ∈ n.properChildren) :
      Node.Reaches root child

/-- What it means that the range of a node fits a source with the given tokens, its own children and
its own tokens. -/
structure Node.Fits (source : List Char) (tokens : List Token) (n : Node Token) : Prop where
  /-- The range is not empty, lies within the source and begins and stops between characters. -/
  occupies : n.span.Occupies source
  /-- The children lie within it. -/
  encloses : ∀ child ∈ n.properChildren, child.span.Within n.span
  /-- The children are disjoint and in the order of the source. -/
  ordered : n.properChildren.Pairwise fun a b => a.span.stop ≤ b.span.start
  /-- The tokens are some tokens of the source without a gap. -/
  contiguous : n.tokens <:+: tokens
  /-- The tokens lie within it. -/
  holds : ∀ t ∈ n.tokens, t.span.Within n.span

/-- Every node of an accepted tree stands on a run of the tokens of the source. -/
theorem Node.Reaches.exists_run {source : List Char} {root n : Node Token}
    (h : parseBlock source = .ok root) (hn : root.Reaches n) :
    ∃ run, run ≠ [] ∧ run <:+: (lex source).tokens ∧ n.span = spanOf run ∧ n.tokens <:+: run ∧
      Placed run n.properChildren := by
  induction hn with
  | root => exact (placed_of_parseBlock h).exists_run List.mem_cons_self
  | child _ hc ih =>
    obtain ⟨run, -, hrun, -, -, hplaced⟩ := ih
    obtain ⟨inner, hne, hinner, hrest⟩ := hplaced.exists_run hc
    exact ⟨inner, hne, hinner.trans hrun, hrest⟩

/-- Ranges of an accepted block are well nested. Every node of the tree other than an empty argument
of a call covers some text of the source, its children lie within it one after the other, and its
tokens are a run of the tokens of the source within it. -/
theorem parseBlock_spans_nested {source : List Char} {root : Node Token}
    (h : parseBlock source = .ok root) {n : Node Token} (hn : root.Reaches n) :
    n.Fits source (lex source).tokens := by
  obtain ⟨run, hne, hrun, hspan, htokens, hplaced⟩ := hn.exists_run h
  have hord := (lex_ordered source).sublist hrun.sublist
  have hpos : ∀ t ∈ run, t.span.start < t.span.stop := fun t ht =>
    (bounds_of_mem_lex (hrun.subset ht)).1
  refine ⟨?_, ?_, hplaced.ordered hord, htokens.trans hrun, ?_⟩
  · rw [hspan]
    exact occupies_spanOf hne hrun
  · intro child hc
    rw [hspan]
    exact hplaced.within hord hpos hc
  · intro t ht
    rw [hspan]
    exact within_spanOf hord hpos (htokens.subset ht)

/-- An empty argument before a letter of two bytes, branches without braces and both kinds of loop. -/
def crowdedSource : String :=
  "\x7b f(, \"é\"); if (a) ; else return b; while (c) ; do x; while (d); int n; \x7d"

/-- The spans in a body with a call, an unbraced conditional, two other statements and a
declaration. -/
theorem parseBlock_spans_nested_crowded :
    ∃ root, parseBlock crowdedSource.toList = .ok root ∧
      root.properChildren.map (fun n => (n.kind, n.span, n.properChildren.map Node.span)) =
        [(.call, ⟨2, 11⟩, [⟨6, 10⟩]), (.conditional, ⟨13, 36⟩, [⟨17, 18⟩, ⟨20, 21⟩, ⟨27, 36⟩]),
          (.other, ⟨37, 48⟩, []), (.other, ⟨49, 65⟩, []), (.declaration, ⟨66, 72⟩, [])] ∧
      ∀ n, root.Reaches n → n.Fits crowdedSource.toList (lex crowdedSource.toList).tokens := by
  have hread : (parseBlock crowdedSource.toList).toOption.map (fun root =>
      root.properChildren.map fun n => (n.kind, n.span, n.properChildren.map Node.span)) =
      some [(.call, ⟨2, 11⟩, [⟨6, 10⟩]), (.conditional, ⟨13, 36⟩, [⟨17, 18⟩, ⟨20, 21⟩, ⟨27, 36⟩]),
        (.other, ⟨37, 48⟩, []), (.other, ⟨49, 65⟩, []), (.declaration, ⟨66, 72⟩, [])] := by
    decide +kernel
  obtain ⟨root, hroot, hranges⟩ := exists_eq_ok hread
  exact ⟨root, hroot, hranges, fun n hn => parseBlock_spans_nested hroot hn⟩

end VertexLanes
