import Mathlib.Data.List.Nodup
import VertexLanes.Proofs.ConversionFaults
import VertexLanes.Proofs.RoundTrip
import VertexLanes.Proofs.Tiling

/-!
# How deep blocks stand inside one another

The depth of blocks is counted where a brace opens. A branch written without
braces is made a block as well, and that one is not counted. So at most 256
blocks on a path of an accepted tree begin with a brace. These are all the
blocks there are if every branch has its braces; if not, there is no bound.
-/

namespace VertexLanes

namespace Cursor

/-- Reading from one cursor to another passes some tokens, the last of which is then the one
before. -/
structure Passes (c : Cursor) (passed : List Token) (next : Cursor) : Prop where
  /-- The tokens passed are the first of those that were to be read. -/
  rest_eq : c.rest = passed ++ next.rest
  /-- The last of them is remembered. -/
  last_eq : next.last = (passed.getLast?.map Located.span).or c.last

theorem Passes.refl (c : Cursor) : c.Passes [] c := ⟨rfl, rfl⟩

/-- A cursor passes one run of tokens and then another. -/
theorem Passes.trans {c mid next : Cursor} {first others : List Token} (h : c.Passes first mid)
    (h' : mid.Passes others next) : c.Passes (first ++ others) next := by
  constructor
  · rw [h.rest_eq, h'.rest_eq, List.append_assoc]
  · rw [h'.last_eq, h.last_eq, List.getLast?_append, Option.map_or, Option.or_assoc]

/-- What is left behind the passed tokens is an end of what there was. -/
theorem Passes.suffix {c next : Cursor} {passed : List Token} (h : c.Passes passed next) :
    next.rest <:+ c.rest := ⟨passed, h.rest_eq.symm⟩

/-- Advancing passes the next token. -/
theorem passes_advance {c : Cursor} {t : Token} {ts : List Token} (hr : c.rest = t :: ts) :
    c.Passes [t] c.advance := by
  unfold advance
  rw [hr]
  exact ⟨hr, rfl⟩

/-- Advancing over a mark passes one token. -/
theorem exists_passes_advance_of_at {c : Cursor} {mark : Symbol} (h : c.at? mark = true) :
    ∃ t, c.Passes [t] c.advance := by
  obtain ⟨t, ts, hr⟩ := List.exists_cons_of_ne_nil (rest_ne_nil_of_at h)
  exact ⟨t, passes_advance hr⟩

theorem passes_group {c : Cursor} (h : c.rest ≠ []) : c.Passes c.group.value c.group.next := by
  unfold group
  cases hr : c.rest with
  | nil => exact absurd hr h
  | cons t ts =>
    refine ⟨?_, ?_⟩
    · rw [hr]
      exact congrArg (t :: ·) (spanGroup_tiles 0 ts).symm
    · simp [List.getLast?_cons]

/-- Reading up to a semicolon passes the tokens read. -/
theorem passes_untilSemicolon {c : Cursor} (h : c.untilSemicolon.faults = []) :
    c.Passes c.untilSemicolon.value c.untilSemicolon.next := by
  fun_induction untilSemicolon c with
  | case1 c => exact .refl c
  | case2 c => exact .refl c
  | case3 c t ts hr hstop hside g r ih =>
    exact (passes_group (rest_ne_nil_of_eq hr)).trans (ih (List.append_eq_nil_iff.mp h).2)
  | case4 => cases h
  | case5 c t ts hr hstop hside r ih => exact (passes_advance hr).trans (ih h)

end Cursor

namespace Parser

open VertexLanes.Cursor

/-- A group that may be missing passes some tokens. -/
theorem exists_passes_groupIfNext (c : Cursor) :
    ∃ passed, c.Passes passed (groupIfNext c).next := by
  unfold groupIfNext
  split
  · next h => exact ⟨_, passes_group (rest_ne_nil_of_at h)⟩
  · exact ⟨[], .refl c⟩

/-- A test that is read passes some tokens. -/
theorem exists_passes_condition {c mid : Cursor} {test : Node Token}
    (h : condition c = ⟨some test, [], mid⟩) : ∃ passed, c.Passes passed mid := by
  obtain ⟨hparen, -, -, he⟩ := condition_eq_of_faults (c := c) (by rw [h])
  cases h.symm.trans he
  exact ⟨_, passes_group (rest_ne_nil_of_at hparen)⟩

/-- The end of a loop passes some tokens. -/
theorem exists_passes_loopEnd {c next : Cursor} (h : loopEnd c = ⟨(), [], next⟩) :
    ∃ passed, c.Passes passed next := by
  have htest : ∃ passed, c.Passes passed
      (if c.atKeyword? .whileKw then groupIfNext c.advance else ⟨[], [], c⟩).next := by
    split
    · next hw =>
      obtain ⟨t, ts, hr⟩ := List.exists_cons_of_ne_nil (rest_ne_nil_of_atKeyword hw)
      obtain ⟨passed, hpassed⟩ := exists_passes_groupIfNext c.advance
      exact ⟨_, (passes_advance hr).trans hpassed⟩
    · exact ⟨[], .refl c⟩
  unfold loopEnd at h
  generalize (if c.atKeyword? .whileKw then groupIfNext c.advance else ⟨[], [], c⟩) = g at h htest
  obtain ⟨passed, hpassed⟩ := htest
  obtain ⟨-, hfaults, hnext⟩ := Parsed.mk.inj h
  have hs := at_of_expect (List.append_eq_nil_iff.mp hfaults).2
  rw [expect_of_at hs] at hnext
  subst hnext
  obtain ⟨t, ht⟩ := exists_passes_advance_of_at hs
  exact ⟨_, hpassed.trans ht⟩

/-- Reading without fault passes tokens, and at least one unless it may stop at once. -/
theorem Reads.exists_passes {form : Form} {depth : Nat} {c next : Cursor} {ns : List (Node Token)}
    (h : Reads form depth c ns next) :
    ∃ passed, c.Passes passed next ∧ (form ≠ .statements → passed ≠ []) := by
  induction h with
  | @done _ c => exact ⟨[], .refl c, fun h => absurd rfl h⟩
  | more _ _ _ ihFirst ihOthers =>
    obtain ⟨first, hfirst, -⟩ := ihFirst
    obtain ⟨others, hothers, -⟩ := ihOthers
    exact ⟨_, hfirst.trans hothers, fun h => absurd rfl h⟩
  | block _ _ hclose ih =>
    obtain ⟨body, hbody, -⟩ := ih
    obtain ⟨t, ht⟩ := exists_passes_advance_of_at hclose
    exact ⟨_, hbody.trans ht, fun _ => by simp⟩
  | nested hr _ _ ih =>
    obtain ⟨inner, hinner, -⟩ := ih
    exact ⟨_, (passes_advance hr).trans hinner, fun _ => by simp⟩
  | empty hr => exact ⟨_, passes_advance hr, fun _ => by simp⟩
  | chosen hr _ _ ih =>
    obtain ⟨inner, hinner, -⟩ := ih
    exact ⟨_, (passes_advance hr).trans hinner, fun _ => by simp⟩
  | @returned _ c _ _ _ _ hr _ clause hs =>
    have hclause := passes_untilSemicolon (c := c.advance) (by rw [clause])
    rw [clause] at hclause
    obtain ⟨t, ht⟩ := exists_passes_advance_of_at hs
    exact ⟨_, (passes_advance hr).trans (hclause.trans ht), fun _ => by simp⟩
  | @loop _ c _ _ _ _ _ _ hr _ hhead _ ih =>
    obtain ⟨head, hpassed⟩ := exists_passes_groupIfNext c.advance
    rw [hhead] at hpassed
    obtain ⟨body, hbody, -⟩ := ih
    exact ⟨_, (passes_advance hr).trans (hpassed.trans hbody), fun _ => by simp⟩
  | doLoop hr _ _ hend ih =>
    obtain ⟨body, hbody, -⟩ := ih
    obtain ⟨test, htest⟩ := exists_passes_loopEnd hend
    exact ⟨_, (passes_advance hr).trans (hbody.trans htest), fun _ => by simp⟩
  | @simple _ c _ _ _ _ _ _ clause hs =>
    have hclause := passes_untilSemicolon (c := c) (by rw [clause])
    rw [clause] at hclause
    obtain ⟨t, ht⟩ := exists_passes_advance_of_at hs
    exact ⟨_, hclause.trans ht, fun _ => by simp⟩
  | ifThen hc _ _ ih =>
    obtain ⟨test, htest⟩ := exists_passes_condition hc
    obtain ⟨first, hfirst, hne⟩ := ih
    exact ⟨_, htest.trans hfirst, fun _ => by simp [hne]⟩
  | ifElse hc _ he _ ihFirst ihSecond =>
    obtain ⟨test, htest⟩ := exists_passes_condition hc
    obtain ⟨first, hfirst, hne⟩ := ihFirst
    obtain ⟨t, ts, hr⟩ := List.exists_cons_of_ne_nil (rest_ne_nil_of_atKeyword he)
    obtain ⟨second, hsecond, -⟩ := ihSecond
    exact ⟨_, htest.trans (hfirst.trans ((passes_advance hr).trans hsecond)), fun _ => by simp⟩
  | braced hb _ ih =>
    obtain ⟨t, ht⟩ := exists_passes_advance_of_at hb
    obtain ⟨inner, hinner, -⟩ := ih
    exact ⟨_, ht.trans hinner, fun _ => by simp⟩
  | unbraced _ _ ih =>
    obtain ⟨inner, hinner, hne⟩ := ih
    exact ⟨inner, hinner, fun _ => hne (by simp)⟩

end Parser

/-- Whether one of some tokens is a brace that stands where a node begins. -/
def Node.isBraced (tokens : List Token) (n : Node Token) : Bool :=
  tokens.any fun t => t.is .lbrace && t.span.start == n.span.start

mutual
/-- The greatest number of nodes with a property on a path from the root of a tree to a leaf. -/
def Node.countDown {τ : Type} (p : Node τ → Bool) : Node τ → Nat
  | ⟨kind, spelling, tokens, children, span⟩ =>
    (p ⟨kind, spelling, tokens, children, span⟩).toNat + countDownOf p children
/-- The greatest number of nodes with a property on a path through one of several trees. -/
def countDownOf {τ : Type} (p : Node τ → Bool) : List (Node τ) → Nat
  | [] => 0
  | n :: ns => max (n.countDown p) (countDownOf p ns)
end

section
variable {τ : Type} {p : Node τ → Bool}

/-- The most nodes counted along a branch are those below the node, and the node itself. -/
theorem Node.countDown_eq (n : Node τ) :
    n.countDown p = (p n).toNat + countDownOf p n.children := by
  cases n
  rw [Node.countDown]

/-- Of two lists, the one with the longer count decides. -/
theorem countDownOf_append (ns ms : List (Node τ)) :
    countDownOf p (ns ++ ms) = max (countDownOf p ns) (countDownOf p ms) := by
  induction ns with
  | nil => exact (Nat.zero_max _).symm
  | cons n ns ih => rw [List.cons_append, countDownOf, countDownOf, ih, Nat.max_assoc]

private theorem countDownOf_singleton (n : Node τ) :
    countDownOf p [n] = n.countDown p := Nat.max_zero _

/-- Nodes that count nothing count nothing together. -/
theorem countDownOf_eq_zero {ns : List (Node τ)} (h : ∀ n ∈ ns, n.countDown p = 0) :
    countDownOf p ns = 0 := by
  induction ns with
  | nil => rfl
  | cons n ns ih =>
    obtain ⟨hn, hns⟩ := List.forall_mem_cons.mp h
    rw [countDownOf, hn, ih hns]
    rfl

mutual
/-- Counting the blocks along a branch gives the block depth. -/
theorem Node.countDown_block : ∀ n : Node τ, n.countDown (·.kind == .block) = n.blockDepth
  | ⟨kind, spelling, tokens, children, span⟩ => by
    rw [Node.countDown, Node.blockDepth, countDownOf_block children]
    cases kind <;> rfl
/-- Counting the blocks along the branches of a list gives its block depth. -/
theorem countDownOf_block : ∀ ns : List (Node τ),
    countDownOf (·.kind == .block) ns = blockDepthOf ns
  | [] => rfl
  | n :: ns => by
    rw [countDownOf, blockDepthOf, Node.countDown_block n, countDownOf_block ns]
end

end

section
variable {p : Node Token → Bool} (hp : ∀ n, p n = true → n.kind = .block)
include hp

/-- A node other than a block adds nothing to the count of blocks below it. -/
theorem countDown_of_kind {n : Node Token} (h : n.kind ≠ .block) :
    n.countDown p = countDownOf p n.children := by
  have hn : p n = false := by
    rw [← Bool.not_eq_true]
    exact fun hn => h (hp n hn)
  rw [Node.countDown_eq, hn]
  exact Nat.zero_add _

/-- A node of a kind that does not nest adds nothing to the count below it. -/
theorem countDown_of_nests {n : Node Token} (h : n.kind.nests = false) :
    n.countDown p = countDownOf p n.children := by
  refine countDown_of_kind hp fun hk => ?_
  rw [hk] at h
  cases h

private theorem countDown_expression (tokens : List Token) :
    (Shape.expression tokens).countDown p = 0 :=
  countDown_of_nests hp (Shape.kind_expression tokens)

/-- A simple statement counts nothing. -/
theorem countDown_statement (tokens : List Token) (semicolon : Option Token) :
    (Shape.statement tokens semicolon).countDown p = 0 := by
  rw [countDown_of_nests hp (Shape.kind_statement tokens semicolon)]
  refine countDownOf_eq_zero ?_
  -- Only a call has children, and these are its arguments.
  unfold Shape.statement
  split
  · exact fun _ h => absurd h List.not_mem_nil
  · split
    · exact fun _ h => absurd h List.not_mem_nil
    · unfold Shape.call?
      simp only
      split
      · intro n hn
        obtain ⟨argument, -, rfl⟩ := List.mem_map.mp hn
        exact countDown_expression hp argument
      · exact fun _ h => absurd h List.not_mem_nil

end

namespace Parser

open VertexLanes.Cursor

section
variable {tokens : List Token} (hord : tokens.Pairwise fun a b => a.span.start < b.span.start)
include hord

/-- The first token of an end of the source starts before all others in it. -/
theorem start_le_of_suffix {t u : Token} {ts : List Token} (hs : t :: ts <:+ tokens)
    (hu : u ∈ t :: ts) : t.span.start ≤ u.span.start := by
  rcases List.mem_cons.mp hu with rfl | hu
  · exact Nat.le_refl _
  · exact Nat.le_of_lt (List.rel_of_pairwise_cons (hord.sublist hs.sublist) hu)

/-- Two tokens of the source that start at one place are the same. -/
theorem eq_of_start_eq {t u : Token} (ht : t ∈ tokens) (hu : u ∈ tokens)
    (h : t.span.start = u.span.start) : t = u := by
  have hnodup : (tokens.map fun a => a.span.start).Nodup :=
    List.pairwise_map.mpr (hord.imp fun hlt => Nat.ne_of_lt hlt)
  exact List.inj_on_of_nodup_map hnodup ht hu h

/-- A branch that is read without a brace does not begin with one. -/
theorem Reads.isBraced_unbraced {depth : Nat} {c next : Cursor} {ns : List (Node Token)}
    (h : Reads .statement depth c ns next) (hc : c.rest <:+ tokens) (hb : c.at? .lbrace = false) :
    (Node.ofStatements ns (c.here.merge next.before)).isBraced tokens = false := by
  obtain ⟨passed, hpassed, hne⟩ := h.exists_passes
  obtain ⟨t, others, rfl⟩ := List.exists_cons_of_ne_nil (hne (by simp))
  have hr : c.rest = t :: (others ++ next.rest) := hpassed.rest_eq
  have hlast := List.getLast?_eq_some_getLast (List.cons_ne_nil t others)
  have hmem : (t :: others).getLast (List.cons_ne_nil t others) ∈ c.rest := by
    rw [hpassed.rest_eq]
    exact List.mem_append_left _ (List.getLast_mem _)
  generalize (t :: others).getLast _ = u at hlast hmem
  have hbefore : next.before = u.span := by
    rw [before, hpassed.last_eq, hlast]
    rfl
  have hstart : (c.here.merge next.before).start = t.span.start := by
    have hle := start_le_of_suffix hord (hr ▸ hc) (hr ▸ hmem)
    rw [here, hr, hbefore]
    exact Nat.min_eq_left hle
  rw [Node.isBraced, List.any_eq_false]
  intro b hmemb hbrace
  obtain ⟨hisb, hstartb⟩ := Bool.and_eq_true_iff.mp hbrace
  have htmem : t ∈ tokens := hc.subset (hr ▸ List.mem_cons_self)
  have hbt : b = t := eq_of_start_eq hord hmemb htmem ((eq_of_beq hstartb).trans hstart)
  rw [at?, peek, hr] at hb
  rw [hbt, Token.is] at hisb
  simp only [List.head?_cons, Option.map_some, beq_eq_false_iff_ne, ne_eq,
    Option.some.injEq] at hb
  exact hb (eq_of_beq hisb)

/-- A block that is read from its opening brace on begins with a brace. -/
theorem isBraced_block {opening : Token} {c mid : Cursor} (ns : List (Node Token))
    (ho : opening.is .lbrace = true) (hc : opening :: c.rest <:+ tokens)
    (hmid : mid.rest <:+ c.rest) (hclose : mid.at? .rbrace = true) :
    (Node.ofStatements ns (opening.span.merge mid.here)).isBraced tokens = true := by
  obtain ⟨closing, rest, hr⟩ := List.exists_cons_of_ne_nil (rest_ne_nil_of_at hclose)
  have hmem : closing ∈ c.rest := hmid.subset (hr ▸ List.mem_cons_self)
  have hle := start_le_of_suffix hord hc (List.mem_cons_of_mem opening hmem)
  rw [Node.isBraced, List.any_eq_true]
  refine ⟨opening, hc.subset List.mem_cons_self, ?_⟩
  rw [ho, Bool.true_and, beq_iff_eq, here, hr]
  exact (Nat.min_eq_left hle).symm

end

/-- A form is read inside a token sequence, a block after a brace of it. -/
def Form.In (tokens : List Token) (c : Cursor) : Form → Prop
  | .block opening => ∃ t, t.is .lbrace = true ∧ t.span = opening ∧ t :: c.rest <:+ tokens
  | _ => c.rest <:+ tokens

/-- A token that opens a block is a brace. -/
theorem is_lbrace_of_ofLexeme {t : Token} (h : Opening.ofLexeme t.item = .block) :
    t.is .lbrace = true := by
  obtain ⟨l, place⟩ := t
  cases l with
  | symbol s =>
    cases s with
    | lbrace => rfl
    | _ => cases h
  | keyword k => cases k <;> cases h
  | _ => cases h

section
variable {tokens : List Token} {depth : Nat} {c next : Cursor} {ns : List (Node Token)}

/-- A block behind a brace of the source begins at a brace of the source. -/
theorem Form.in_block_of_rest {t : Token} {ts : List Token} (hc : c.rest <:+ tokens)
    (hr : c.rest = t :: ts) (ht : t.is .lbrace = true) :
    Form.In tokens c.advance (.block t.span) := by
  refine ⟨t, ht, rfl, ?_⟩
  rwa [advance_rest hr, ← hr]

/-- A block at a brace of the source begins at a brace of the source. -/
theorem Form.in_block_of_at (hc : c.rest <:+ tokens) (hb : c.at? .lbrace = true) :
    Form.In tokens c.advance (.block c.here) := by
  obtain ⟨t, ts, hr⟩ := List.exists_cons_of_ne_nil (rest_ne_nil_of_at hb)
  rw [here, hr]
  refine Form.in_block_of_rest hc hr ?_
  rw [at?, peek, hr] at hb
  simpa [Token.is] using hb

/-- What is left behind a form that was read is an end of what there was. -/
theorem Reads.suffix {form : Form} (h : Reads form depth c ns next) : next.rest <:+ c.rest := by
  obtain ⟨passed, hpassed, -⟩ := h.exists_passes
  exact hpassed.suffix

/-- What is left behind a test is an end of what there was. -/
theorem suffix_of_condition {mid : Cursor} {test : Node Token}
    (h : condition c = ⟨some test, [], mid⟩) : mid.rest <:+ c.rest := by
  obtain ⟨passed, hpassed⟩ := exists_passes_condition h
  exact hpassed.suffix

end

/-- A block in statement position begins with a brace. -/
def BeginsBraced (tokens : List Token) (n : Node Token) : Prop :=
  n.kind = .block → n.isBraced tokens = true

/-- The blocks in statement position of what was read begin with braces; a branch is in none. -/
def Form.Braced (tokens : List Token) (ns : List (Node Token)) : Form → Prop
  | .branch => ∀ b ∈ ns, AllPositions (BeginsBraced tokens) b.children
  | _ => AllPositions (BeginsBraced tokens) ns

/-- A node other than a block need not begin with a brace. -/
theorem beginsBraced_of_kind {tokens : List Token} {n : Node Token} (h : n.kind ≠ .block) :
    BeginsBraced tokens n := fun hk => absurd hk h

/-- The blocks that a form puts where braces are needed begin with a brace of the source. -/
theorem Reads.braced_positions {tokens : List Token}
    (hord : tokens.Pairwise fun a b => a.span.start < b.span.start) {form : Form} {depth : Nat}
    {c next : Cursor} {ns : List (Node Token)} (h : Reads form depth c ns next)
    (hin : form.In tokens c) : form.Braced tokens ns := by
  induction h with
  | done => exact allPositions_nil
  | more _ first _ ihFirst ihOthers =>
    exact allPositions_append.mpr ⟨ihFirst hin, ihOthers (first.suffix.trans hin)⟩
  | block hd body hclose ih =>
    obtain ⟨opening, hopening, rfl, hc⟩ := hin
    refine (allPositions_block rfl).mpr ⟨?_, ih ((List.suffix_cons _ _).trans hc)⟩
    exact fun _ => isBraced_block hord _ hopening hc body.suffix hclose
  | nested hr ho _ ih => exact ih (Form.in_block_of_rest hin hr (is_lbrace_of_ofLexeme ho))
  | empty => exact allPositions_nil
  | @chosen _ c _ _ _ _ _ _ _ ih => exact ih ((advance_suffix c).trans hin)
  | returned => exact (allPositions_simple rfl).mpr (beginsBraced_of_kind NodeKind.noConfusion)
  | loop => exact (allPositions_simple rfl).mpr (beginsBraced_of_kind NodeKind.noConfusion)
  | doLoop => exact (allPositions_simple rfl).mpr (beginsBraced_of_kind NodeKind.noConfusion)
  | simple =>
    have hnests := Shape.kind_statement
    refine (allPositions_simple (hnests _ _)).mpr (beginsBraced_of_kind ?_)
    intro hk
    cases (congrArg NodeKind.nests hk).symm.trans (hnests _ _)
  | ifThen hc branch _ ih =>
    refine (allPositions_conditional rfl rfl branch.blocksOnly).mpr ⟨?_, ?_⟩
    · exact beginsBraced_of_kind NodeKind.noConfusion
    · exact ih ((suffix_of_condition hc).trans hin)
  | @ifElse _ _ c _ mid first after second _ hc branch _ elseBranch ihFirst ihSecond =>
    have hmid := (suffix_of_condition hc).trans hin
    have hafter := (advance_suffix after).trans (branch.suffix.trans hmid)
    refine (allPositions_conditional rfl rfl (branch.kind_of_branches elseBranch)).mpr ⟨?_, ?_⟩
    · exact beginsBraced_of_kind NodeKind.noConfusion
    · exact List.forall_mem_cons.mpr ⟨ihFirst hmid first List.mem_cons_self, ihSecond hafter⟩
  | braced hb inner ih =>
    have hinner := ih (Form.in_block_of_at hin hb)
    cases inner with
    | block =>
      intro b hmem
      rw [List.mem_singleton.mp hmem]
      exact ((allPositions_block rfl).mp hinner).2
  | unbraced _ _ ih =>
    intro b hmem
    rw [List.mem_singleton.mp hmem]
    exact ih hin

/-- A block around statements counts at most one node more than they do. -/
theorem countDown_ofStatements_le (p : Node Token → Bool) (ns : List (Node Token)) (span : Span) :
    (Node.ofStatements ns span).countDown p ≤ countDownOf p ns + 1 := by
  have hone := Bool.toNat_le (p (Node.ofStatements ns span))
  rw [Node.countDown_eq]
  change _ + countDownOf p ns ≤ _
  omega

/-- A count leaves out the branches of a conditional that do not begin with a brace. -/
def LeavesOut (tokens : List Token) (p : Node Token → Bool) (n : Node Token) : Prop :=
  n.kind = .conditional → ∀ b ∈ n.children.tail, b.isBraced tokens = false → p b = false

/-- A count leaves out a branch that was read without a brace. -/
def Form.LeftOut (tokens : List Token) (p : Node Token → Bool) (ns : List (Node Token)) :
    Form → Prop
  | .branch => ∀ b ∈ ns, b.isBraced tokens = false → p b = false
  | _ => True

/-- A block leaves out what its statements do. -/
theorem allPositions_leavesOut_of_block {tokens : List Token} {p : Node Token → Bool}
    {b : Node Token} (hk : b.kind = .block)
    (h : AllPositions (LeavesOut tokens p) b.children) :
    AllPositions (LeavesOut tokens p) [b] := by
  refine (allPositions_block hk).mpr ⟨?_, h⟩
  intro hc
  cases hk.symm.trans hc

/-- If unbraced branches are left out, each brace on a path counts at most once. -/
theorem Reads.countDown_le {tokens : List Token}
    (hord : tokens.Pairwise fun a b => a.span.start < b.span.start) {p : Node Token → Bool}
    (hp : ∀ n, p n = true → n.kind = .block) {form : Form} {depth : Nat} {c next : Cursor}
    {ns : List (Node Token)} (h : Reads form depth c ns next) (hc : c.rest <:+ tokens)
    (hd : depth ≤ maxDepth) (hself : form.LeftOut tokens p ns)
    (hinner : AllPositions (LeavesOut tokens p) ns) : depth + countDownOf p ns ≤ maxDepth := by
  induction h with
  | done => exact hd
  | more _ first _ ihFirst ihOthers =>
    obtain ⟨hl, hr⟩ := allPositions_append.mp hinner
    have hfirst := ihFirst hc hd trivial hl
    have hothers := ihOthers (first.suffix.trans hc) hd trivial hr
    rw [countDownOf_append]
    omega
  | @block _ opening _ mid ns hlt body _ ih =>
    have hbody := ih hc hlt trivial ((allPositions_block rfl).mp hinner).2
    have hone := countDown_ofStatements_le p ns (opening.merge mid.here)
    rw [countDownOf_singleton]
    omega
  | @nested _ c _ _ _ _ _ _ _ ih => exact ih ((advance_suffix c).trans hc) hd trivial hinner
  | empty => exact hd
  | @chosen _ c _ _ _ _ _ _ _ ih => exact ih ((advance_suffix c).trans hc) hd trivial hinner
  | @returned _ _ _ _ value =>
    rw [countDownOf_singleton, countDown_of_kind hp NodeKind.noConfusion]
    change _ + countDownOf p (if value.isEmpty then [] else [Shape.expression value]) ≤ _
    split
    · exact hd
    · rwa [countDownOf_singleton, countDown_expression hp]
  | loop => rwa [countDownOf_singleton, countDown_of_kind hp NodeKind.noConfusion]
  | doLoop => rwa [countDownOf_singleton, countDown_of_kind hp NodeKind.noConfusion]
  | simple => rwa [countDownOf_singleton, countDown_statement hp]
  | @ifThen _ _ _ _ _ first _ hcond branch _ ih =>
    obtain ⟨opening, inner, closing, rfl, -⟩ := depthThrough_of_condition hcond
    have hk : ∀ b ∈ [first], b.kind = .block := branch.blocksOnly
    obtain ⟨hbranch, hbody⟩ := (allPositions_conditional rfl rfl hk).mp hinner
    have hfirst := ih ((suffix_of_condition hcond).trans hc) hd (hbranch rfl)
      (allPositions_leavesOut_of_block (hk first List.mem_cons_self)
        (hbody first List.mem_cons_self))
    rw [countDownOf_singleton, countDown_of_kind hp NodeKind.noConfusion, countDownOf,
      countDown_expression hp]
    omega
  | @ifElse _ _ _ _ _ first after second _ hcond branch _ elseBranch ihFirst ihSecond =>
    obtain ⟨opening, inner, closing, rfl, -⟩ := depthThrough_of_condition hcond
    have hk := branch.kind_of_branches elseBranch
    obtain ⟨hbranch, hbody⟩ := (allPositions_conditional rfl rfl hk).mp hinner
    have hmid := (suffix_of_condition hcond).trans hc
    have hafter := (advance_suffix after).trans (branch.suffix.trans hmid)
    rw [List.forall_mem_cons, List.forall_mem_singleton] at hk hbody
    obtain ⟨hselfFirst, hselfSecond⟩ := List.forall_mem_cons.mp (hbranch rfl)
    have hfirst := ihFirst hmid hd (List.forall_mem_singleton.mpr hselfFirst)
      (allPositions_leavesOut_of_block hk.1 hbody.1)
    have hsecond := ihSecond hafter hd hselfSecond
      (allPositions_leavesOut_of_block hk.2 hbody.2)
    rw [countDownOf_singleton] at hfirst
    rw [countDownOf_singleton, countDown_of_kind hp NodeKind.noConfusion, countDownOf,
      countDown_expression hp, countDownOf]
    omega
  | @braced _ c _ _ _ _ ih => exact ih ((advance_suffix c).trans hc) hd trivial hinner
  | unbraced hb inner ih =>
    have hout := hself _ List.mem_cons_self (inner.isBraced_unbraced hord hc hb)
    rw [countDownOf_singleton, Node.countDown_eq, hout, Bool.toNat_false, Nat.zero_add]
    exact ih hc hd trivial ((allPositions_block rfl).mp hinner).2

end Parser

open VertexLanes.Parser VertexLanes.Cursor

/-- The tokens of a source begin one after the other. -/
theorem lex_starts (source : List Char) :
    (lex source).tokens.Pairwise fun a b => a.span.start < b.span.start :=
  (lex_ordered source).imp_of_mem fun ha _ hle =>
    Nat.lt_of_lt_of_le (bounds_of_mem_lex ha).1 hle

/-- In an accepted source every block in statement position begins with a brace, and no path of the
tree has more than 256 blocks that do. If every branch begins with a brace too, no path has more
than 256 blocks. -/
theorem parseBlock_nesting {source : List Char} {t : Node Token} (h : parseBlock source = .ok t) :
    (∀ n ∈ positions [t], n.kind = .block → n.isBraced (lex source).tokens = true) ∧
      t.countDown (fun n => n.kind == .block && n.isBraced (lex source).tokens) ≤ 256 ∧
      ((∀ n ∈ positions [t], n.kind = .conditional →
          ∀ b ∈ n.children.tail, b.isBraced (lex source).tokens = true) → t.blockDepth ≤ 256) := by
  obtain ⟨-, first, ts, next, htokens, hbrace, hread, -⟩ := parseBlock_eq_ok_iff.mp h
  have hord := lex_starts source
  have hwhole : (lex source).cursor.rest <:+ (lex source).tokens := List.suffix_rfl
  have hc : (lex source).cursor.advance.rest <:+ (lex source).tokens := advance_suffix _
  refine ⟨hread.braced_positions hord (Form.in_block_of_rest hwhole htokens hbrace), ?_, ?_⟩
  · rw [← countDownOf_singleton, ← Nat.zero_add (countDownOf _ _)]
    refine hread.countDown_le hord ?_ hc (Nat.zero_le _) trivial ?_
    · intro n hn
      exact eq_of_beq (Bool.and_eq_true_iff.mp hn).1
    · intro n _ _ b _ hunbraced
      simp only [hunbraced, Bool.and_false]
  · intro hbranches
    rw [← Node.countDown_block, ← countDownOf_singleton, ← Nat.zero_add (countDownOf _ _)]
    refine hread.countDown_le hord ?_ hc (Nat.zero_le _) trivial ?_
    · intro n hn
      exact eq_of_beq hn
    · intro n hn hk b hb hunbraced
      cases (hbranches n hn hk b hb).symm.trans hunbraced

/-- A block with an empty block and a conditional whose branches all have braces. -/
def bracedSource : String :=
  "\x7b \x7b \x7d if (a) \x7b \x7b x = 1; \x7d \x7d else \x7b if (b) \x7b ; \x7d \x7d \x7d"

/-- A conditional with braces in both branches, and one nested in it. -/
theorem parseBlock_nesting_braced :
    ∃ t, parseBlock bracedSource.toList = .ok t ∧
      (∀ n ∈ positions [t], n.kind = .conditional →
        ∀ b ∈ n.children.tail, b.isBraced (lex bracedSource.toList).tokens = true) ∧
      t.blockDepth = 3 ∧ t.blockDepth ≤ 256 := by
  have hall : ((parseBlock bracedSource.toList).toOption.any fun t =>
      (positions [t]).all (fun n => n.kind != .conditional ||
        n.children.tail.all fun b => b.isBraced (lex bracedSource.toList).tokens) &&
          decide (t.blockDepth = 3)) = true := by
    decide +kernel
  cases hp : parseBlock bracedSource.toList with
  | error e =>
    rw [hp] at hall
    cases hall
  | ok t =>
    rw [hp] at hall
    simp only [Except.toOption, Option.any_some, Bool.and_eq_true, List.all_eq_true, bne_iff_ne,
      Bool.or_eq_true, decide_eq_true_eq] at hall
    obtain ⟨hbranches, hdepth⟩ := hall
    have hbraced : ∀ n ∈ positions [t], n.kind = .conditional →
        ∀ b ∈ n.children.tail, b.isBraced (lex bracedSource.toList).tokens = true := by
      intro n hn hk
      exact (hbranches n hn).resolve_left fun h => h hk
    exact ⟨t, rfl, hbraced, hdepth, (parseBlock_nesting hp).2.2 hbraced⟩

/-- The lexemes of conditionals without braces, each but the first the branch of the one before. -/
def unbracedLexemes : Nat → List Lexeme
  | 0 => [.symbol .semicolon]
  | n + 1 =>
    .keyword .ifKw :: .symbol .lparen :: .ident "a" :: .symbol .rparen :: unbracedLexemes n

/-- A block that holds conditionals without braces, each but the first the branch of the one
before. -/
def unbracedSource (n : Nat) : List Char :=
  spaced (.symbol .lbrace :: (unbracedLexemes n ++ [.symbol .rbrace]))

/-- The lexemes of nested unbraced conditionals can be read back. -/
theorem readable_of_mem_unbracedLexemes {n : Nat} {l : Lexeme} (h : l ∈ unbracedLexemes n) :
    l.Readable := by
  have hname : (Lexeme.ident "a").Readable :=
    @Lexeme.readable_of_next false 'a' [] (.ident "a") (by decide +kernel) rfl
  induction n with
  | zero =>
    rw [List.mem_singleton.mp h]
    exact Symbol.readable _
  | succ n ih =>
    simp only [unbracedLexemes, List.mem_cons] at h
    rcases h with rfl | rfl | rfl | rfl | h
    · exact Keyword.readable _
    · exact Symbol.readable _
    · exact hname
    · exact Symbol.readable _
    · exact ih h

/-- Each conditional without braces adds a block, at any depth of braces. -/
theorem reads_unbracedLexemes (n depth : Nat) {c : Cursor} {follow : List Lexeme}
    (hc : c.ahead = unbracedLexemes n ++ follow) (hf : follow.head? ≠ some (.keyword .elseKw)) :
    ∃ ns next, Reads .statement depth c ns next ∧ blockDepthOf ns = n ∧ next.ahead = follow := by
  induction n generalizing c with
  | zero =>
    obtain ⟨t, ts, hr, ht, hnext⟩ := exists_rest_of_ahead hc
    exact ⟨[], c.advance, .empty hr (by rw [ht]; rfl), rfl, hnext⟩
  | succ n ih =>
    obtain ⟨t, ts, hr, ht, hahead⟩ := exists_rest_of_ahead hc
    obtain ⟨test, mid, htest, -, hmid⟩ := @condition_of_ahead [⟨.ident "a", Span.nowhere⟩]
      (List.cons_ne_nil _ _) rfl c.advance _ hahead
    obtain ⟨ns, next, hread, hdepth, hnext⟩ := ih hmid
    have hb : mid.at? .lbrace = false := by
      rw [at?, peek_eq_head?_ahead, hmid]
      cases n <;> rfl
    have he : next.atKeyword? .elseKw = false := by
      rw [atKeyword?, peek_eq_head?_ahead, hnext]
      simpa using hf
    refine ⟨_, next, .chosen hr (by rw [ht]; rfl) (.ifThen htest (.unbraced hb hread) he), ?_,
      hnext⟩
    have hexpr : (Shape.expression test).blockDepth = 0 := by
      rw [← Node.countDown_block]
      exact countDown_expression (fun n hn => eq_of_beq hn) test
    simp only [blockDepthOf, Node.blockDepth, hexpr, Node.ofStatements, hdepth]
    simp [Nat.add_comm]

/-- There are accepted sources with any number of blocks on a path. -/
theorem exists_parseBlock_blockDepth (n : Nat) :
    ∃ t, parseBlock (unbracedSource n) = .ok t ∧ t.blockDepth = n + 1 := by
  have hreadable : ∀ l ∈ Lexeme.symbol .lbrace :: (unbracedLexemes n ++ [.symbol .rbrace]),
      l.Readable := by
    intro l hl
    simp only [List.mem_cons, List.mem_append, List.not_mem_nil, or_false] at hl
    rcases hl with rfl | hl | rfl
    · exact Symbol.readable _
    · exact readable_of_mem_unbracedLexemes hl
    · exact Symbol.readable _
  obtain ⟨hfaults, hitems⟩ := lex_spaced hreadable
  obtain ⟨first, ts, hr, hfirst, hahead⟩ :=
    exists_rest_of_ahead (c := (lex (unbracedSource n)).cursor) hitems
  obtain ⟨ns, mid, hread, hdepth, hmid⟩ := reads_unbracedLexemes n 1 hahead (by simp)
  have hstart : (lex (unbracedSource n)).cursor.advance.atBlockEnd = false := by
    cases n with
    | zero => exact not_atBlockEnd_of_ahead hahead (by simp)
    | succ n => exact not_atBlockEnd_of_ahead hahead (by simp)
  have hclose := at_of_ahead hmid
  have hend : mid.atBlockEnd = true := by rw [atBlockEnd, hclose, Bool.or_true]
  obtain ⟨closing, rest, -, -, hnext⟩ := exists_rest_of_ahead hmid
  refine ⟨_, parseBlock_eq_ok_iff.mpr ⟨hfaults, first, ts, mid.advance, hr, ?_,
    .block (by decide) (.more hstart hread (.done hend)) hclose, List.map_eq_nil_iff.mp hnext⟩, ?_⟩
  · rw [Token.is, hfirst]
    rfl
  · rw [List.append_nil, Node.ofStatements, Node.blockDepth, hdepth]
    exact Nat.add_comm 1 n

/-- Conditionals without braces stand deeper than any number of braces may. -/
theorem parseBlock_nesting_unbraced :
    ∃ t, parseBlock (unbracedSource 256) = .ok t ∧ ¬t.blockDepth ≤ 256 := by
  obtain ⟨t, ht, hdepth⟩ := exists_parseBlock_blockDepth 256
  exact ⟨t, ht, by omega⟩

end VertexLanes
