import VertexLanes.Proofs.ConversionFaults
import VertexLanes.Proofs.Dropping

/-!
# A statement and what stands around it

A block can be read up to one place where a statement is still to be read. Whatever
is read there without fault, at the depth and between the cursors of that place,
completes the reading of the block. The place is a statement of the block itself,
of a block in it or of a branch; a loop is left out of the tree with all that is
in it, so its body is no such place.

What an annotation finds in single statements then splits: it is what it finds
around the place and, in between, what it finds in the statement that is put there.
-/

namespace VertexLanes

namespace Parser

/-- Reading a form without fault around one place, at the depth `hole` and between the cursors
`start` and `behind`: the nodes of the whole, given those of the place, and the cursor after it. -/
inductive Around (hole : Nat) (start behind : Cursor) :
    Form → Nat → Cursor → (List (Node Token) → List (Node Token)) → Cursor → Prop
  | here : Around hole start behind .statement hole start id behind
  | first {depth c mid next fill ms} (he : c.atBlockEnd = false)
      (h : Around hole start behind .statement depth c fill mid)
      (others : Reads .statements depth mid ms next) :
      Around hole start behind .statements depth c (fun ns => fill ns ++ ms) next
  | later {depth c mid next fill ms} (he : c.atBlockEnd = false)
      (first : Reads .statement depth c ms mid)
      (h : Around hole start behind .statements depth mid fill next) :
      Around hole start behind .statements depth c (fun ns => ms ++ fill ns) next
  | block {depth opening c mid fill} (hd : depth < maxDepth)
      (h : Around hole start behind .statements (depth + 1) c fill mid)
      (hclose : mid.at? .rbrace = true) :
      Around hole start behind (.block opening) depth c
        (fun ns => [Node.ofStatements (fill ns) (opening.merge mid.here)]) mid.advance
  | nested {depth c t ts fill next} (hr : c.rest = t :: ts)
      (ho : Opening.ofLexeme t.item = .block)
      (h : Around hole start behind (.block t.span) depth c.advance fill next) :
      Around hole start behind .statement depth c fill next
  | chosen {depth c t ts fill next} (hr : c.rest = t :: ts)
      (ho : Opening.ofLexeme t.item = .conditional)
      (h : Around hole start behind (.conditional t.span) depth c.advance fill next) :
      Around hole start behind .statement depth c fill next
  | ifThen {depth keyword c test mid fill next} (hc : condition c = ⟨some test, [], mid⟩)
      (h : Around hole start behind .branch depth mid fill next)
      (he : next.atKeyword? .elseKw = false) :
      Around hole start behind (.conditional keyword) depth c
        (fun ns => [⟨.conditional, "", [], test :: fill ns, keyword.merge next.before⟩]) next
  /-- The place is in the first of two branches. -/
  | inThen {depth keyword c test mid fill after second next}
      (hc : condition c = ⟨some test, [], mid⟩)
      (h : Around hole start behind .branch depth mid fill after)
      (he : after.atKeyword? .elseKw = true)
      (elseBranch : Reads .branch depth after.advance [second] next) :
      Around hole start behind (.conditional keyword) depth c
        (fun ns => [⟨.conditional, "", [], test :: (fill ns ++ [second]),
          keyword.merge next.before⟩]) next
  /-- The place is in the second of two branches. -/
  | inElse {depth keyword c test mid first after fill next}
      (hc : condition c = ⟨some test, [], mid⟩)
      (branch : Reads .branch depth mid [first] after) (he : after.atKeyword? .elseKw = true)
      (h : Around hole start behind .branch depth after.advance fill next) :
      Around hole start behind (.conditional keyword) depth c
        (fun ns => [⟨.conditional, "", [], test :: ([first] ++ fill ns),
          keyword.merge next.before⟩]) next
  | braced {depth c fill next} (hb : c.at? .lbrace = true)
      (h : Around hole start behind (.block c.here) depth c.advance fill next) :
      Around hole start behind .branch depth c fill next
  | unbraced {depth c fill next} (hb : c.at? .lbrace = false)
      (h : Around hole start behind .statement depth c fill next) :
      Around hole start behind .branch depth c
        (fun ns => [Node.ofStatements (fill ns) (c.here.merge next.before)]) next

namespace Around

section
variable {hole depth : Nat} {start behind c next : Cursor} {form : Form}
  {fill : List (Node Token) → List (Node Token)}

/-- Around a place in a block there is one block, whatever the place holds. -/
theorem exists_block {opening : Span}
    (h : Around hole start behind (.block opening) depth c fill next) (ns : List (Node Token)) :
    ∃ b, fill ns = [b] ∧ b.kind = .block := by
  cases h with
  | block => exact ⟨_, rfl, rfl⟩

/-- A branch is one block, whatever is put into it. -/
theorem exists_branch (h : Around hole start behind .branch depth c fill next)
    (ns : List (Node Token)) : ∃ b, fill ns = [b] ∧ b.kind = .block := by
  cases h with
  | braced _ h => exact h.exists_block ns
  | unbraced => exact ⟨_, rfl, rfl⟩

/-- A statement that is read without fault at the place completes the reading. -/
theorem reads (h : Around hole start behind form depth c fill next) {ns : List (Node Token)}
    (hs : Reads .statement hole start ns behind) : Reads form depth c (fill ns) next := by
  induction h with
  | here => exact hs
  | first he _ others ih => exact .more he ih others
  | later he first _ ih => exact .more he first ih
  | block hd _ hclose ih => exact .block hd ih hclose
  | nested hr ho _ ih => exact .nested hr ho ih
  | chosen hr ho _ ih => exact .chosen hr ho ih
  | ifThen hc h he ih =>
    obtain ⟨b, hb, -⟩ := h.exists_branch ns
    simp only [hb] at ih ⊢
    exact .ifThen hc ih he
  | inThen hc h he elseBranch ih =>
    obtain ⟨b, hb, -⟩ := h.exists_branch ns
    simp only [hb] at ih ⊢
    exact .ifElse hc ih he elseBranch
  | inElse hc branch he h ih =>
    obtain ⟨b, hb, -⟩ := h.exists_branch ns
    simp only [hb] at ih ⊢
    exact .ifElse hc branch he ih
  | braced hb _ ih => exact .braced hb ih
  | unbraced hb _ ih => exact .unbraced hb ih

end

end Around

end Parser

/-! ## What is found in single statements -/

/-- What is found in a statement does not depend on the statements inside it: a block has nothing
of its own, and a conditional what its test has. -/
structure Shallow {α : Type} (g : Node Token → List α) : Prop where
  block : ∀ n, n.kind = .block → g n = []
  conditional : ∀ test branches others span,
    g ⟨.conditional, "", [], test :: branches, span⟩ =
      g ⟨.conditional, "", [], test :: others, span⟩

section
variable {α : Type} {g : Node Token → List α}

/-- What is found in some statements and in those inside them. -/
def foundIn (g : Node Token → List α) (ns : List (Node Token)) : List α := (positions ns).flatMap g

/-- What is found in two lists is found in the one and then in the other. -/
theorem foundIn_append (ns ms : List (Node Token)) :
    foundIn g (ns ++ ms) = foundIn g ns ++ foundIn g ms := by
  rw [foundIn, positions_append, List.flatMap_append]
  rfl

/-- In a block is found what is found in its statements. -/
theorem Shallow.foundIn_block (hg : Shallow g) {b : Node Token} (hb : b.kind = .block) :
    foundIn g [b] = foundIn g b.children := by
  rw [foundIn, positions_cons_block hb, List.flatMap_cons, hg.block b hb, positions,
    List.append_nil, List.nil_append]
  rfl

/-- In a conditional is found what its test has, and what is found in its branches. -/
theorem Shallow.foundIn_conditional (hg : Shallow g) {test : Node Token}
    {branches : List (Node Token)} (span : Span) (hb : ∀ b ∈ branches, b.kind = .block) :
    foundIn g [⟨.conditional, "", [], test :: branches, span⟩] =
      g ⟨.conditional, "", [], [test], span⟩ ++ foundIn g branches := by
  have hinner : (innerOf branches).flatMap g = foundIn g branches := by
    induction branches with
    | nil => rfl
    | cons b bs ih =>
      obtain ⟨hfirst, hothers⟩ := List.forall_mem_cons.mp hb
      rw [innerOf, List.flatMap_append, ih hothers, ← List.singleton_append, foundIn_append,
        hg.foundIn_block hfirst, Node.inner_of_block hfirst]
      rfl
  rw [foundIn, positions, List.flatMap_cons, positions, List.append_nil, ← hinner,
    hg.conditional test branches []]
  rfl

/-- What is found by spellings is found by tokens. -/
theorem foundIn_map (f : Node String → List α) (ns : List (Node Token)) :
    (positions (ns.map (Node.map Token.spelling))).flatMap f =
      foundIn (fun n => f (n.map Token.spelling)) ns := by
  rw [← Node.mapList_eq_map, positions_mapList, List.flatMap_map]
  rfl

/-- What is gathered from kept statements, and from the statements inside a block or a branch alike,
in order. -/
structure Gathers (gather : List Stmt → List α) : Prop where
  nil : gather [] = []
  cons : ∀ s ss, gather (s :: ss) = gather [s] ++ gather ss
  block : ∀ label stmts, gather [.block ⟨label, stmts⟩] = gather stmts
  ifThen : ∀ label test mask stmts span, gather [.ifThen label test ⟨mask, stmts⟩ span] = gather stmts
  ifElse : ∀ label test mask stmts otherwise other others span,
    gather [.ifElse label test ⟨mask, stmts⟩ otherwise ⟨other, others⟩ span] =
      gather stmts ++ gather others

/-- What is gathered from a walk is found in the statements in statement position, if that is so for
each statement that holds no others. -/
theorem Walk.gather_eq {gather : List Stmt → List α} (hg : Gathers gather)
    {f : Node String → List α} (hnests : ∀ n : Node String, n.kind.nests = true → f n = [])
    (hsimple : ∀ {label n kept notes}, Simple label n kept notes → gather kept.toList = f n)
    {label : Label} {next : Nat} {ns : List (Node String)} {r : Noted (List Stmt)}
    (h : Walk label next ns r) : gather r.value = (positions ns).flatMap f := by
  have hblock : ∀ {n : Node String}, n.kind = .block → f n = [] := fun hk =>
    hnests _ (by rw [hk]; rfl)
  have hconditional : ∀ {n : Node String}, n.kind = .conditional → f n = [] := fun hk =>
    hnests _ (by rw [hk]; rfl)
  induction h with
  | nil => exact hg.nil
  | block hk _ _ ihInner ihRest =>
    rw [positions_cons_block hk, List.flatMap_cons, List.flatMap_append, hblock hk, ← ihInner,
      ← ihRest, hg.cons, hg.block, List.nil_append]
  | ifThen hk hc hf _ _ ihInner ihRest =>
    rw [positions_cons_conditional hk hc hf, List.flatMap_cons, List.flatMap_append,
      hconditional hk, List.flatMap_singleton, ← ihInner, ← ihRest, hg.cons, hg.ifThen,
      List.nil_append]
  | ifElse hk hc hf _ _ _ ihInner ihElse ihRest =>
    rw [positions_cons_conditional hk hc hf, List.flatMap_cons, List.flatMap_append,
      hconditional hk, List.flatMap_cons, List.flatMap_singleton, List.flatMap_append, ← ihInner,
      ← ihElse, ← ihRest, hg.cons, hg.ifElse, List.nil_append]
  | kept simple _ ih =>
    rw [positions_cons_simple simple.nests_eq_false, List.flatMap_cons, ← hsimple simple, ← ih,
      hg.cons]
    rfl
  | dropped simple _ ih =>
    rw [positions_cons_simple simple.nests_eq_false, List.flatMap_cons, ← hsimple simple, ← ih,
      Option.toList_none, hg.nil, List.nil_append]

end

namespace Parser.Around

variable {hole depth : Nat} {start behind c next : Cursor} {form : Form}
  {fill : List (Node Token) → List (Node Token)}

/-- What is found in the whole is what is found around the place, with what is found in the
statement at the place in between. -/
theorem exists_foundIn {α : Type} {g : Node Token → List α} (hg : Shallow g)
    (h : Around hole start behind form depth c fill next) :
    ∃ before after, ∀ ns, foundIn g (fill ns) = before ++ foundIn g ns ++ after := by
  induction h with
  | here => exact ⟨[], [], fun ns => by simp⟩
  | @first _ _ _ _ _ ms _ _ _ ih =>
    obtain ⟨before, after, ih⟩ := ih
    refine ⟨before, after ++ foundIn g ms, fun ns => ?_⟩
    rw [foundIn_append, ih, List.append_assoc]
  | @later _ _ _ _ _ ms _ _ _ ih =>
    obtain ⟨before, after, ih⟩ := ih
    refine ⟨foundIn g ms ++ before, after, fun ns => ?_⟩
    rw [foundIn_append, ih]
    simp
  | block _ _ _ ih =>
    obtain ⟨before, after, ih⟩ := ih
    refine ⟨before, after, fun ns => ?_⟩
    rw [hg.foundIn_block rfl]
    exact ih ns
  | nested _ _ _ ih => exact ih
  | chosen _ _ _ ih => exact ih
  | @ifThen _ keyword _ test _ fill next _ h _ ih =>
    obtain ⟨before, after, ih⟩ := ih
    refine ⟨g ⟨.conditional, "", [], [test], keyword.merge next.before⟩ ++ before, after,
      fun ns => ?_⟩
    obtain ⟨b, hb, hk⟩ := h.exists_branch ns
    rw [hg.foundIn_conditional _ (by rw [hb]; simpa using hk), ih]
    simp
  | @inThen _ keyword _ test _ fill _ second next _ h _ elseBranch ih =>
    obtain ⟨before, after, ih⟩ := ih
    refine ⟨g ⟨.conditional, "", [], [test], keyword.merge next.before⟩ ++ before,
      after ++ foundIn g [second], fun ns => ?_⟩
    obtain ⟨b, hb, hk⟩ := h.exists_branch ns
    have hsecond := elseBranch.blocksOnly second List.mem_cons_self
    rw [hg.foundIn_conditional _ (by rw [hb]; simpa using ⟨hk, hsecond⟩), foundIn_append, ih]
    simp
  | @inElse _ keyword _ test _ first _ fill next _ branch _ h ih =>
    obtain ⟨before, after, ih⟩ := ih
    refine ⟨g ⟨.conditional, "", [], [test], keyword.merge next.before⟩ ++ foundIn g [first] ++
      before, after, fun ns => ?_⟩
    obtain ⟨b, hb, hk⟩ := h.exists_branch ns
    have hfirst := branch.blocksOnly first List.mem_cons_self
    rw [hg.foundIn_conditional _ (by rw [hb]; simpa using ⟨hfirst, hk⟩), foundIn_append, ih]
    simp
  | braced _ _ ih => exact ih
  | unbraced _ _ ih =>
    obtain ⟨before, after, ih⟩ := ih
    refine ⟨before, after, fun ns => ?_⟩
    rw [hg.foundIn_block rfl]
    exact ih ns

end Parser.Around

/-- A source that is a block, read without fault around one place: the block, given the nodes of the
place. -/
def Surrounds (source : List Char) (hole : Nat) (start behind : Cursor)
    (fill : List (Node Token) → Node Token) : Prop :=
  (lex source).faults = [] ∧ ∃ first ts next, (lex source).tokens = first :: ts ∧
    first.is .lbrace = true ∧
    Parser.Around hole start behind (.block first.span) 0 (lex source).cursor.advance
      (fun ns => [fill ns]) next ∧ next.rest = []

namespace Surrounds

variable {source : List Char} {hole : Nat} {start behind : Cursor}
  {fill : List (Node Token) → Node Token}

/-- A source around a place is parsed to the block with the nodes of the place. -/
theorem parseBlock (h : Surrounds source hole start behind fill) {ns : List (Node Token)}
    (hs : Parser.Reads .statement hole start ns behind) : parseBlock source = .ok (fill ns) := by
  obtain ⟨hfaults, first, ts, next, htokens, hbrace, around, hend⟩ := h
  exact parseBlock_eq_ok_iff.mpr
    ⟨hfaults, first, ts, next, htokens, hbrace, around.reads hs, hend⟩

/-- The block around a place is accepted. -/
theorem accepted (h : Surrounds source hole start behind fill) {ns : List (Node Token)}
    (hs : Parser.Reads .statement hole start ns behind) : (fill ns).Accepted := by
  obtain ⟨-, first, ts, next, -, -, around, -⟩ := h
  exact ⟨_, _, _, around.reads hs⟩

/-- What surrounds a place is a block. -/
theorem kind_eq (h : Surrounds source hole start behind fill) (ns : List (Node Token)) :
    (fill ns).kind = .block := by
  obtain ⟨-, first, ts, next, -, -, around, -⟩ := h
  obtain ⟨b, hb, hk⟩ := around.exists_block ns
  rwa [(List.cons.inj hb).1]

/-- What is found around a place does not depend on what the place holds. -/
theorem exists_foundIn {α : Type} {g : Node Token → List α} (hg : Shallow g)
    (h : Surrounds source hole start behind fill) :
    ∃ before after, ∀ ns, foundIn g (fill ns).children = before ++ foundIn g ns ++ after := by
  obtain ⟨before, after, hfound⟩ : ∃ before after, ∀ ns,
      foundIn g [fill ns] = before ++ foundIn g ns ++ after := by
    obtain ⟨-, first, ts, next, -, -, around, -⟩ := h
    exact around.exists_foundIn hg
  refine ⟨before, after, fun ns => ?_⟩
  rw [← hg.foundIn_block (h.kind_eq ns), hfound]

end Surrounds

end VertexLanes
