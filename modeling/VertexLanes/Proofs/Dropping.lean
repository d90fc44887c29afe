import VertexLanes.Proofs.StatementPosition

/-!
# What an annotation leaves out

A statement in statement position is either kept or left out with a notice. Which
of the two is decided by the statement alone, so the source tree can be pruned
without looking at its annotation; the pruned tree and the annotated one then
have the same statements in the same places, and the notices of the annotation
are those of the statements, in the order of the source.
-/

namespace VertexLanes

/-- Whether an expression passes a value through without an operator. -/
def LaneExpr.isPass : LaneExpr → Bool
  | .pass _ => true
  | _ => false

/-- Why a statement has no masked form, if it has none. -/
def Node.dropped? (n : Node String) : Option Dropped :=
  match n.kind with
  | .other => some .unsupported
  | .call =>
    if sendMarker.toList.isPrefixOf n.spelling.toList then none else some (.call n.spelling)
  | .operation =>
    match cutAssignment? n.tokens with
    | none => some .expression
    | some (lhs, sign, rhs) =>
      if lhs.isEmpty || rhs.isEmpty then some .incomplete
      else if (compoundOp? sign).isSome && !(Operands.classify rhs).expr.isPass then
        some .compoundValue
      else none
  | _ => none

/-- The tokens of a statement that are read as one application of an operator, with the node that
holds them: the test of a conditional, the value of a plain assignment. -/
def Node.operands? (n : Node String) : Option (Node String × List String) :=
  match n.kind with
  | .conditional => n.children.head?.map fun test => (test, test.tokens)
  | .operation =>
    match cutAssignment? n.tokens with
    | some (_, sign, rhs) => if (compoundOp? sign).isSome then none else some (n, rhs)
    | none => none
  | _ => none

/-- What the reader is told about a statement, the statements inside it apart. -/
def Node.notices (n : Node String) : List (Located BodyNotice) :=
  match n.dropped?, n.operands? with
  | some what, _ => dropNotice n what
  | none, some (part, tokens) => slotNotice part (Operands.classify tokens).slots
  | none, none => []

/-- No block and no conditional is left out. -/
theorem Node.dropped?_of_nests {n : Node String} (hk : n.kind.nests = true) :
    n.dropped? = none := by
  cases h : n.kind <;> simp_all [NodeKind.nests, Node.dropped?]

theorem Node.notices_of_block {n : Node String} (hk : n.kind = .block) : n.notices = [] := by
  simp [Node.notices, Node.dropped?, Node.operands?, hk]

/-- A conditional is given a notice for the slots of its test only. -/
theorem Node.notices_of_conditional {n test : Node String} {branches : List (Node String)}
    (hk : n.kind = .conditional) (hc : n.children = test :: branches) :
    n.notices = slotNotice test (Operands.classify test.tokens).slots := by
  simp [Node.notices, Node.dropped?, Node.operands?, hk, hc]

/-- Whether a notice says that a statement is left out. -/
def isDrop (note : Located BodyNotice) : Bool :=
  match note.item with
  | .dropped _ => true
  | .operandsDiscarded _ => false

/-- The notice that a statement is left out, if it is. -/
def Node.dropNotice? (n : Node String) : Option (Located BodyNotice) :=
  n.dropped?.map fun what => ⟨.dropped what, n.span⟩

/-- A notice for slots does not say that a statement is left out. -/
theorem filter_isDrop_slotNotice (n : Node String) (slots : Nat) :
    (slotNotice n slots).filter isDrop = [] := by
  unfold slotNotice
  split <;> rfl

/-- Among the notices of a statement, the one that it is left out stands exactly if it is. -/
theorem Node.filter_isDrop_notices (n : Node String) :
    n.notices.filter isDrop = n.dropNotice?.toList := by
  unfold Node.notices Node.dropNotice?
  cases n.dropped? with
  | some what => rfl
  | none =>
    cases n.operands? with
    | none => rfl
    | some read => exact filter_isDrop_slotNotice read.1 _

/-- What an operation is told about, and whether it is kept, is decided by its own tokens. -/
theorem annotateOperation_accounts {label : Label} {n : Node String} {kept : Option Stmt}
    {notes : List (Located BodyNotice)} (hk : n.kind = .operation)
    (h : annotateOperation label n = (kept, notes)) :
    notes = n.notices ∧ (kept.isNone = n.dropped?.isSome) := by
  unfold annotateOperation at h
  unfold Node.notices Node.dropped? Node.operands?
  simp only [hk]
  cases hc : cutAssignment? n.tokens with
  | none =>
    rw [hc] at h
    cases h
    exact ⟨rfl, rfl⟩
  | some cut =>
    obtain ⟨lhs, sign, rhs⟩ := cut
    simp only [hc] at h ⊢
    by_cases he : (lhs.isEmpty || rhs.isEmpty) = true
    · rw [if_pos he] at h ⊢
      cases h
      exact ⟨rfl, rfl⟩
    · rw [if_neg he] at h ⊢
      cases hop : compoundOp? sign with
      | none =>
        rw [hop] at h
        cases h
        exact ⟨rfl, rfl⟩
      | some op =>
        rw [hop] at h
        cases hv : (Operands.classify rhs).expr <;> rw [hv] at h <;> cases h <;> exact ⟨rfl, rfl⟩

/-- What a call is told about, and whether it is kept, is decided by its name. -/
theorem annotateCall_accounts {label : Label} {n : Node String} {kept : Option Stmt}
    {notes : List (Located BodyNotice)} (hk : n.kind = .call)
    (h : annotateCall label n = .ok (kept, notes)) :
    notes = n.notices ∧ (kept.isNone = n.dropped?.isSome) := by
  unfold annotateCall at h
  unfold Node.notices Node.dropped? Node.operands?
  simp only [hk]
  by_cases hp : sendMarker.toList.isPrefixOf n.spelling.toList = true
  · rw [if_pos hp] at h ⊢
    cases hs : sendParts? n with
    | none => rw [hs] at h; cases h
    | some parts =>
      rw [hs] at h
      cases h
      exact ⟨rfl, rfl⟩
  · rw [if_neg hp] at h ⊢
    cases h
    exact ⟨rfl, rfl⟩

/-- A statement without statements inside is kept exactly if it has no reason to be dropped, and
its notices are its own. -/
theorem Simple.accounts {label : Label} {n : Node String} {kept : Option Stmt}
    {notes : List (Located BodyNotice)} (h : Simple label n kept notes) :
    notes = n.notices ∧ (kept.isNone = n.dropped?.isSome) := by
  cases h with
  | operation hk h => exact annotateOperation_accounts hk h
  | declaration hk => simp [Node.notices, Node.dropped?, Node.operands?, hk]
  | call hk h => exact annotateCall_accounts hk h
  | «return» hk => simp [Node.notices, Node.dropped?, Node.operands?, hk]
  | other hk => simp [Node.notices, Node.dropped?, hk]

/-- A simple statement does not nest. -/
theorem Simple.nests_eq_false {label : Label} {n : Node String} {kept : Option Stmt}
    {notes : List (Located BodyNotice)} (h : Simple label n kept notes) :
    n.kind.nests = false := by
  cases h <;> simp_all [NodeKind.nests]

/-- The notices of a walk are those of the statements in statement position, in their order. -/
theorem Walk.notices_eq {label : Label} {next : Nat} {ns : List (Node String)}
    {r : Noted (List Stmt)} (h : Walk label next ns r) :
    r.notices = (positions ns).flatMap Node.notices := by
  induction h with
  | nil => rfl
  | block hk _ _ ihInner ihRest =>
    rw [positions_cons_block hk, List.flatMap_cons, List.flatMap_append, Node.notices_of_block hk,
      ihInner, ihRest, List.nil_append]
  | ifThen hk hc hf _ _ ihInner ihRest =>
    rw [positions_cons_conditional hk hc hf, List.flatMap_cons, List.flatMap_append,
      Node.notices_of_conditional hk hc, ihInner, ihRest]
    simp
  | ifElse hk hc hf _ _ _ ihInner ihElse ihRest =>
    rw [positions_cons_conditional hk hc hf, List.flatMap_cons, List.flatMap_append,
      Node.notices_of_conditional hk hc, ihInner, ihElse, ihRest]
    simp
  | kept simple _ ih =>
    rw [positions_cons_simple simple.nests_eq_false, List.flatMap_cons, ← simple.accounts.1, ih]
  | dropped simple _ ih =>
    rw [positions_cons_simple simple.nests_eq_false, List.flatMap_cons, ← simple.accounts.1, ih]

/-- The notices that statements are left out, one for each dropped statement, in their order. -/
theorem Walk.filter_isDrop {label : Label} {next : Nat} {ns : List (Node String)}
    {r : Noted (List Stmt)} (h : Walk label next ns r) :
    r.notices.filter isDrop = (positions ns).filterMap Node.dropNotice? := by
  rw [h.notices_eq, List.filter_flatMap, List.filterMap_eq_flatMap_toList]
  exact List.flatMap_congr fun n _ => n.filter_isDrop_notices

mutual
/-- A statement without the dropped statements inside it. -/
def Node.pruned : Node String → Node String
  | ⟨.block, spelling, tokens, children, span⟩ => ⟨.block, spelling, tokens, keptOf children, span⟩
  | ⟨.conditional, spelling, tokens, test :: branches, span⟩ =>
    ⟨.conditional, spelling, tokens, test :: prunedBranches branches, span⟩
  | n => n
/-- The branches of a conditional without the dropped statements inside them. -/
def prunedBranches : List (Node String) → List (Node String)
  | [] => []
  | b :: bs => b.pruned :: prunedBranches bs
/-- The statements of a sequence that are not dropped, each without the dropped ones inside it. -/
def keptOf : List (Node String) → List (Node String)
  | [] => []
  | n :: ns => if n.dropped?.isSome then keptOf ns else n.pruned :: keptOf ns
end

mutual
/-- An annotated statement stands for a source statement: it is of the kind that belongs to the
statement's, it is read from the same place where it records one, and the statements inside stand
for each other in order. -/
def Stmt.StandsFor : Stmt → Node String → Prop
  | .block ⟨_, stmts⟩, n => n.kind = .block ∧ AllStandFor stmts n.children
  | .ifThen _ _ ⟨_, stmts⟩ span, n =>
    n.kind = .conditional ∧ span = n.span ∧ ∃ test first, n.children = [test, first] ∧
      first.kind = .block ∧ AllStandFor stmts first.children
  | .ifElse _ _ ⟨_, stmts⟩ _ ⟨_, others⟩ span, n =>
    n.kind = .conditional ∧ span = n.span ∧ ∃ test first second,
      n.children = [test, first, second] ∧
      first.kind = .block ∧ AllStandFor stmts first.children ∧
      second.kind = .block ∧ AllStandFor others second.children
  | .assign _ _ _ span, n => n.kind = .operation ∧ span = n.span
  | .declare _ tokens, n => n.kind = .declaration ∧ tokens = n.tokens
  | .send _ _ _ span, n => n.kind = .call ∧ span = n.span
  | .return _ _, n => n.kind = .return
/-- Annotated statements stand for as many source statements, in order. -/
def AllStandFor : List Stmt → List (Node String) → Prop
  | [], ns => ns = []
  | s :: ss, ns => ∃ n rest, ns = n :: rest ∧ s.StandsFor n ∧ AllStandFor ss rest
end

section
variable {n : Node String}

@[simp] theorem Node.pruned_kind : n.pruned.kind = n.kind := by
  unfold Node.pruned
  split <;> rfl

@[simp] theorem Node.pruned_span : n.pruned.span = n.span := by
  unfold Node.pruned
  split <;> rfl

/-- A pruned block holds the statements of it that are kept. -/
theorem Node.pruned_children_of_block (hk : n.kind = .block) :
    n.pruned.children = keptOf n.children := by
  obtain ⟨kind, spelling, tokens, children, span⟩ := n
  cases hk
  rfl

/-- A pruned conditional has its test and its pruned branches. -/
theorem Node.pruned_children_of_conditional {test : Node String} {branches : List (Node String)}
    (hk : n.kind = .conditional) (hc : n.children = test :: branches) :
    n.pruned.children = test :: prunedBranches branches := by
  obtain ⟨kind, spelling, tokens, children, span⟩ := n
  cases hk
  cases hc
  rfl

theorem Node.pruned_of_simple (hk : n.kind.nests = false) : n.pruned = n := by
  obtain ⟨kind, spelling, tokens, children, span⟩ := n
  cases kind with
  | block => cases hk
  | conditional => cases hk
  | _ => rfl

/-- A statement that holds statements is kept. -/
theorem keptOf_cons_of_nests (hk : n.kind.nests = true) (ns : List (Node String)) :
    keptOf (n :: ns) = n.pruned :: keptOf ns := by
  rw [keptOf, Node.dropped?_of_nests hk]
  rfl

end

/-- What is kept of a simple statement stands for it. -/
theorem Simple.standsFor {label : Label} {n : Node String} {s : Stmt}
    {notes : List (Located BodyNotice)} (h : Simple label n (some s) notes) : s.StandsFor n := by
  cases h with
  | operation hk h =>
    obtain ⟨target, value, rfl, -⟩ := annotateOperation_kept h
    exact ⟨hk, rfl⟩
  | declaration hk => exact ⟨hk, rfl⟩
  | call hk h =>
    obtain ⟨vertex, message, rfl⟩ := annotateCall_kept h
    exact ⟨hk, rfl⟩
  | «return» hk => exact hk

/-- The statements of a walk stand for those that are left of the source when the dropped ones are
taken out. -/
theorem Walk.allStandFor {label : Label} {next : Nat} {ns : List (Node String)}
    {r : Noted (List Stmt)} (h : Walk label next ns r) : AllStandFor r.value (keptOf ns) := by
  induction h with
  | nil => rfl
  | @block _ _ n _ _ _ hk _ _ ihInner ihRest =>
    rw [keptOf_cons_of_nests (congrArg NodeKind.nests hk)]
    refine ⟨n.pruned, _, rfl, ⟨by simp [hk], ?_⟩, ihRest⟩
    rw [Node.pruned_children_of_block hk]
    exact ihInner
  | @ifThen _ _ n _ test first _ _ hk hc hf _ _ ihInner ihRest =>
    have hfirst : first.kind = .block := branch_kind_of_conditionalFault? (hc ▸ hf) (by simp)
    have hchildren := Node.pruned_children_of_conditional hk hc
    rw [keptOf_cons_of_nests (congrArg NodeKind.nests hk)]
    refine ⟨n.pruned, _, rfl, ⟨by simp [hk], by simp, test, first.pruned, hchildren,
      ?_, ?_⟩, ihRest⟩
    · rw [Node.pruned_kind, hfirst]
    · rw [Node.pruned_children_of_block hfirst]
      exact ihInner
  | @ifElse _ _ n _ test first second _ _ _ hk hc hf _ _ _ ihInner ihElse ihRest =>
    have hfirst : first.kind = .block := branch_kind_of_conditionalFault? (hc ▸ hf) (by simp)
    have hsecond : second.kind = .block := branch_kind_of_conditionalFault? (hc ▸ hf) (by simp)
    have hchildren := Node.pruned_children_of_conditional hk hc
    rw [keptOf_cons_of_nests (congrArg NodeKind.nests hk)]
    refine ⟨n.pruned, _, rfl, ⟨by simp [hk], by simp, test, first.pruned, second.pruned, hchildren,
      ?_, ?_, ?_, ?_⟩, ihRest⟩
    · rw [Node.pruned_kind, hfirst]
    · rw [Node.pruned_children_of_block hfirst]
      exact ihInner
    · rw [Node.pruned_kind, hsecond]
    · rw [Node.pruned_children_of_block hsecond]
      exact ihElse
  | @kept _ _ n _ _ _ _ simple _ ih =>
    have hkept : n.dropped?.isSome = false := simple.accounts.2.symm
    rw [keptOf, hkept, Node.pruned_of_simple simple.nests_eq_false]
    exact ⟨n, _, rfl, simple.standsFor, ih⟩
  | @dropped _ _ n _ _ _ simple _ ih =>
    have hdropped : n.dropped?.isSome = true := simple.accounts.2.symm
    rw [keptOf, hdropped]
    exact ih

/-- Whether an entry of a listing is a statement; a test and its expression are none. -/
def Entry.isStatement (e : Entry) : Bool :=
  match e.kind with
  | .condition | .expression => false
  | _ => true

/-- The number of statements of an annotated sequence, at whatever depth. -/
def statementCount (stmts : List Stmt) : Nat := (entriesOf stmts).countP Entry.isStatement

section
variable (label : Label) (test otherwise : Condition) (body elseBody : Scope Stmt) (span : Span)
  (ss : List Stmt)

/-- A block counts as one statement and those inside. -/
theorem statementCount_block :
    statementCount (.block body :: ss) = statementCount body.stmts + statementCount ss + 1 := by
  simp [statementCount, entriesOf, Stmt.entries, List.countP_cons, Entry.isStatement, Entry.kind]

/-- A conditional counts as one statement and those of its branch. -/
theorem statementCount_ifThen :
    statementCount (.ifThen label test body span :: ss) =
      statementCount body.stmts + statementCount ss + 1 := by
  simp [statementCount, entriesOf, Stmt.entries, Condition.entries, List.countP_cons,
    Entry.isStatement, Entry.kind]

/-- A conditional with two branches counts as one statement and those of both. -/
theorem statementCount_ifElse :
    statementCount (.ifElse label test body otherwise elseBody span :: ss) =
      statementCount body.stmts + statementCount elseBody.stmts + statementCount ss + 1 := by
  simp [statementCount, entriesOf, Stmt.entries, Condition.entries, List.countP_cons,
    Entry.isStatement, Entry.kind]
  omega

end

/-- What is kept of a simple statement counts as one. -/
theorem Simple.statementCount_cons {label : Label} {n : Node String} {s : Stmt}
    {notes : List (Located BodyNotice)} (h : Simple label n (some s) notes) (ss : List Stmt) :
    statementCount (s :: ss) = statementCount ss + 1 := by
  obtain ⟨-, target, value, rfl, -⟩ | ⟨-, tokens, rfl⟩ | ⟨-, vertex, message, rfl⟩ |
    ⟨-, expr, rfl⟩ := h.kept_cases
  all_goals
    simp [statementCount, entriesOf, Stmt.entries, List.countP_cons, Entry.isStatement, Entry.kind]

/-- A walk keeps as many statements as are not dropped. -/
theorem Walk.statementCount_eq {label : Label} {next : Nat} {ns : List (Node String)}
    {r : Noted (List Stmt)} (h : Walk label next ns r) :
    statementCount r.value = (positions ns).countP fun n => n.dropped?.isNone := by
  induction h with
  | nil => rfl
  | block hk _ _ ihInner ihRest =>
    have hkept := Node.dropped?_of_nests (congrArg NodeKind.nests hk)
    rw [statementCount_block, positions_cons_block hk, List.countP_cons, List.countP_append,
      ihInner, ihRest, hkept]
    rfl
  | ifThen hk hc hf _ _ ihInner ihRest =>
    have hkept := Node.dropped?_of_nests (congrArg NodeKind.nests hk)
    rw [statementCount_ifThen, positions_cons_conditional hk hc hf, List.countP_cons,
      List.countP_append, ihInner, ihRest, hkept]
    simp
  | ifElse hk hc hf _ _ _ ihInner ihElse ihRest =>
    have hkept := Node.dropped?_of_nests (congrArg NodeKind.nests hk)
    rw [statementCount_ifElse, positions_cons_conditional hk hc hf, List.countP_cons,
      List.countP_append, ihInner, ihElse, ihRest, hkept]
    simp
  | @kept _ _ n _ _ _ _ simple _ ih =>
    have hkept : n.dropped? = none := by simpa using simple.accounts.2.symm
    rw [simple.statementCount_cons, positions_cons_simple simple.nests_eq_false, List.countP_cons,
      ih, hkept]
    rfl
  | @dropped _ _ n _ _ _ simple _ ih =>
    have hdropped : n.dropped?.isSome = true := simple.accounts.2.symm
    rw [positions_cons_simple simple.nests_eq_false, List.countP_cons, ih,
      Option.isNone_eq_false_iff.mpr hdropped]
    rfl

/-- As many statements are dropped as there are notices of dropped statements. -/
theorem Walk.length_positions {label : Label} {next : Nat} {ns : List (Node String)}
    {r : Noted (List Stmt)} (h : Walk label next ns r) :
    (positions ns).length = statementCount r.value + (r.notices.filter isDrop).length := by
  have hdrops : (r.notices.filter isDrop).length =
      (positions ns).countP fun n => n.dropped?.isSome := by
    rw [h.filter_isDrop, List.length_filterMap_eq_countP]
    exact List.countP_congr fun n _ => by simp [Node.dropNotice?]
  rw [h.statementCount_eq, hdrops, List.length_eq_countP_add_countP fun n => n.dropped?.isNone]
  congr 1
  exact List.countP_congr fun n _ => by cases n.dropped? <;> simp

/-- A notice that is not about a dropped statement is about operands of a statement that is kept. -/
theorem Node.mem_notices {n : Node String} {note : Located BodyNotice} (h : note ∈ n.notices)
    (hnote : isDrop note = false) :
    n.dropped? = none ∧ ∃ part tokens, n.operands? = some (part, tokens) ∧
      2 < (Operands.classify tokens).slots ∧
      note = ⟨.operandsDiscarded (Operands.classify tokens).slots, part.span⟩ := by
  unfold Node.notices at h
  split at h
  · next what _ =>
    rw [dropNotice, List.mem_singleton] at h
    subst h
    cases hnote
  · next part tokens hkept hread =>
    unfold slotNotice at h
    split at h
    · next hslots => exact ⟨hkept, part, tokens, hread, hslots, List.mem_singleton.mp h⟩
    · cases h
  · cases h

/-- Nothing is left out of a body silently. The annotated statements stand for what is left of the
source when the dropped statements are taken out; the notices of dropped statements are those of
the dropped statements, in order, each at the statement's place; together they are as many as the
statements in statement position; and every other notice is about a test or an assignment that is
kept and has lost operands. -/
theorem annotate_accounts {body : Node String} {a : Annotated} (h : annotate body = .ok a) :
    AllStandFor a.root.stmts body.pruned.children ∧
      a.notices.filter isDrop = (positions body.children).filterMap Node.dropNotice? ∧
      (positions body.children).length =
        statementCount a.root.stmts + (a.notices.filter isDrop).length ∧
      ∀ note ∈ a.notices, isDrop note = false →
        ∃ n ∈ positions body.children, n.dropped? = none ∧
          ∃ part tokens, n.operands? = some (part, tokens) ∧
            2 < (Operands.classify tokens).slots ∧
            note = ⟨.operandsDiscarded (Operands.classify tokens).slots, part.span⟩ := by
  obtain ⟨hk, r, hw, rfl⟩ := walk_of_annotate h
  refine ⟨?_, hw.filter_isDrop, hw.length_positions, ?_⟩
  · rw [Node.pruned_children_of_block hk]
    exact hw.allStandFor
  · intro note hmem hnote
    have hnotices : note ∈ r.notices := hmem
    rw [hw.notices_eq, List.mem_flatMap] at hnotices
    obtain ⟨n, hn, hin⟩ := hnotices
    exact ⟨n, hn, Node.mem_notices hin hnote⟩

/-- A conditional on a sum of three operands. Its first branch holds a call that is no send and an
assignment, its else branch a block around a loop and a declaration. -/
def litteredBody : Node String :=
  let simple (kind : NodeKind) (name : String) (tokens : List String) (start : Nat) : Node String :=
    ⟨kind, name, tokens, [], ⟨start, start + 1⟩⟩
  let block (stmts : List (Node String)) : Node String := ⟨.block, "", [], stmts, ⟨0, 9⟩⟩
  block
    [⟨.conditional, "", [],
      [simple .operation "" ["a", "+", "b", "+", "c"] 1,
        block [simple .call "log" ["log", "(", ")"] 2, simple .operation "" ["x", "=", "y"] 3],
        block
          [block [simple .other "while" ["while"] 4, simple .declaration "" ["int", "z", ";"] 5]]],
      ⟨0, 9⟩⟩]

/-- Of the six statements of the littered body four are kept; the call and the loop are reported in
their order, and so are the operands that the test loses. -/
theorem annotate_accounts_littered :
    ∃ a, annotate litteredBody = .ok a ∧
      a.notices.map Located.span = [⟨1, 2⟩, ⟨2, 3⟩, ⟨4, 5⟩] ∧
      AllStandFor a.root.stmts litteredBody.pruned.children ∧
      a.notices.filter isDrop = (positions litteredBody.children).filterMap Node.dropNotice? ∧
      (positions litteredBody.children).length =
        statementCount a.root.stmts + (a.notices.filter isDrop).length ∧
      ∀ note ∈ a.notices, isDrop note = false →
        ∃ n ∈ positions litteredBody.children, n.dropped? = none ∧
          ∃ part tokens, n.operands? = some (part, tokens) ∧
            2 < (Operands.classify tokens).slots ∧
            note = ⟨.operandsDiscarded (Operands.classify tokens).slots, part.span⟩ := by
  have hspans : (annotate litteredBody).toOption.map (fun a => a.notices.map Located.span) =
      some [⟨1, 2⟩, ⟨2, 3⟩, ⟨4, 5⟩] := by decide +kernel
  obtain ⟨a, ha, hs⟩ := exists_eq_ok hspans
  exact ⟨a, ha, hs, annotate_accounts ha⟩

end VertexLanes
