import VertexLanes.Class.Parser

/-!
# The parsers step by step

The parsers of blocks and classes are taken apart into tasks: the routines, and
single rounds of their loops. Doing a task is stepping over one token or putting
other tasks in its place, chosen by the tokens ahead. Stepping over a token needs
one, and a closing bracket is taken off a count of open ones, so a task may be
impossible. Each task has a place to which it leads, given by the routine it
stands for, and the tasks put in its place lead there as well.
-/

namespace VertexLanes

namespace Cursor

/-- The place behind the bracket that closes a group with `depth` further groups open inside it. -/
def afterGroup (depth : Nat) (c : Cursor) : Cursor :=
  let g := spanGroup depth c.rest
  { c with rest := g.rest, last := (g.tokens.getLast?.map Located.span).or c.last }

end Cursor

namespace Parser

/-- The loops that step over one token in every round. -/
inductive Run where
  /-- All that stands behind a brace that opens a block too deep inside others. -/
  | toEnd
  /-- The bases of a class. -/
  | bases
  /-- The name of an operator. -/
  | operatorName
  /-- The qualifiers of a method. -/
  | qualifiers

/-- The lexemes that such a loop steps over. -/
def Run.goesOn : Run → Lexeme → Bool
  | .toEnd => fun _ => true
  | .bases => (· != .symbol .lbrace)
  | .operatorName => (· != .symbol .lparen)
  | .qualifiers => inQualifiers

/-- The loops of the parsers. -/
inductive Loop where
  | run (kind : Run)
  | group
  | untilSemicolon
  | skipItem
  | skipInitializers
  | statements
  | memberHead
  | members
  | classes

/-- What there is to do for the parsers. -/
inductive Task where
  /-- Step over the next token. -/
  | advance
  /-- Step over a symbol if it is next. -/
  | skip (mark : Symbol)
  /-- A round of a loop over single tokens. -/
  | run (kind : Run)
  /-- A round of the loop that reads a group, with the number of brackets open so far. -/
  | group (opened : Nat)
  /-- A round of the loop that reads up to a semicolon. -/
  | untilSemicolon
  /-- A round of the loop that skips an item. -/
  | skipItem
  /-- A round of the loop that skips initialisers. -/
  | skipInitializers (afterName : Bool)
  /-- A group if a parenthesis is next. -/
  | groupIfNext
  /-- A round of the loop that reads statements. -/
  | statements (depth : Nat)
  /-- A block after its brace. -/
  | block (depth : Nat)
  /-- A statement. -/
  | statement (depth : Nat)
  /-- A branch of a conditional. -/
  | branch (depth : Nat)
  /-- The second branch of a conditional, if there is one. -/
  | elseBranch (depth : Nat)
  /-- The end of a `do` loop. -/
  | loopEnd
  /-- A source that is one block. -/
  | body
  /-- The parentheses in the name of the call operator. -/
  | callMark
  /-- A round of the loop that reads the head of a member. -/
  | memberHead
  /-- A member of a class. -/
  | member
  /-- A member after its head. -/
  | memberRest
  /-- The default value of a data member. -/
  | fieldValue
  /-- A method after its qualifiers. -/
  | methodEnd
  /-- The initialisers of a constructor, if there are any. -/
  | initializers
  /-- The body of a method, or its semicolon. -/
  | methodBody
  /-- The bases of a class, if there are any. -/
  | bases
  /-- A class after its keyword. -/
  | classDef
  /-- A class after its name. -/
  | classRest
  /-- A class after its bases. -/
  | classBody
  /-- A round of the loop that reads the members of a class. -/
  | members
  /-- A round of the loop that reads the classes of a file. -/
  | classes

namespace Task

/-- The loop of which a task is a round. -/
def loop? : Task → Option Loop
  | .run kind => some (.run kind)
  | .group _ => some .group
  | .untilSemicolon => some .untilSemicolon
  | .skipItem => some .skipItem
  | .skipInitializers _ => some .skipInitializers
  | .statements _ => some .statements
  | .memberHead => some .memberHead
  | .members => some .members
  | .classes => some .classes
  | _ => none

/-- The number of open brackets after a token, unless one is closed that was never opened. -/
def openedAfter : Nat → Side → Option Nat
  | opened, .opening => some (opened + 1)
  | 0, .closing => none
  | opened + 1, .closing => some opened
  | opened, .plain => some opened

/-- The tasks that a statement which begins with a token comes to. -/
def statementPlan (depth : Nat) : Opening → List Task
  | .block => [.advance, .block depth]
  | .empty => [.advance]
  | .conditional => [.advance, .groupIfNext, .branch depth, .elseBranch depth]
  | .returning => [.advance, .untilSemicolon, .skip .semicolon]
  | .loop => [.advance, .groupIfNext, .statement depth]
  | .doLoop => [.advance, .statement depth, .loopEnd]
  | .orphanElse => [.advance]
  | .simple => [.untilSemicolon, .skip .semicolon]

/-- The tasks that an entry of a class comes to. -/
def entryPlan : MemberOpening → List Task
  | .access => [.advance, .skip .colon]
  | .idle => [.advance]
  | .nested _ => [.advance, .classDef]
  | .alias => [.advance, .untilSemicolon, .skip .semicolon]
  | .member => [.member]

/-- The tasks that an item of a file comes to. -/
def itemPlan : MemberOpening → List Task
  | .idle => [.advance]
  | .nested _ => [.advance, .classDef]
  | _ => [.skipItem]

/-- The tasks that a task comes to at a place, unless it is impossible there. -/
def plan (c : Cursor) : Task → Option (List Task)
  | .advance => if c.rest.isEmpty then none else some []
  | .skip mark => some (if c.at? mark then [.advance] else [])
  | .run kind =>
    match c.rest with
    | [] => some []
    | t :: _ => some (if kind.goesOn t.item then [.advance, .run kind] else [])
  | .group opened =>
    match c.rest with
    | [] => some []
    | t :: _ =>
      (openedAfter opened t.side).map fun left =>
        if left = 0 then [.advance] else [.advance, .group left]
  | .untilSemicolon =>
    match c.rest with
    | [] => some []
    | t :: _ =>
      if t.is .semicolon || t.is .rbrace then some []
      else if t.side = .opening then some [.group 0, .untilSemicolon]
      else some [.advance, .untilSemicolon]
  | .skipItem =>
    match c.rest with
    | [] => some []
    | t :: _ =>
      if t.is .semicolon then some [.advance]
      else if t.is .lbrace then some [.group 0, .skip .semicolon]
      else
        match t.side with
        | .opening => some [.group 0, .skipItem]
        | .closing => some [.advance]
        | .plain => some [.advance, .skipItem]
  | .skipInitializers afterName =>
    match c.rest with
    | [] => some []
    | t :: _ =>
      if t.is .lparen || (t.is .lbrace && afterName) then some [.group 0, .skipInitializers false]
      else if t.is .lbrace then some []
      else some [.advance, .skipInitializers t.item.isName]
  | .groupIfNext => some (if c.at? .lparen then [.group 0] else [])
  | .statements depth =>
    some (if c.atBlockEnd then [] else [.statement depth, .statements depth])
  | .block depth =>
    some (if depth < maxDepth then [.statements (depth + 1), .skip .rbrace] else [.run .toEnd])
  | .statement depth =>
    match c.rest with
    | [] => some (statementPlan depth .simple)
    | t :: _ => some (statementPlan depth (.ofLexeme t.item))
  | .branch depth =>
    some (if c.at? .lbrace then [.advance, .block depth] else [.statement depth])
  | .elseBranch depth =>
    some (if c.atKeyword? .elseKw then [.advance, .branch depth] else [])
  | .loopEnd =>
    some (if c.atKeyword? .whileKw then [.advance, .groupIfNext, .skip .semicolon]
      else [.skip .semicolon])
  | .body => some (if c.at? .lbrace then [.advance, .block 0] else [])
  | .callMark =>
    match c.rest with
    | t :: u :: _ => some (if t.is .lparen && u.is .rparen then [.advance, .advance] else [])
    | _ => some []
  | .memberHead =>
    match c.rest with
    | [] => some []
    | t :: _ =>
      if t.item == .keyword .operatorKw then
        some [.advance, .callMark, .run .operatorName, .memberHead]
      else if endsHead t.item then some []
      else some [.advance, .memberHead]
  | .member =>
    -- whether the head is empty is known as soon as it is read
    some [.memberHead, if (Parser.memberHead c).1.isEmpty then .skipItem else .memberRest]
  | .memberRest =>
    some (if c.at? .lparen then [.group 0, .run .qualifiers, .methodEnd]
      else [.fieldValue, .skip .semicolon])
  | .fieldValue =>
    if c.at? .eq then some [.advance, .untilSemicolon]
    else if c.at? .lbrace then some [.group 0, .untilSemicolon]
    else some [.untilSemicolon]
  | .methodEnd =>
    some (if c.at? .eq then [.advance, .untilSemicolon, .skip .semicolon]
      else [.initializers, .methodBody])
  | .initializers => some (if c.at? .colon then [.advance, .skipInitializers false] else [])
  | .methodBody => some (if c.at? .lbrace then [.advance, .block 0] else [.skip .semicolon])
  | .bases => some (if c.at? .colon then [.advance, .run .bases] else [])
  | .classDef =>
    match c.rest with
    | ⟨.ident _, _⟩ :: _ => some [.advance, .classRest]
    | _ => some [.skipItem]
  | .classRest => some (if c.at? .semicolon then [.advance] else [.bases, .classBody])
  | .classBody =>
    some (if c.at? .lbrace then
        [.advance, .members, .skip .rbrace, .untilSemicolon, .skip .semicolon]
      else [.skipItem])
  | .members =>
    match c.rest with
    | [] => some []
    | t :: _ =>
      if t.is .rbrace then some [] else some (entryPlan (.ofLexeme t.item) ++ [.members])
  | .classes =>
    match c.rest with
    | [] => some []
    | t :: _ => some (itemPlan (.ofLexeme t.item) ++ [.classes])

/-- The place from which the tasks that a task comes to are done: only stepping over a token leads
to another one. -/
def move (c : Cursor) : Task → Cursor
  | .advance => c.advance
  | _ => c

/-- The place behind a class whose bases have been read. -/
def afterBases (c : Cursor) : Cursor :=
  if c.at? .lbrace then
    (skipDeclaration ((Parser.members c.advance).val.next.expect .rbrace).next).next
  else c.skipItem.next

/-- The place to which a task leads. -/
def target (c : Cursor) : Task → Cursor
  | .advance => c.advance
  | .skip mark => c.skip mark
  | .run kind => c.afterRun kind.goesOn
  | .group 0 => c.group.next
  | .group (depth + 1) => c.afterGroup depth
  | .untilSemicolon => c.untilSemicolon.next
  | .skipItem => c.skipItem.next
  | .skipInitializers afterName => (c.skipInitializers afterName).next
  | .groupIfNext => (Parser.groupIfNext c).next
  | .statements depth => (Parser.statements depth c).val.next
  | .block depth => (Parser.block depth c.here c).val.next
  | .statement depth => (Parser.statement depth c).val.next
  | .branch depth => (Parser.branch depth c).val.next
  | .elseBranch depth =>
    if c.atKeyword? .elseKw then (Parser.branch depth c.advance).val.next else c
  | .loopEnd => (Parser.loopEnd c).next
  | .body => (parseTokens c).next
  | .callMark => (Parser.callMark c).2
  | .memberHead => (Parser.memberHead c).2
  | .member => (Parser.member c).next
  | .memberRest =>
    if c.at? .lparen then (method [] c.here c).next else (dataMember [] c.here c).next
  | .fieldValue => (Parser.fieldValue c).next
  | .methodEnd => (Parser.methodEnd c).next
  | .initializers => (Parser.initializers c).next
  | .methodBody =>
    if c.at? .lbrace then (Parser.block 0 c.here c.advance).val.next else c.skip .semicolon
  | .bases => (Parser.bases c).2
  | .classDef => (Parser.classDef .structKey c.here c).val.next
  | .classRest => if c.at? .semicolon then c.advance else afterBases (Parser.bases c).2
  | .classBody => afterBases c
  | .members => (Parser.members c).val.next
  | .classes => (Parser.classes c).next

/-- The place to which tasks lead that are done one after the other. -/
def targets : Cursor → List Task → Cursor
  | c, [] => c
  | c, t :: ts => targets (t.target c) ts

/-- Tasks end where the last of them do, begun where the first end. -/
theorem targets_append (c : Cursor) (ts us : List Task) :
    targets c (ts ++ us) = targets (targets c ts) us := by
  induction ts generalizing c with
  | nil => rfl
  | cons t ts ih => exact ih (t.target c)

/-- Whether a task may begin at a place: stepping over a token needs one, and a group begins with
an opening bracket. -/
def Ready (c : Cursor) : Task → Prop
  | .advance => c.rest ≠ []
  | .group 0 => ∀ t ∈ c.rest.head?, t.side = .opening
  | _ => True

/-- Whether each of some tasks may begin where those before it lead. -/
def AllReady : Cursor → List Task → Prop
  | _, [] => True
  | c, t :: ts => t.Ready c ∧ AllReady (t.target c) ts

/-- An order of tasks: what a task comes to before the first token is read stands below it. -/
def rank : Task → Nat
  | .advance => 0
  | .skip _ | .run _ | .group _ | .callMark | .body => 1
  | .untilSemicolon | .skipItem | .skipInitializers _ | .groupIfNext | .memberHead | .bases => 2
  | .statement _ | .elseBranch _ | .loopEnd | .fieldValue | .initializers | .classBody => 3
  | .statements _ | .branch _ | .classDef | .classRest => 4
  | .block _ | .methodBody => 5
  | .methodEnd => 6
  | .memberRest => 7
  | .member => 8
  | .members | .classes => 9

/-- Whether each of some tasks, the first of them at `d`, begins behind `c` or ranks below
`bound`. -/
def Descends (bound : Nat) (c : Cursor) : Cursor → List Task → Prop
  | _, [] => True
  | d, t :: ts =>
    (d.size < c.size ∨ d.size ≤ c.size ∧ t.rank < bound) ∧ Descends bound c (t.target d) ts

/-- What the tasks that a task comes to have to do with it. -/
structure Plans (t : Task) (c : Cursor) (ts : List Task) : Prop where
  /-- They are what it comes to. -/
  plan_eq : t.plan c = some ts
  /-- They may be done. -/
  ready : AllReady (t.move c) ts
  /-- They go on to read or lead to simpler tasks. -/
  descends : Descends t.rank c (t.move c) ts
  /-- They lead where it leads. -/
  targets_eq : targets (t.move c) ts = t.target c

end Task

end Parser

/-! ## Tasks never lead back -/

/-- A group leaves no more tokens than there were. -/
theorem Cursor.size_afterGroup_le (depth : Nat) (c : Cursor) :
    (c.afterGroup depth).size ≤ c.size := by
  have h := congrArg List.length (spanGroup_tiles depth c.rest)
  rw [List.length_append] at h
  exact Nat.le_trans (Nat.le_add_left _ _) (Nat.le_of_eq h)

namespace Parser.Task

private theorem size_afterBases_le (c : Cursor) : (afterBases c).size ≤ c.size := by
  unfold afterBases
  split
  · exact Nat.le_trans (size_skipDeclaration_le _) (Nat.le_trans (Cursor.size_expect_le _ _)
      (Nat.le_trans (Parser.members _).property c.size_advance_le))
  · exact c.size_skipItem_le

private theorem size_parseTokens_le (c : Cursor) : (parseTokens c).next.size ≤ c.size := by
  unfold parseTokens
  split
  · exact Nat.le_refl _
  · split
    · exact Nat.le_trans (Parser.block 0 _ _).property c.size_advance_le
    · exact Nat.le_refl _

private theorem size_classes_le (c : Cursor) : (Parser.classes c).next.size ≤ c.size := by
  fun_induction Parser.classes c with
  | case1 c hr => exact Nat.le_refl _
  | case2 c t ts hr hne hadv first hlt others ih => exact Nat.le_trans ih (Nat.le_of_lt hlt)

theorem size_target_le (t : Task) (c : Cursor) : (t.target c).size ≤ c.size := by
  cases t with
  | advance => exact c.size_advance_le
  | skip mark => exact c.size_skip_le mark
  | run kind => exact c.size_afterRun_le kind.goesOn
  | group opened =>
    cases opened with
    | zero => exact c.size_group_le
    | succ depth => exact c.size_afterGroup_le depth
  | untilSemicolon => exact c.size_untilSemicolon_le
  | skipItem => exact c.size_skipItem_le
  | skipInitializers afterName => exact c.size_skipInitializers_le afterName
  | groupIfNext => exact size_groupIfNext_le c
  | statements depth => exact (Parser.statements depth c).property
  | block depth => exact (Parser.block depth c.here c).property
  | statement depth => exact (Parser.statement depth c).property.1
  | branch depth => exact (Parser.branch depth c).property
  | elseBranch depth =>
    rw [target]
    split
    · exact Nat.le_trans (Parser.branch depth c.advance).property c.size_advance_le
    · exact Nat.le_refl _
  | loopEnd => exact size_loopEnd_le c
  | body => exact size_parseTokens_le c
  | callMark => exact size_callMark_le c
  | memberHead => exact (size_memberHead c).1
  | member =>
    rw [target, Parser.member]
    split
    · exact Nat.le_trans (Parser.memberHead c).2.size_skipItem_le (size_memberHead c).1
    · split
      · exact Nat.le_trans (size_method_le (Parser.memberHead c).1 c.here _) (size_memberHead c).1
      · exact Nat.le_trans (size_dataMember_le (Parser.memberHead c).1 c.here _)
          (size_memberHead c).1
  | memberRest =>
    rw [target]
    split
    · exact size_method_le [] c.here c
    · exact size_dataMember_le [] c.here c
  | fieldValue => exact size_fieldValue_le c
  | methodEnd => exact size_methodEnd_le c
  | initializers => exact size_initializers_le c
  | methodBody =>
    rw [target]
    split
    · exact Nat.le_trans (Parser.block 0 _ c.advance).property c.size_advance_le
    · exact c.size_skip_le .semicolon
  | bases => exact size_bases_le c
  | classDef => exact (Parser.classDef .structKey c.here c).property
  | classRest =>
    rw [target]
    split
    · exact c.size_advance_le
    · exact Nat.le_trans (size_afterBases_le _) (size_bases_le c)
  | classBody => exact size_afterBases_le c
  | members => exact (Parser.members c).property
  | classes => exact size_classes_le c

/-- All tasks descend once a token has been passed. -/
theorem descends_of_lt {bound : Nat} {c d : Cursor} (h : d.size < c.size) (ts : List Task) :
    Descends bound c d ts := by
  induction ts generalizing d with
  | nil => trivial
  | cons t ts ih => exact ⟨.inl h, ih (Nat.lt_of_le_of_lt (t.size_target_le d) h)⟩

/-- Tasks of a lower rank descend. -/
theorem descends_of_rank_lt {bound : Nat} {c d : Cursor} (h : d.size ≤ c.size) {ts : List Task}
    (hrank : ∀ t ∈ ts, t.rank < bound) : Descends bound c d ts := by
  induction ts generalizing d with
  | nil => trivial
  | cons t ts ih =>
    obtain ⟨ht, hts⟩ := List.forall_mem_cons.mp hrank
    exact ⟨.inr ⟨h, ht⟩, ih (Nat.le_trans (t.size_target_le d) h) hts⟩

section
variable {t : Task} {c : Cursor} {ts : List Task}

/-- A task that comes to nothing. -/
theorem Plans.done (hplan : t.plan c = some []) (htarget : t.target c = t.move c) :
    t.Plans c [] :=
  ⟨hplan, trivial, trivial, htarget.symm⟩

/-- A task that comes to simpler ones. -/
theorem Plans.simpler (hplan : t.plan c = some ts) (hmove : t.move c = c) (hready : AllReady c ts)
    (hrank : ∀ u ∈ ts, u.rank < t.rank) (htarget : targets c ts = t.target c) : t.Plans c ts := by
  refine ⟨hplan, ?_, ?_, ?_⟩
  · rw [hmove]
    exact hready
  · rw [hmove]
    exact descends_of_rank_lt (Nat.le_refl _) hrank
  · rw [hmove]
    exact htarget

/-- A task that comes to stepping over a token, and to others after that. -/
theorem Plans.advance (hplan : t.plan c = some (.advance :: ts)) (hmove : t.move c = c)
    (hne : c.rest ≠ []) (hrank : 0 < t.rank) (hready : AllReady c.advance ts)
    (htarget : targets c.advance ts = t.target c) : t.Plans c (.advance :: ts) := by
  refine ⟨hplan, ?_, ?_, ?_⟩
  · rw [hmove]
    exact ⟨hne, hready⟩
  · rw [hmove]
    exact ⟨.inr ⟨Nat.le_refl _, hrank⟩, descends_of_lt (Cursor.size_advance_lt hne) ts⟩
  · rw [hmove]
    exact htarget

/-- A task that comes to reading a group, and to others after that. -/
theorem Plans.group {u : Token} {us : List Token} (hplan : t.plan c = some (.group 0 :: ts))
    (hmove : t.move c = c) (hr : c.rest = u :: us) (hside : u.side = .opening)
    (hrank : 1 < t.rank) (hready : AllReady c.group.next ts)
    (htarget : targets c.group.next ts = t.target c) : t.Plans c (.group 0 :: ts) := by
  refine ⟨hplan, ?_, ?_, ?_⟩
  · rw [hmove]
    refine ⟨fun v hv => ?_, hready⟩
    rw [hr] at hv
    cases hv
    exact hside
  · rw [hmove]
    exact ⟨.inr ⟨Nat.le_refl _, hrank⟩,
      descends_of_lt (Cursor.size_group_lt (Cursor.rest_ne_nil_of_eq hr)) ts⟩
  · rw [hmove]
    exact htarget

end

end Parser.Task

end VertexLanes
