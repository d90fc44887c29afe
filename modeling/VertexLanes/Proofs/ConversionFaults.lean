import VertexLanes.Program.Conversion
import VertexLanes.Proofs.AcceptedBodies
import VertexLanes.Proofs.StatementPosition

/-!
# What can still go wrong after parsing

Every conditional of an accepted block has a test and one or two blocks, so an
annotation of it never meets a conditional of another shape. An accepted source
file has only such blocks as method bodies. What is left is a single fault: a
call that is named like a send and tells no vertex and message. A program that
was recovered fails to convert exactly because of such calls, with one fault for
each phase that has any, at the first of them.
-/

namespace VertexLanes

/-- An expression does not nest. -/
theorem Shape.kind_expression (tokens : List Token) :
    (Shape.expression tokens).kind.nests = false := by
  unfold Shape.expression Node.ofTokens
  simp only
  split <;> rfl

/-- A statement that ends with a semicolon is no block and no conditional. -/
theorem Shape.kind_statement (tokens : List Token) (semicolon : Option Token) :
    (Shape.statement tokens semicolon).kind.nests = false := by
  unfold Shape.statement
  split
  · rfl
  · split
    · rfl
    · unfold Shape.call?
      simp only
      split
      · rfl
      · exact Shape.kind_expression tokens

/-- If a statement is a conditional, it has a test that is no block, and one or two branches that
are blocks. -/
def Node.WellFormed {τ : Type} (n : Node τ) : Prop :=
  n.kind = .conditional → ∃ test branches, n.children = test :: branches ∧ test.kind ≠ .block ∧
    (branches.length = 1 ∨ branches.length = 2) ∧ ∀ b ∈ branches, b.kind = .block

/-- Every node but a conditional is well-formed. -/
theorem Node.wellFormed_of_kind {τ : Type} {n : Node τ} (h : n.kind ≠ .conditional) :
    n.WellFormed := fun hc => absurd hc h

namespace Parser

/-- A test is no block. -/
theorem kind_of_condition {c mid : Cursor} {test : Node Token}
    (h : condition c = ⟨some test, [], mid⟩) : test.kind ≠ .block := by
  obtain ⟨-, -, -, he⟩ := condition_eq_of_faults (c := c) (by rw [h])
  cases h.symm.trans he
  intro hblock
  have hnests := Shape.kind_expression c.group.value.tail.dropLast
  rw [hblock] at hnests
  cases hnests

/-- What is read without fault is well-formed at every depth. -/
theorem Reads.wellFormed {form : Form} {depth : Nat} {c next : Cursor} {ns : List (Node Token)}
    (h : Reads form depth c ns next) : AllPositions Node.WellFormed ns := by
  induction h with
  | done => exact allPositions_nil
  | more _ _ _ ihFirst ihOthers => exact allPositions_append.mpr ⟨ihFirst, ihOthers⟩
  | block _ _ _ ih =>
    exact (allPositions_block rfl).mpr ⟨Node.wellFormed_of_kind NodeKind.noConfusion, ih⟩
  | nested _ _ _ ih => exact ih
  | empty => exact allPositions_nil
  | chosen _ _ _ ih => exact ih
  | returned =>
    exact (allPositions_simple rfl).mpr (Node.wellFormed_of_kind NodeKind.noConfusion)
  | loop => exact (allPositions_simple rfl).mpr (Node.wellFormed_of_kind NodeKind.noConfusion)
  | doLoop => exact (allPositions_simple rfl).mpr (Node.wellFormed_of_kind NodeKind.noConfusion)
  | simple =>
    have hnests := Shape.kind_statement
    refine (allPositions_simple (hnests _ _)).mpr (Node.wellFormed_of_kind ?_)
    intro hk
    cases (congrArg NodeKind.nests hk).symm.trans (hnests _ _)
  | @ifThen _ _ _ _ _ first _ hc branch _ ih =>
    have hb : ∀ b ∈ [first], b.kind = .block := branch.blocksOnly
    refine (allPositions_conditional rfl rfl hb).mpr ⟨?_, ?_⟩
    · exact fun _ => ⟨_, _, rfl, kind_of_condition hc, Or.inl rfl, hb⟩
    · rw [List.forall_mem_singleton] at hb ⊢
      exact ((allPositions_block hb).mp ih).2
  | ifElse hc branch _ elseBranch ihFirst ihSecond =>
    have hb := branch.kind_of_branches elseBranch
    refine (allPositions_conditional rfl rfl hb).mpr ⟨?_, ?_⟩
    · exact fun _ => ⟨_, _, rfl, kind_of_condition hc, Or.inr rfl, hb⟩
    · rw [List.forall_mem_cons, List.forall_mem_singleton] at hb ⊢
      exact ⟨((allPositions_block hb.1).mp ihFirst).2, ((allPositions_block hb.2).mp ihSecond).2⟩
  | braced _ _ ih => exact ih
  | unbraced _ _ ih =>
    exact (allPositions_block rfl).mpr ⟨Node.wellFormed_of_kind NodeKind.noConfusion, ih⟩

end Parser

theorem Node.Accepted.kind_eq {body : Node Token} (h : body.Accepted) : body.kind = .block := by
  obtain ⟨opening, c, next, hr⟩ := h
  exact hr.blocksOnly body List.mem_cons_self

/-- The statements of an accepted body are well-formed. -/
theorem Node.Accepted.wellFormed {body : Node Token} (h : body.Accepted) :
    AllPositions Node.WellFormed body.children := by
  have hk := h.kind_eq
  obtain ⟨opening, c, next, hr⟩ := h
  exact ((allPositions_block hk).mp hr.wellFormed).2

section
variable {τ σ : Type} (f : τ → σ)

theorem Node.mapList_eq_map (ns : List (Node τ)) : Node.mapList f ns = ns.map (Node.map f) := by
  induction ns with
  | nil => rfl
  | cons n ns ih => rw [Node.mapList, ih, List.map_cons]

@[simp] theorem Node.kind_map (n : Node τ) : (n.map f).kind = n.kind := by
  cases n
  rfl

@[simp] theorem Node.children_map (n : Node τ) :
    (n.map f).children = n.children.map (Node.map f) := by
  cases n
  exact Node.mapList_eq_map f _

mutual
/-- The statements inside a statement do not depend on what its tokens are. -/
theorem Node.inner_map : ∀ n : Node τ, (n.map f).inner = n.inner.map (Node.map f)
  | ⟨.block, _, _, children, _⟩ => positions_mapList children
  | ⟨.conditional, _, _, [], _⟩ => rfl
  | ⟨.conditional, _, _, _ :: branches, _⟩ => innerOf_mapList branches
  | ⟨.operation, _, _, _, _⟩ => rfl
  | ⟨.declaration, _, _, _, _⟩ => rfl
  | ⟨.call, _, _, _, _⟩ => rfl
  | ⟨.return, _, _, _, _⟩ => rfl
  | ⟨.other, _, _, _, _⟩ => rfl
/-- Mapping the tokens of branches maps those of the statements in them. -/
theorem innerOf_mapList : ∀ branches : List (Node τ),
    innerOf (Node.mapList f branches) = (innerOf branches).map (Node.map f)
  | [] => rfl
  | b :: bs => by
    rw [Node.mapList, innerOf, innerOf, Node.inner_map b, innerOf_mapList bs, List.map_append]
/-- Mapping the tokens of nodes maps those of all their positions. -/
theorem positions_mapList : ∀ ns : List (Node τ),
    positions (Node.mapList f ns) = (positions ns).map (Node.map f)
  | [] => rfl
  | n :: ns => by
    rw [Node.mapList, positions, positions, Node.inner_map n, positions_mapList ns, List.map_cons,
      List.map_append]
end

theorem Node.WellFormed.map {n : Node τ} (h : n.WellFormed) : (n.map f).WellFormed := by
  intro hk
  rw [Node.kind_map] at hk
  obtain ⟨test, branches, hc, ht, hlen, hb⟩ := h hk
  refine ⟨test.map f, branches.map (Node.map f), by simp [hc], by simpa using ht,
    by simpa using hlen, ?_⟩
  intro b hmem
  obtain ⟨a, ha, rfl⟩ := List.mem_map.mp hmem
  rw [Node.kind_map]
  exact hb a ha

/-- All positions stay well-formed when their tokens are mapped. -/
theorem allPositions_wellFormed_map {ns : List (Node τ)} (h : AllPositions Node.WellFormed ns) :
    AllPositions Node.WellFormed (ns.map (Node.map f)) := by
  intro m hm
  rw [← Node.mapList_eq_map, positions_mapList] at hm
  obtain ⟨n, hn, rfl⟩ := List.mem_map.mp hm
  exact (h n hn).map f

end

/-- The fault of a call that is an unreadable send. -/
def Node.sendFault (n : Node String) : Located BodyFault := ⟨.malformed .unreadableSend, n.span⟩

/-- The only fault a well-formed statement can have is to be an unreadable send. -/
theorem Node.WellFormed.bodyFault? {n : Node String} (h : n.WellFormed) :
    n.bodyFault? = if n.unreadableSend then some n.sendFault else none := by
  unfold Node.bodyFault? Node.malformation?
  split
  · next hk =>
    obtain ⟨test, branches, hc, ht, hlen, hb⟩ := h hk
    have hall : (branches.all fun b => b.kind == .block) = true := by simpa using hb
    rw [hc, conditionalFault?, if_pos hlen, if_neg ht, if_pos hall]
    simp [Node.unreadableSend, hk]
  · split <;> rfl

/-- The first fault of well-formed statements is that of the first unreadable send. -/
theorem findSome?_bodyFault? {ns : List (Node String)} (h : ∀ n ∈ ns, n.WellFormed) :
    ns.findSome? Node.bodyFault? = (ns.find? Node.unreadableSend).map Node.sendFault := by
  induction ns with
  | nil => rfl
  | cons n ns ih =>
    rw [List.findSome?_cons, List.find?_cons, (h n List.mem_cons_self).bodyFault?]
    cases n.unreadableSend with
    | true => rfl
    | false => exact ih fun m hm => h m (List.mem_cons_of_mem n hm)

/-- The first unreadable send in statement position of a body. -/
def Node.firstUnreadableSend? (body : Node String) : Option (Node String) :=
  (positions body.children).find? Node.unreadableSend

/-- A phase fails as the annotation of its body does. -/
theorem fault?_phaseConvert {phase : Phase} {body : Node String} (policy : Policy)
    (hne : body.children ≠ []) :
    fault? (phase.convert body policy) = fault? (annotate body) := by
  have he : body.children.isEmpty = false := by simpa using hne
  rw [Phase.convert, he]
  exact fault?_bind rfl (fun _ => rfl) Option.or_none

/-- A phase of a recovered program fails exactly if it has an unreadable send, at the first. -/
theorem fault?_convertPhase {source : List Char} {p : SourceProgram}
    (h : parseProgram source = .ok p) (options : Options) (phase : Phase) :
    fault? (p.convertPhase options phase) =
      ((p.program.method phase).body.firstUnreadableSend?).map Node.sendFault := by
  obtain ⟨body, hacc, hne, hbody⟩ := body_of_parseProgram h phase
  have hwf : AllPositions Node.WellFormed (p.program.method phase).body.children := by
    rw [hbody, Node.children_map]
    exact allPositions_wellFormed_map Token.spelling hacc.wellFormed
  rw [SourceProgram.convertPhase, fault?_phaseConvert _ (by simpa [hbody] using hne),
    fault?_annotate (by rw [hbody, Node.kind_map, hacc.kind_eq]), findSome?_bodyFault? hwf]
  rfl

theorem Phase.mem_all (phase : Phase) : phase ∈ Phase.all := by
  cases phase <;> decide

/-- What has no fault has a result. -/
theorem exists_ok_of_fault? {ε α : Type} {x : Except ε α} (h : fault? x = none) :
    ∃ a, x = .ok a := by
  cases x with
  | ok a => exact ⟨a, rfl⟩
  | error e => cases h

/-- The faults of the phases of a program, in their order. -/
def SourceProgram.phaseFaults (p : SourceProgram) (options : Options) : List (Located BodyFault) :=
  Phase.all.filterMap fun phase => fault? (p.convertPhase options phase)

/-- Without phase faults every phase is converted. -/
theorem exists_ok_of_phaseFaults {p : SourceProgram} {options : Options}
    (h : p.phaseFaults options = []) (phase : Phase) :
    ∃ o, p.convertPhase options phase = .ok o := by
  exact exists_ok_of_fault? (List.filterMap_eq_nil_iff.mp h phase phase.mem_all)

/-- A conversion fails with the faults of its phases, if there are any. -/
theorem convert_eq_error {p : SourceProgram} {options : Options}
    {faults : List (Located BodyFault)} :
    p.convert options = .error faults ↔ faults ≠ [] ∧ faults = p.phaseFaults options := by
  have hall : p.phaseFaults options =
      [p.convertPhase options .gather, p.convertPhase options .apply,
        p.convertPhase options .scatter].filterMap fault? := rfl
  unfold SourceProgram.convert
  split
  · next hg ha hs =>
    rw [hall, hg, ha, hs]
    constructor
    · intro h
      cases h
    · rintro ⟨hne, rfl⟩
      exact absurd rfl hne
  · next hnot =>
    rw [← hall]
    constructor
    · intro h
      cases h
      refine ⟨?_, rfl⟩
      intro hnil
      obtain ⟨gather, hg⟩ := exists_ok_of_phaseFaults hnil .gather
      obtain ⟨apply, ha⟩ := exists_ok_of_phaseFaults hnil .apply
      obtain ⟨scatter, hs⟩ := exists_ok_of_phaseFaults hnil .scatter
      exact hnot gather apply scatter hg ha hs
    · rintro ⟨-, rfl⟩
      rfl

/-- A conversion fails exactly if a phase has a fault. -/
theorem exists_convert_error_iff {p : SourceProgram} {options : Options} :
    (∃ faults, p.convert options = .error faults) ↔ p.phaseFaults options ≠ [] := by
  constructor
  · rintro ⟨faults, hf⟩
    obtain ⟨hne, rfl⟩ := convert_eq_error.mp hf
    exact hne
  · intro hne
    exact ⟨_, convert_eq_error.mpr ⟨hne, rfl⟩⟩

/-- A recovered program fails to convert exactly if one of its phases has an unreadable send in
statement position. It fails with one fault for each such phase, in the order of the phases, at the
first such call of its body, and never because of a body or conditional of another shape. -/
theorem convert_fails_iff_unreadable {source : List Char} {p : SourceProgram}
    (h : parseProgram source = .ok p) (options : Options) :
    ((∃ faults, p.convert options = .error faults) ↔
      ∃ phase, ∃ n ∈ positions (p.program.method phase).body.children, n.unreadableSend = true) ∧
    ∀ faults, p.convert options = .error faults →
      (faults = Phase.all.filterMap fun phase =>
        ((positions (p.program.method phase).body.children).find? Node.unreadableSend).map
          fun n => ⟨.malformed .unreadableSend, n.span⟩) ∧
      ∀ f ∈ faults, f.item = .malformed .unreadableSend := by
  have hfaults : p.phaseFaults options = Phase.all.filterMap fun phase =>
      (p.program.method phase).body.firstUnreadableSend?.map Node.sendFault := by
    simp only [SourceProgram.phaseFaults, fault?_convertPhase h]
  constructor
  · rw [exists_convert_error_iff, hfaults, ne_eq, List.filterMap_eq_nil_iff]
    simp [Node.firstUnreadableSend?, Phase.mem_all]
  · intro faults hf
    obtain ⟨-, rfl⟩ := convert_eq_error.mp hf
    refine ⟨hfaults, ?_⟩
    intro f hmem
    rw [hfaults, List.mem_filterMap] at hmem
    obtain ⟨phase, -, hsend⟩ := hmem
    obtain ⟨n, -, rfl⟩ := Option.map_eq_some_iff.mp hsend
    rfl

/-- A program whose first and last phase have an unreadable send, the one in a branch without
braces, the other with an empty vertex and too many arguments. -/
def garbledSource : String :=
  "struct vertex_data\x7b\x7d;struct msg_type\x7b\x7d;struct vertex_program\x7b" ++
    "f gather()\x7bif(x)context_signal_a(x);\x7d" ++
    "f apply(f m)\x7by=m;\x7d" ++
    "f scatter()\x7bcontext_signal__b(e,f,g);\x7d\x7d;"

/-- The faults of the garbled program, in the order of its phases. -/
theorem convert_fails_iff_unreadable_garbled :
    ∃ p, parseProgram garbledSource.toList = .ok p ∧
      p.convert .default = .error
        [⟨.malformed .unreadableSend, ⟨77, 96⟩⟩, ⟨.malformed .unreadableSend, ⟨128, 152⟩⟩] := by
  have hsends : ((parseProgram garbledSource.toList).toOption.any fun p =>
      Phase.all.filterMap (fun phase =>
        ((positions (p.program.method phase).body.children).find? Node.unreadableSend).map
          fun n => (⟨.malformed .unreadableSend, n.span⟩ : Located BodyFault)) ==
        [⟨.malformed .unreadableSend, ⟨77, 96⟩⟩, ⟨.malformed .unreadableSend, ⟨128, 152⟩⟩]) =
      true := by
    decide +kernel
  cases hp : parseProgram garbledSource.toList with
  | error e =>
    rw [hp] at hsends
    cases hsends
  | ok p =>
    rw [hp] at hsends
    have hlist := beq_iff_eq.mp hsends
    obtain ⟨hiff, hfaults⟩ := convert_fails_iff_unreadable hp .default
    obtain ⟨phase, -, hphase⟩ := List.mem_filterMap.mp (hlist ▸ List.mem_cons_self)
    obtain ⟨n, hn, -⟩ := Option.map_eq_some_iff.mp hphase
    obtain ⟨faults, hc⟩ :=
      hiff.mpr ⟨phase, n, List.mem_of_find?_eq_some hn, List.find?_some hn⟩
    refine ⟨p, rfl, ?_⟩
    rw [hc, (hfaults faults hc).1, hlist]

end VertexLanes
