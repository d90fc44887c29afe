import VertexLanes.Program.Recovery
import VertexLanes.Proofs.BlockReading

/-!
# The bodies of an accepted source

A source file is accepted only if no part of it has a fault. Every body that is
kept from it was therefore read as a block without fault, also where the class it
belongs to is read among others that are skipped. The bodies of the phases of a
recovered program are such bodies, without the places of their tokens.
-/

namespace VertexLanes

/-- Whether a body is what some token sequence is read as without fault. -/
def Node.Accepted (body : Node Token) : Prop :=
  ∃ opening c next, Parser.Reads (.block opening) 0 c [body] next

/-- Whether the body of a method, if it has one, was read without fault. -/
def Method.Accepted (m : Method) : Prop := ∀ body, m.body = some body → body.Accepted

namespace Parser

/-- The body of a method that is read without fault is accepted. -/
theorem accepted_methodEnd {c : Cursor} (h : (methodEnd c).faults = []) {body : Node Token}
    (hb : (methodEnd c).value = some body) : body.Accepted := by
  unfold methodEnd at h hb
  split at h
  · rw [if_pos ‹_›] at hb
    cases hb
  · rw [if_neg ‹_›] at hb
    simp only at h hb
    split at h
    · rw [if_pos ‹_›] at hb
      obtain ⟨-, hf⟩ := List.append_eq_nil_iff.mp h
      have hread := reads_of_run (.block (initializers c).next.here) 0 _ hf
      cases hb
      exact ⟨_, _, _, hread⟩
    · rw [if_neg ‹_›] at hb
      cases hb

/-- A method that is read without fault is accepted. -/
theorem accepted_method {head : List Token} {start : Span} {c : Cursor}
    (h : (method head start c).faults = []) : (method head start c).value.Accepted := by
  intro body hb
  exact accepted_methodEnd (List.append_eq_nil_iff.mp h).2 hb

/-- A member function that is read without fault is accepted. -/
theorem accepted_member {c : Cursor} (h : (member c).faults = []) {m : Method}
    (hm : (member c).value = some (.function m)) : m.Accepted := by
  unfold member at h hm
  simp only at h hm
  split at h
  · cases h
  · rw [if_neg ‹_›] at hm
    split at h
    · rw [if_pos ‹_›] at hm
      cases hm
      exact accepted_method h
    · rw [if_neg ‹_›] at hm
      obtain ⟨field, -, hf⟩ := Option.map_eq_some_iff.mp hm
      cases hf

/-- The members of a class are none, or those of one step and of what follows it. What a step keeps
was read as a member. -/
theorem members_cases (c : Cursor) :
    (members c).val = ⟨[], [], c⟩ ∨
      ∃ first : Parsed (Option Member), first.next.size < c.size ∧
        (first.value = none ∨ first = member c) ∧
        (members c).val = ⟨first.value.toList ++ (members first.next).val.value,
          first.faults ++ (members first.next).val.faults, (members first.next).val.next⟩ := by
  rw [members]
  split
  · exact Or.inl rfl
  · split
    · exact Or.inl rfl
    · refine Or.inr ⟨_, Subtype.property (p := fun r : Parsed _ => r.next.size < c.size) _, ?_, rfl⟩
      split
      · exact Or.inl rfl
      · exact Or.inl rfl
      · exact Or.inl rfl
      · exact Or.inl rfl
      · exact Or.inr rfl

/-- All member functions of a class that is read without fault are accepted. -/
theorem accepted_members (c : Cursor) (h : (members c).val.faults = []) :
    ∀ m ∈ functionsOf (members c).val.value, m.Accepted := by
  intro m hm
  rcases members_cases c with he | ⟨first, hlt, hfirst, he⟩
  · rw [he] at hm
    cases hm
  · rw [he] at h hm
    obtain ⟨hf, ho⟩ := List.append_eq_nil_iff.mp h
    simp only [functionsOf, List.filterMap_append, List.mem_append] at hm
    rcases hm with hm | hm
    · rcases hfirst with hnone | rfl
      · rw [hnone] at hm
        cases hm
      · obtain ⟨x, hx, hxm⟩ := List.mem_filterMap.mp hm
        cases x with
        | data field => cases hxm
        | function method =>
          cases hxm
          exact accepted_member hf (Option.mem_toList.mp hx)
    · exact accepted_members first.next ho m hm
termination_by c.size

/-- Reading a class finds none, or one whose methods are those of the members read in its body,
whose faults are reported. -/
theorem classDef_cases (key : ClassKey) (start : Span) (c : Cursor) :
    (classDef key start c).val.value = none ∨
      ∃ cls body others, (classDef key start c).val.value = some cls ∧
        cls.methods = functionsOf (members body).val.value ∧
        (classDef key start c).val.faults = (members body).val.faults ++ others := by
  rw [classDef]
  split
  · split
    · exact Or.inl rfl
    · simp only
      split
      · exact Or.inr ⟨_, (bases c.advance).2.advance, _, rfl, rfl, List.append_assoc _ _ _⟩
      · exact Or.inl rfl
  · exact Or.inl rfl

/-- The methods of an accepted class have accepted bodies. -/
theorem accepted_classDef {key : ClassKey} {start : Span} {c : Cursor} {cls : ClassDef}
    (h : (classDef key start c).val.faults = [])
    (hv : (classDef key start c).val.value = some cls) : ∀ m ∈ cls.methods, m.Accepted := by
  rcases classDef_cases key start c with hn | ⟨cls', body, others, hs, hm, hf⟩
  · rw [hn] at hv
    cases hv
  · cases hv.symm.trans hs
    rw [hm]
    exact accepted_members body (List.append_eq_nil_iff.mp (hf.symm.trans h)).1

/-- The classes of a file are none, or those of a first item and of what is left behind it. -/
theorem classes_cases (c : Cursor) :
    classes c = ⟨[], [], c⟩ ∨
      ∃ first : Parsed (Option ClassDef), first.next.size < c.size ∧
        (first.value = none ∨ ∃ key start, first = (classDef key start c.advance).val) ∧
        classes c = ⟨first.value.toList ++ (classes first.next).value,
          first.faults ++ (classes first.next).faults, (classes first.next).next⟩ := by
  rw [classes]
  split
  · exact Or.inl rfl
  · refine Or.inr ⟨_, Subtype.property (p := fun r : Parsed _ => r.next.size < c.size) _, ?_, rfl⟩
    split
    · exact Or.inl rfl
    · exact Or.inr ⟨_, _, rfl⟩
    · exact Or.inl rfl

/-- All methods of a file that is read without fault are accepted. -/
theorem accepted_classes (c : Cursor) (h : (classes c).faults = []) :
    ∀ cls ∈ (classes c).value, ∀ m ∈ cls.methods, m.Accepted := by
  intro cls hc
  rcases classes_cases c with he | ⟨first, hlt, hfirst, he⟩
  · rw [he] at hc
    cases hc
  · rw [he] at h hc
    obtain ⟨hf, ho⟩ := List.append_eq_nil_iff.mp h
    rcases List.mem_append.mp hc with hc | hc
    · rw [Option.mem_toList] at hc
      rcases hfirst with hnone | ⟨key, start, rfl⟩
      · rw [hnone] at hc
        cases hc
      · exact accepted_classDef hf hc
    · exact accepted_classes first.next ho cls hc
termination_by c.size

end Parser

/-- Every method of an accepted source file has an accepted body or none. -/
theorem accepted_parseFile {source : List Char} {file : SourceFile}
    (h : parseFile source = .ok file) : ∀ cls ∈ file.classes, ∀ m ∈ cls.methods, m.Accepted := by
  unfold parseFile at h
  simp only at h
  split at h
  · split at h
    · next classes next hp =>
      cases h
      have := Parser.accepted_classes (lex source).cursor (by rw [hp])
      rwa [hp] at this
    · cases h
  · cases h

namespace Recovery

/-- The method of a phase is that of the phase's name, and has a body with statements; the apply
phase has a parameter. -/
theorem phaseMethod_eq_ok {c : ClassDef} {phase : Phase} {pm : PhaseMethod}
    (h : phaseMethod c phase = .ok pm) :
    ∃ m body, c.method? phase.name = some m ∧ m.body = some body ∧ body.children ≠ [] ∧
      (phase = .apply → m.params ≠ []) ∧ pm = ⟨m.params, body.map Token.spelling⟩ := by
  unfold phaseMethod at h
  split at h
  · cases h
  · next m hm =>
    split at h
    · cases h
    · next body hb =>
      split at h
      · cases h
      · next hne =>
        split at h
        · cases h
        · next hparams =>
          cases h
          refine ⟨m, body, hm, hb, by simpa using hne, ?_, rfl⟩
          rintro rfl
          simpa using hparams

/-- The method of a phase has the spellings of an accepted body with statements. -/
theorem body_phaseMethod {c : ClassDef} {phase : Phase} {pm : PhaseMethod}
    (h : phaseMethod c phase = .ok pm) (hc : ∀ m ∈ c.methods, m.Accepted) :
    ∃ body : Node Token, body.Accepted ∧ body.children ≠ [] ∧
      pm.body = body.map Token.spelling := by
  obtain ⟨m, body, hm, hb, hne, -, rfl⟩ := phaseMethod_eq_ok h
  exact ⟨body, hc m (List.mem_of_find?_eq_some hm) body hb, hne, rfl⟩

/-- The methods of a vertex program are the phase methods of its class. -/
theorem phaseMethod_of_vertexProgram {source : List Char} {c : ClassDef} {p : VertexProgram}
    (h : vertexProgram source c = .ok p) (phase : Phase) :
    phaseMethod c phase = .ok (p.method phase) := by
  unfold vertexProgram at h
  split at h
  · next gather apply scatter hg ha hs =>
    cases h
    cases phase with
    | gather => exact hg
    | apply => exact ha
    | scatter => exact hs
  · cases h

/-- The class with the phases is one of the classes of the file. -/
theorem mem_of_programClass? {file : SourceFile} {c : ClassDef}
    (h : programClass? file = some c) : c ∈ file.classes := by
  rcases Option.or_eq_some_iff.mp h with h | ⟨-, h⟩
  · exact List.mem_of_find?_eq_some h
  · exact List.mem_of_find?_eq_some h

/-- The vertex program is that of a class of the file. -/
theorem vertexProgram_of_program {source : List Char} {file : SourceFile} {p : SourceProgram}
    (h : program source file = .ok p) :
    ∃ c ∈ file.classes, vertexProgram source c = .ok p.program := by
  unfold program at h
  simp only at h
  split at h
  · next v message notices vp hv hm hp =>
    cases h
    obtain ⟨c, hc, hcp⟩ := Option.map_eq_some_iff.mp hp
    exact ⟨c, mem_of_programClass? hc, hcp⟩
  · cases h

end Recovery

/-- The body of every phase of a recovered program has the spellings of an accepted body with
statements. -/
theorem body_of_parseProgram {source : List Char} {p : SourceProgram}
    (h : parseProgram source = .ok p) (phase : Phase) :
    ∃ body : Node Token, body.Accepted ∧ body.children ≠ [] ∧
      (p.program.method phase).body = body.map Token.spelling := by
  unfold parseProgram at h
  cases hf : parseFile source with
  | error e => rw [hf] at h; cases h
  | ok file =>
    rw [hf] at h
    change (Recovery.program source file).mapError _ = .ok p at h
    cases hp : Recovery.program source file with
    | error e => rw [hp] at h; cases h
    | ok q =>
      rw [hp] at h
      cases h
      obtain ⟨c, hc, hv⟩ := Recovery.vertexProgram_of_program hp
      exact Recovery.body_phaseMethod (Recovery.phaseMethod_of_vertexProgram hv phase)
        (accepted_parseFile hf c hc)

end VertexLanes
