import VertexLanes.Proofs.ConversionFaults

/-!
# Every outcome is reported

A step that fails says why, by at least one finding, and all it then reports are
errors; a step that succeeds reports warnings only. So a source is never refused
in silence. A program that is recovered has a method with statements for each of
the three phases, and its apply phase is given a message.
-/

namespace VertexLanes

/-- Whether findings are warnings only. -/
def OnlyWarnings (ds : List Diagnostic) : Prop := ∀ d ∈ ds, d.severity = .warning

/-- An outcome is reported: a failure by findings that are all errors, at least one, a success by a
result that satisfies `P`. -/
inductive Reported {α : Type} (P : α → Prop) : Except (List Diagnostic) α → Prop
  | failed {ds : List Diagnostic} (nonempty : ds ≠ []) (errors : ∀ d ∈ ds, d.severity = .error) :
      Reported P (.error ds)
  | succeeded {a : α} (h : P a) : Reported P (.ok a)

/-- Findings weigh what their causes weigh. -/
theorem severity_of_mem {ε : Type} [Explains ε] {found : List (Located ε)} {d : Diagnostic}
    (h : d ∈ found.map Located.diagnostic) : d.severity = Explains.severity ε := by
  obtain ⟨f, -, rfl⟩ := List.mem_map.mp h
  rfl

namespace Reported

variable {α β ε : Type} {P : α → Prop} {Q : β → Prop}

/-- A failure with the diagnostics of some faults is reported. -/
theorem of_faults [Explains ε] (hε : Explains.severity ε = .error) {faults : List (Located ε)}
    (h : faults ≠ []) : Reported P (.error (faults.map Located.diagnostic)) :=
  .failed (by simpa using h) fun _ hd => (severity_of_mem hd).trans hε

/-- A sequence of reported steps is reported. -/
theorem bind {x : Except (List Diagnostic) α} {f : α → Except (List Diagnostic) β}
    (h : Reported P x) (hf : ∀ a, x = .ok a → P a → Reported Q (f a)) : Reported Q (x >>= f) := by
  cases h with
  | failed nonempty errors => exact .failed nonempty errors
  | succeeded ha => exact hf _ rfl ha

end Reported

/-- If none of some steps has a fault, all of them succeed. -/
theorem exists_ok_of_filterMap {ε α : Type} {xs : List (Except ε α)}
    (h : xs.filterMap fault? = []) : ∀ x ∈ xs, ∃ a, x = .ok a :=
  fun x hx => exists_ok_of_fault? (List.filterMap_eq_nil_iff.mp h x hx)

/-! ## Blocks and files -/

/-- A token sequence that is no block has a fault. -/
theorem parseTokens_faults_ne_nil {c : Cursor} (h : (parseTokens c).value = none) :
    (parseTokens c).faults ≠ [] := by
  unfold parseTokens at h ⊢
  split
  · exact List.cons_ne_nil _ _
  · next t ts hr =>
    rw [hr] at h
    split
    · next hb => simp [hb] at h
    · exact List.cons_ne_nil _ _

/-- Parsing a block gives a tree or reports why not. -/
theorem parseBlock_reported (source : List Char) :
    Reported (fun _ : Node Token => True) (parseBlock source) := by
  unfold parseBlock
  simp only
  split
  · split
    · exact .succeeded trivial
    · next value faults next hnot hp =>
      refine .of_faults rfl fun hnil => ?_
      subst hnil
      cases value with
      | none => exact parseTokens_faults_ne_nil (by rw [hp]) (by rw [hp])
      | some body => exact hnot body rfl rfl
  · next hfaults => exact .of_faults rfl (by simpa using hfaults)

/-- Parsing a file gives its classes or reports why not. -/
theorem parseFile_reported (source : List Char) :
    Reported (fun _ : SourceFile => True) (parseFile source) := by
  unfold parseFile
  simp only
  split
  · split
    · exact .succeeded trivial
    · next faults _ hnot _ => exact .of_faults rfl fun hnil => hnot hnil
  · next hfaults => exact .of_faults rfl (by simpa using hfaults)

/-! ## Programs -/

/-- A step that fails with a list of faults names at least one. -/
def NamesFaults {ε α : Type} (x : Except (List ε) α) : Prop :=
  ∀ faults, x = .error faults → faults ≠ []

/-- A step that names its faults and has none gives a result. -/
theorem NamesFaults.exists_ok {ε α : Type} {x : Except (List ε) α} (h : NamesFaults x)
    (hf : (fault? x).getD [] = []) : ∃ a, x = .ok a := by
  cases x with
  | ok a => exact ⟨a, rfl⟩
  | error faults => exact absurd hf (h faults rfl)

namespace Recovery

/-- A class that is not reported as missing is there. -/
theorem exists_of_missing {name : String} {c : Option ClassDef} (h : missing name c = []) :
    ∃ cls, c = some cls := by
  cases c with
  | none => cases h
  | some cls => exact ⟨cls, rfl⟩

theorem namesFaults_message (c : ClassDef) : NamesFaults (message c) := by
  intro faults h
  unfold message at h
  simp only at h
  split at h
  · cases h
  · split at h
    · cases h
    · next hne =>
      cases h
      exact hne

/-- Recovering the vertex program names its faults. -/
theorem namesFaults_vertexProgram (source : List Char) (c : ClassDef) :
    NamesFaults (vertexProgram source c) := by
  intro faults h
  unfold vertexProgram at h
  split at h
  · cases h
  · next hnot =>
    cases h
    intro hnil
    have hall := exists_ok_of_filterMap hnil
    simp only [List.forall_mem_cons, List.not_mem_nil, false_imp_iff, implies_true, and_true]
      at hall
    obtain ⟨⟨gather, hg⟩, ⟨apply, ha⟩, ⟨scatter, hs⟩⟩ := hall
    exact hnot gather apply scatter hg ha hs

/-- If no piece of a program is missing and no piece has a fault, the program is recovered. -/
theorem namesFaults_program (source : List Char) (file : SourceFile) :
    NamesFaults (program source file) := by
  intro faults h
  unfold program at h
  simp only at h
  split at h
  · cases h
  · next hnot =>
    cases h
    intro hnil
    simp only [List.append_eq_nil_iff] at hnil
    obtain ⟨⟨⟨hv, hm⟩, hp⟩, hmessage, hprogram⟩ := hnil
    obtain ⟨v, hv⟩ := exists_of_missing hv
    obtain ⟨mc, hm⟩ := exists_of_missing hm
    obtain ⟨pc, hp⟩ := exists_of_missing hp
    rw [hm] at hmessage
    rw [hp] at hprogram
    obtain ⟨⟨m, notices⟩, hmok⟩ := (namesFaults_message mc).exists_ok hmessage
    obtain ⟨vp, hpok⟩ := (namesFaults_vertexProgram source pc).exists_ok hprogram
    exact hnot v m notices vp hv (by rw [hm, Option.map_some, hmok])
      (by rw [hp, Option.map_some, hpok])

end Recovery

/-- The method of a phase, as a class gives it: the method of the phase's name, with a body that is
a block and has a statement. -/
def PhaseMethod.ReadFrom (c : ClassDef) (phase : Phase) (pm : PhaseMethod) : Prop :=
  ∃ m body, c.method? phase.name = some m ∧ m.body = some body ∧ pm.params = m.params ∧
    pm.body = body.map Token.spelling ∧ pm.body.kind = .block ∧ pm.body.children ≠ []

/-- The program of a source has exactly the phases gather, apply and scatter, in this order, all read
from one class of the source, and the apply phase has a parameter. -/
structure SourceProgram.Complete (source : List Char) (s : SourceProgram) : Prop where
  phases : ∃ file, parseFile source = .ok file ∧ ∃ c ∈ file.classes,
    List.Forall₂ (PhaseMethod.ReadFrom c) [.gather, .apply, .scatter]
      [s.program.gather, s.program.apply, s.program.scatter]
  message : s.program.apply.params ≠ []

/-- The phases of a recovered program are methods of one class of its source. -/
theorem complete_of_program {source : List Char} {file : SourceFile} {s : SourceProgram}
    (hf : parseFile source = .ok file) (hp : Recovery.program source file = .ok s) :
    s.Complete source := by
  obtain ⟨c, hc, hv⟩ := Recovery.vertexProgram_of_program hp
  have hphase := Recovery.phaseMethod_of_vertexProgram hv
  have hread (phase : Phase) : PhaseMethod.ReadFrom c phase (s.program.method phase) := by
    obtain ⟨m, body, hm, hb, hne, -, hpm⟩ := Recovery.phaseMethod_eq_ok (hphase phase)
    have haccepted := accepted_parseFile hf c hc m (List.mem_of_find?_eq_some hm) body hb
    rw [hpm]
    refine ⟨m, body, hm, hb, rfl, rfl, ?_, ?_⟩
    · rw [Node.kind_map, haccepted.kind_eq]
    · simpa using hne
  refine ⟨⟨file, hf, c, hc, ?_⟩, ?_⟩
  · exact .cons (hread .gather) (.cons (hread .apply) (.cons (hread .scatter) .nil))
  · obtain ⟨m, body, -, -, -, hparams, hpm⟩ := Recovery.phaseMethod_eq_ok (hphase .apply)
    have happly : s.program.apply.params = m.params := congrArg PhaseMethod.params hpm
    rw [happly]
    exact hparams rfl

/-- Parsing a program gives a complete one with warnings only, or reports why not. -/
theorem parseProgram_reported (source : List Char) :
    Reported (fun s : SourceProgram =>
      OnlyWarnings (s.notices.map Located.diagnostic) ∧ s.Complete source)
      (parseProgram source) := by
  refine (parseFile_reported source).bind fun file hf _ => ?_
  cases hp : Recovery.program source file with
  | ok s => exact .succeeded ⟨fun _ => severity_of_mem, complete_of_program hf hp⟩
  | error faults => exact .of_faults rfl (Recovery.namesFaults_program source file faults hp)

/-! ## Conversions -/

/-- A converted program comes with warnings only. -/
theorem onlyWarnings_convert {s : SourceProgram} {options : Options} {c : Converted}
    (h : s.convert options = .ok c) : OnlyWarnings c.warnings := by
  unfold SourceProgram.convert at h
  split at h
  · rw [← Except.ok.inj h]
    intro d hd
    rcases List.mem_append.mp hd with hprogram | hphase
    · exact severity_of_mem hprogram
    · obtain ⟨o, -, ho⟩ := List.mem_flatMap.mp hphase
      exact severity_of_mem ho
  · cases h

/-- A conversion gives a result with warnings only, or reports why not. -/
theorem convert_reported (source : List Char) (options : Options) :
    Reported (fun c : Converted => OnlyWarnings c.warnings) (convert source options) := by
  refine (parseProgram_reported source).bind fun s _ _ => ?_
  cases hc : s.convert options with
  | ok c => exact .succeeded (onlyWarnings_convert hc)
  | error faults => exact .of_faults rfl (convert_eq_error.mp hc).1

/-- Reading a block, reading a file, recovering a program and converting a source each fail with at
least one finding, all of them errors, or succeed with warnings only. A recovered program has
exactly the three phases in order, each with a block that has a statement, and its apply phase has a
parameter. -/
theorem outcomes_reported (source : List Char) (options : Options) :
    Reported (fun _ : Node Token => True) (parseBlock source) ∧
      Reported (fun _ : SourceFile => True) (parseFile source) ∧
      Reported (fun s : SourceProgram =>
        OnlyWarnings (s.notices.map Located.diagnostic) ∧ s.Complete source)
        (parseProgram source) ∧
      Reported (fun c : Converted => OnlyWarnings c.warnings) (convert source options) :=
  ⟨parseBlock_reported source, parseFile_reported source, parseProgram_reported source,
    convert_reported source options⟩

end VertexLanes
