import VertexLanes.Program.Conversion

/-!
# What the options cannot change

The options of a conversion reach only the lowering of the phases and the text
of the program. Two conversions of one source under different options therefore
both fail, with the same report, or both succeed, with the same findings. The
gather phase never tracks, so its lines depend on the vector template alone.
-/

namespace VertexLanes

/-- Two outcomes agree: both fail with the same report, or both succeed with related results. -/
inductive Agree {ε α : Type} (R : α → α → Prop) : Except ε α → Except ε α → Prop
  | failed (report : ε) : Agree R (.error report) (.error report)
  | made {a b : α} (h : R a b) : Agree R (.ok a) (.ok b)

namespace Agree

variable {ε ε' α β : Type} {R : α → α → Prop} {S : β → β → Prop}

/-- Computations that agree after equal beginnings agree. -/
theorem bind_left (x : Except ε α) {f g : α → Except ε β} (h : ∀ a, Agree S (f a) (g a)) :
    Agree S (x >>= f) (x >>= g) := by
  cases x with
  | error report => exact .failed report
  | ok a => exact h a

/-- Reports can be reworded on both sides. -/
theorem mapError {x y : Except ε α} (h : Agree R x y) (f : ε → ε') :
    Agree R (x.mapError f) (y.mapError f) := by
  cases h with
  | failed report => exact .failed (f report)
  | made h => exact .made h

end Agree

/-- What is found in a phase, apart from how it is written. -/
structure PhaseFindings where
  /-- The phase. -/
  phase : Phase
  /-- The number of masks. -/
  masks : Nat
  /-- What was left out, in order. -/
  notices : List (Located BodyNotice)

/-- What a converted phase says of its body. -/
def PhaseOutput.findings (o : PhaseOutput) : PhaseFindings := ⟨o.phase, o.masks, o.notices⟩

/-- Two conversions of one phase body, under two policies: they find the same, and equal policies
write the same lines. -/
structure SamePhase (phase : Phase) (p₁ p₂ : Policy) (o₁ o₂ : PhaseOutput) : Prop where
  phase : o₁.phase = phase
  findings : o₁.findings = o₂.findings
  lines : p₁ = p₂ → o₁.lines = o₂.lines

namespace SamePhase

variable {phase : Phase} {p₁ p₂ : Policy} {o₁ o₂ : PhaseOutput}

theorem phase_right (h : SamePhase phase p₁ p₂ o₁ o₂) : o₂.phase = phase :=
  (congrArg PhaseFindings.phase h.findings).symm.trans h.phase

theorem notices (h : SamePhase phase p₁ p₂ o₁ o₂) : o₁.notices = o₂.notices :=
  congrArg PhaseFindings.notices h.findings

end SamePhase

/-- A policy decides only how a phase is written. -/
theorem Phase.convert_agree (phase : Phase) (body : Node String) (p₁ p₂ : Policy) :
    Agree (SamePhase phase p₁ p₂) (phase.convert body p₁) (phase.convert body p₂) := by
  unfold Phase.convert
  cases body.children.isEmpty with
  | true => exact .failed _
  | false =>
    refine Agree.bind_left (annotate body) fun annotated => .made ⟨rfl, rfl, fun h => ?_⟩
    rw [h]

/-- The lines of a phase of a converted program. -/
def Converted.linesOf (c : Converted) (phase : Phase) : List (List String) :=
  (c.phases.filter fun o => o.phase == phase).map PhaseOutput.lines

/-- Two conversions of one program, under two choices of options, that find the same. -/
structure SameFindings (o₁ o₂ : Options) (c₁ c₂ : Converted) : Prop where
  /-- Both have the three phases, in order. -/
  phases : c₁.phases.map PhaseOutput.phase = Phase.all ∧ c₂.phases.map PhaseOutput.phase = Phase.all
  /-- Phase by phase they have as many masks and left out the same. -/
  findings : c₁.phases.map PhaseOutput.findings = c₂.phases.map PhaseOutput.findings
  /-- They give the same warnings. -/
  warnings : c₁.warnings = c₂.warnings
  /-- With the same vector template, they write the same gather phase. -/
  gather : o₁.vectorType = o₂.vectorType → c₁.linesOf .gather = c₂.linesOf .gather

/-- The policy of the gather phase depends on the vector template only. -/
theorem Phase.policy_gather {o₁ o₂ : Options} (h : o₁.vectorType = o₂.vectorType)
    (messageParam : String) :
    Phase.gather.policy o₁ messageParam = Phase.gather.policy o₂ messageParam := by
  rw [Phase.policy, Phase.policy, h]

/-- Programs whose phases are converted alike are found alike. -/
theorem sameFindings_of_phases {o₁ o₂ : Options} {messageParam text₁ text₂ : String}
    {notices : List Diagnostic} {g₁ g₂ a₁ a₂ s₁ s₂ : PhaseOutput} {p₁ p₂ q₁ q₂ : Policy}
    (hg : SamePhase .gather (Phase.gather.policy o₁ messageParam)
      (Phase.gather.policy o₂ messageParam) g₁ g₂)
    (ha : SamePhase .apply p₁ p₂ a₁ a₂) (hs : SamePhase .scatter q₁ q₂ s₁ s₂) :
    SameFindings o₁ o₂
      ⟨text₁, [g₁, a₁, s₁],
        notices ++ [g₁, a₁, s₁].flatMap fun o => o.notices.map Located.diagnostic⟩
      ⟨text₂, [g₂, a₂, s₂],
        notices ++ [g₂, a₂, s₂].flatMap fun o => o.notices.map Located.diagnostic⟩ where
  phases := by
    simp [hg.phase, ha.phase, hs.phase, hg.phase_right, ha.phase_right, hs.phase_right, Phase.all]
  findings := by simp [hg.findings, ha.findings, hs.findings]
  warnings := by simp [hg.notices, ha.notices, hs.notices]
  gather h := by
    have hlines := hg.lines (Phase.policy_gather h messageParam)
    simp [Converted.linesOf, hg.phase, ha.phase, hs.phase, hg.phase_right, ha.phase_right,
      hs.phase_right, hlines]

/-- Options decide only how a program is written. -/
theorem SourceProgram.convert_agree (s : SourceProgram) (o₁ o₂ : Options) :
    Agree (SameFindings o₁ o₂) (s.convert o₁) (s.convert o₂) := by
  have hphase (phase : Phase) : Agree
      (SamePhase phase (phase.policy o₁ s.program.messageParam)
        (phase.policy o₂ s.program.messageParam))
      (s.convertPhase o₁ phase) (s.convertPhase o₂ phase) := phase.convert_agree _ _ _
  have hgather := hphase .gather
  have happly := hphase .apply
  have hscatter := hphase .scatter
  unfold SourceProgram.convert
  generalize s.convertPhase o₁ .gather = g₁, s.convertPhase o₂ .gather = g₂,
    s.convertPhase o₁ .apply = a₁, s.convertPhase o₂ .apply = a₂,
    s.convertPhase o₁ .scatter = s₁, s.convertPhase o₂ .scatter = s₂
    at hgather happly hscatter ⊢
  -- One phase that fails, fails alike in both, so the reports are equal.
  cases hgather with
  | failed report => cases happly <;> cases hscatter <;> exact .failed _
  | made hg =>
    cases happly with
    | failed report => cases hscatter <;> exact .failed _
    | made ha =>
      cases hscatter with
      | failed report => exact .failed _
      | made hs => exact .made (sameFindings_of_phases hg ha hs)

/-- Options only change how a program is written. Under any two choices of options a source fails to
convert with the same report, or converts with the same phases, the same number of masks and the
same notices in each phase, and the same warnings. The lines of the gather phase are the same if the
vector template is. -/
theorem convert_options_agree (source : List Char) (o₁ o₂ : Options) :
    Agree (SameFindings o₁ o₂) (convert source o₁) (convert source o₂) :=
  Agree.bind_left (parseProgram source) fun program =>
    (program.convert_agree o₁ o₂).mapError _

end VertexLanes
