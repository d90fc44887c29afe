import VertexLanes.Program.Emission
import VertexLanes.Program.Recovery

/-!
# Converting a program

A source text becomes a program for many instances at once. Nothing is written
unless all three phases convert, and the faults of all three are reported.
-/

namespace VertexLanes

/-- A converted program. -/
structure Converted where
  /-- Its text. -/
  text : String
  /-- Its phases, in order. -/
  phases : List PhaseOutput
  /-- What was left out, in order. -/
  warnings : List Diagnostic

/-- The number of masks in all phases. -/
def Converted.masks (c : Converted) : Nat := c.phases.foldr (fun p n => p.masks + n) 0

/-- Convert one phase of a program. -/
def SourceProgram.convertPhase (s : SourceProgram) (options : Options) (phase : Phase) :
    Except (Located BodyFault) PhaseOutput :=
  phase.convert (s.program.method phase).body (phase.policy options s.program.messageParam)

/-- Convert a program. -/
def SourceProgram.convert (s : SourceProgram) (options : Options) :
    Except (List (Located BodyFault)) Converted :=
  match s.convertPhase options .gather, s.convertPhase options .apply,
    s.convertPhase options .scatter with
  | .ok gather, .ok apply, .ok scatter =>
    let phases := [gather, apply, scatter]
    .ok ⟨emit options s phases, phases,
      s.notices.map Located.diagnostic ++
        phases.flatMap fun p => p.notices.map Located.diagnostic⟩
  | gather, apply, scatter => .error ([gather, apply, scatter].filterMap fault?)

/-- Convert a source text. -/
def convert (source : List Char) (options : Options) : Except (List Diagnostic) Converted := do
  let program ← parseProgram source
  (program.convert options).mapError fun faults => faults.map Located.diagnostic

end VertexLanes
