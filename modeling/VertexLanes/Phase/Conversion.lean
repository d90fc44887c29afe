import VertexLanes.Body.Annotate
import VertexLanes.Code.Lower
import VertexLanes.Options

/-!
# Converting one phase

A phase body is annotated with labels of its own and lowered under the policy of
its phase.
-/

namespace VertexLanes

/-- The field of a vertex program that keeps the lanes its apply phase ran for. -/
def programTrack : String := "vp_track"

/-- The lowering policy of a phase. Gathering never tracks; applying starts from the mask of the
message it is given, scattering from that of the program. -/
def Phase.policy (phase : Phase) (options : Options) (messageParam : String) : Policy :=
  match phase with
  | .gather => ⟨false, programTrack, options.vectorType⟩
  | .apply => ⟨options.tracking, messageParam ++ "." ++ trackField, options.vectorType⟩
  | .scatter => ⟨options.tracking, programTrack, options.vectorType⟩

/-- A converted phase body. -/
structure PhaseOutput where
  /-- The phase. -/
  phase : Phase
  /-- The lines of the body. -/
  lines : List String
  /-- The number of masks. -/
  masks : Nat
  /-- What was left out, in order. -/
  notices : List (Located BodyNotice)

/-- Convert a phase body. A body without statements is refused before anything else is looked at. -/
def Phase.convert (phase : Phase) (body : Node String) (policy : Policy) :
    Except (Located BodyFault) PhaseOutput := do
  if body.children.isEmpty then throw ⟨.empty phase, body.span⟩
  let annotated ← annotate body
  return ⟨phase, render policy (lowerBody policy annotated.root), annotated.masks,
    annotated.notices⟩

end VertexLanes
