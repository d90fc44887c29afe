import VertexLanes.Body.Json
import VertexLanes.Command.Args
import VertexLanes.File.Conversion

/-!
# Running commands

What a command prints and with which status it ends. Messages are kept apart
from the way they are shown.
-/

namespace VertexLanes

/-- A message to the user. -/
inductive Message where
  /-- A finding in a source. -/
  | diagnostic (d : Diagnostic)
  /-- A line about the run. -/
  | line (text : String)

/-- The headline of a finding. -/
def Diagnostic.headline (d : Diagnostic) : String :=
  (match d.severity with
    | .error => "Error: "
    | .warning => "Warning: ") ++ d.message

/-- The text of a message. -/
def Message.headline : Message → String
  | .diagnostic d => d.headline
  | .line text => text

/-- What a command comes to. -/
structure Outcome where
  /-- The exit status. -/
  status : Nat
  /-- What is printed. -/
  output : String
  /-- The messages, in order. -/
  messages : List Message

namespace Outcome

/-- A run that went well. -/
def success (output : String) (messages : List Message) : Outcome := ⟨0, output, messages⟩

/-- A run that failed. -/
def failure (messages : List Message) : Outcome := ⟨1, "", messages⟩

/-- A run that never began. -/
def misuse : Outcome := ⟨2, "", []⟩

end Outcome

/-- The line for an error. -/
def errorLine (text : String) : Message := .line ("error: " ++ text)

/-- The messages for findings. -/
def findings (ds : List Diagnostic) : List Message := ds.map Message.diagnostic

/-- The messages about one converted file. -/
def resultMessages : Except ConversionError ConversionReport → List Message
  | .ok r =>
    findings r.warnings ++
      [.line ("Converted " ++ r.input.text ++ " -> " ++ r.output.text ++ " (" ++
        toString r.masks ++ " masks, " ++ toString r.warnings.length ++ " warnings)")]
  | .error e => findings e.diagnostics ++ [errorLine e.message]

/-- Whether a step failed. -/
def isError {ε α : Type} : Except ε α → Bool
  | .ok _ => false
  | .error _ => true

/-- The outcome of converting files. -/
def conversionOutcome (results : List (Except ConversionError ConversionReport)) : Outcome :=
  let messages := results.flatMap resultMessages
  let failed := results.countP isError
  if failed = 0 then .success "" messages
  else
    .failure (messages ++
      [.line (toString failed ++ " of " ++ toString results.length ++ " file(s) failed")])

/-- The text of a converted phase. -/
def phaseText (p : PhaseOutput) : String :=
  "// " ++ p.phase.name ++ " (" ++ toString p.masks ++ " masks)\n" ++
    String.intercalate "\n" p.lines ++ "\n"

/-- The outcome of printing phases of a source. -/
def phasesOutcome (source : String) (options : Options) (phase : Option Phase) : Outcome :=
  match convert source.toList options with
  | .error ds => .failure (findings ds)
  | .ok c =>
    let wanted := c.phases.filter fun p => phase.all (· == p.phase)
    .success (String.join (wanted.map phaseText)) (findings c.warnings)

/-- The outcome of printing the annotated body of a phase of a source. -/
def treeOutcome (source : String) (phase : Phase) : Outcome :=
  match parseProgram source.toList with
  | .error ds => .failure (findings ds)
  | .ok s =>
    let notices := findings (s.notices.map Located.diagnostic)
    match annotate (s.program.method phase).body with
    | .error fault => .failure (notices ++ findings [fault.diagnostic])
    | .ok a =>
      .success (a.root.json.pretty 0 ++ "\n")
        (notices ++ findings (a.notices.map Located.diagnostic))

section Steps

variable {m : Type → Type} [Monad m] [FileAccess m]

/-- Convert one input with its own options. -/
def convertInput (output config : Option Path) (trackFree : Bool) (input : Path) :
    m (Except ConversionError ConversionReport) := do
  match ← resolveOptions input config trackFree with
  | .error e => return .error e
  | .ok options => convertFile input (output.getD input.defaultOutput) options

/-- Run a command. -/
def Command.run : Command → m Outcome
  | .convert inputs output config trackFree =>
    if output.isSome && 1 < inputs.length then
      return .failure [errorLine "--output can only be used with a single input"]
    else return conversionOutcome (← inputs.mapM (convertInput output config trackFree))
  | .phases input phase config trackFree => do
    match ← readInput input with
    | .error e => return .failure [errorLine e.message]
    | .ok source =>
      match ← resolveOptions input config trackFree with
      | .error e => return .failure [errorLine e.message]
      | .ok options => return phasesOutcome source options phase
  | .tree input phase => do
    match ← readInput input with
    | .error e => return .failure [errorLine e.message]
    | .ok source => return treeOutcome source phase

end Steps

/-- The name of the program with its version. -/
def versionText : String := "automi 0.1.0"

end VertexLanes
