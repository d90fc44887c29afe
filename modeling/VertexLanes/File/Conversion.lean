import VertexLanes.File.Access
import VertexLanes.Program.Conversion
import VertexLanes.Project

/-!
# Converting files

Finding the project file of an input, reading it, and converting one file into
another. Nothing is written unless the whole input converts.
-/

namespace VertexLanes

/-- Why a file is not converted. -/
inductive ConversionError where
  /-- The input cannot be read. -/
  | unreadable (input : Path) (reason : FileError)
  /-- The output cannot be written. -/
  | unwritable (output : Path) (reason : FileError)
  /-- The program does not convert. -/
  | unconverted (input : Path) (diagnostics : List Diagnostic)
  /-- The project file is refused. -/
  | badProject (file : Path) (fault : ProjectFault)

/-- The description of an error. -/
def ConversionError.message : ConversionError → String
  | .unreadable input reason => "cannot read '" ++ input.text ++ "': " ++ reason.message
  | .unwritable output reason => "cannot write '" ++ output.text ++ "': " ++ reason.message
  | .unconverted input diagnostics =>
    "'" ++ input.text ++ "' did not convert (" ++ toString diagnostics.length ++ " error(s))"
  | .badProject file fault =>
    "invalid project file '" ++ file.text ++ "': " ++ Explains.message fault

/-- What is said of the program itself. -/
def ConversionError.diagnostics : ConversionError → List Diagnostic
  | .unconverted _ diagnostics => diagnostics
  | _ => []

/-- What came of converting a file. -/
structure ConversionReport where
  /-- The file that was read. -/
  input : Path
  /-- The file that was written. -/
  output : Path
  /-- The number of masks in all phases. -/
  masks : Nat
  /-- What was left out, in order. -/
  warnings : List Diagnostic
  /-- The text that was read. -/
  source : String

section Steps

variable {m : Type → Type} [Monad m] [FileAccess m]

/-- Read a file that is to be converted. -/
def readInput (input : Path) : m (Except ConversionError String) := do
  return (← FileAccess.read input).mapError (.unreadable input)

/-- Convert one file into another. -/
def convertFile (input output : Path) (options : Options) :
    m (Except ConversionError ConversionReport) := do
  match ← readInput input with
  | .error e => return .error e
  | .ok source =>
    match convert source.toList options with
    | .error diagnostics => return .error (.unconverted input diagnostics)
    | .ok converted =>
      match ← FileAccess.write output converted.text with
      | .error reason => return .error (.unwritable output reason)
      | .ok _ => return .ok ⟨input, output, converted.masks, converted.warnings, source⟩

namespace Project

/-- Read a project file. -/
def load (file : Path) : m (Except ProjectFault Project) := do
  match ← FileAccess.read file with
  | .error reason => return .error (.unreadable file reason)
  | .ok content => return parse content.toList file

/-- The project file in a directory or the nearest one above it. -/
def find (directory : Path) : m (Option Path) :=
  (directory.ancestors.map (·.join fileName)).findM? FileAccess.isPresent

end Project

/-- The project file of an input: the one that is named, else the nearest one. -/
def projectFile (input : Path) (config : Option Path) : m (Option Path) :=
  match config with
  | some file => return some file
  | none => Project.find (input.parent?.getD ⟨['.']⟩)

/-- The options for an input: those of its project file, with tracking turned off on demand. -/
def resolveOptions (input : Path) (config : Option Path) (trackFree : Bool) :
    m (Except ConversionError Options) := do
  let adjust (options : Options) : Options :=
    if trackFree then { options with tracking := false } else options
  match ← projectFile input config with
  | none => return .ok (adjust Options.default)
  | some file =>
    match ← Project.load file with
    | .error fault => return .error (.badProject file fault)
    | .ok project => return .ok (adjust (Options.ofSettings project.settings))

end Steps

end VertexLanes
