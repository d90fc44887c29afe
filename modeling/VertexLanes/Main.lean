import VertexLanes.Command.Run

/-!
# The command line program
-/

namespace VertexLanes

/-- The error for what the system reports. -/
def fileErrorOf : IO.Error → FileError
  | .noFileOrDirectory .. => .notFound
  | .inappropriateType _ 20 _ => .notDirectory
  | .inappropriateType _ 21 _ => .isDirectory
  | e => .other (toString e)

/-- Run a step and keep its error. -/
def attempt {α : Type} (step : IO α) : IO (Except FileError α) := do
  try return .ok (← step)
  catch e => return .error (fileErrorOf e)

instance : FileAccess IO where
  read p := do
    match ← attempt (IO.FS.readBinFile p.text) with
    | .error e => return .error e
    | .ok content =>
      match String.fromUTF8? content with
      | none => return .error .notText
      | some text => return .ok text
  write p text := attempt (IO.FS.writeFile p.text text)
  isPresent p := do
    match ← attempt (IO.FS.Handle.mk p.text .read) with
    | .ok _ => return true
    | .error _ => return false

/-- How commands are used. -/
def usageLines : Option Subcommand → List String
  | none => ["Usage: automi <COMMAND>", "", "Commands:", "  convert  Convert vertex program files",
    "  phases   Print the converted phase bodies of a program",
    "  tree     Print the annotated tree of one phase as JSON"]
  | some .convert => ["Usage: automi convert [OPTIONS] <INPUTS>...", "", "Options:",
    "  -o, --output <OUTPUT>  Output file (single input only)",
    "      --track-free       Emit code without per-message track masks",
    "      --config <PATH>    Project file to use instead of searching for automi.toml"]
  | some .phases => ["Usage: automi phases [OPTIONS] <INPUT>", "", "Options:",
    "      --phase <PHASE>  Print only this phase (gather, apply or scatter)",
    "      --track-free     Convert without per-message track masks",
    "      --config <PATH>  Project file to use instead of searching for automi.toml"]
  | some .tree => ["Usage: automi tree --phase <PHASE> <INPUT>", "", "Options:",
    "      --phase <PHASE>  Phase whose annotated tree to print"]

/-- The lines of a message. -/
def Message.lines : Message → List String
  | .line text => [text]
  | .diagnostic d =>
    [d.headline] ++ d.notes.map ("  Note: " ++ ·) ++ (d.help.map ("  Help: " ++ ·)).toList

/-- Show an outcome and give its status. -/
def Outcome.present (o : Outcome) : IO UInt32 := do
  for message in o.messages do
    for line in message.lines do IO.eprintln line
  IO.print o.output
  return o.status.toUInt32

end VertexLanes

open VertexLanes in
/-- Read the command line and do what it says. -/
def main (args : List String) : IO UInt32 := do
  match Command.parse args with
  | .ok command => (← command.run).present
  | .error .version =>
    IO.println versionText
    return 0
  | .error (.help topic) =>
    for line in usageLines topic do IO.println line
    return 0
  | .error .misuse =>
    for line in usageLines none do IO.eprintln line
    Outcome.misuse.present
