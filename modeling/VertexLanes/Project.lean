import VertexLanes.File.Access
import VertexLanes.Options
import VertexLanes.Source.Diagnostic
import VertexLanes.Text.Blank
import VertexLanes.Text.Lines

/-!
# Project files

A project file holds the options for the programs below its directory. It is a
sequence of sections with one entry a line, of which only the entries of one
section are looked at. A number sign outside quotation marks begins a comment.
-/

namespace VertexLanes

/-- What a project file says about conversions. -/
structure Settings where
  /-- Whether messages record no lanes. -/
  trackFree : Option Bool
  /-- The vector template. -/
  vectorType : Option String
  /-- The expression for the number of lanes. -/
  lanes : Option String
deriving DecidableEq, Repr

/-- The settings of a file that says nothing. -/
def Settings.none : Settings := ⟨.none, .none, .none⟩

/-- A project. -/
structure Project where
  /-- The directory of its file. -/
  rootDir : Path
  /-- What its file says. -/
  settings : Settings
deriving DecidableEq, Repr

/-- The options of a project. What it does not say stays at its default. -/
def Options.ofSettings (s : Settings) : Options :=
  ⟨!s.trackFree.getD false, s.vectorType.getD Options.default.vectorType,
    s.lanes.getD Options.default.lanes⟩

/-- Why a project file is refused. -/
inductive ProjectFault where
  /-- A file that cannot be read. -/
  | unreadable (file : Path) (reason : FileError)
  /-- A value that is neither true nor false. -/
  | notBool (key : String) (file : Path) (found : String)
  /-- A key that means nothing. -/
  | unknownKey (key : String) (file : Path)
deriving DecidableEq, Repr

instance : Explains ProjectFault where
  severity := .error
  message
    | .unreadable file reason => "cannot read '" ++ file.text ++ "': " ++ reason.message
    | .notBool key file found =>
      "'" ++ key ++ "' in '" ++ file.text ++ "' must be true or false, found '" ++ found ++ "'"
    | .unknownKey key file => "unknown key '" ++ key ++ "' in [convert] of '" ++ file.text ++ "'"
  help
    | .unknownKey _ _ => some "known keys: track_free, vector_type, lanes"
    | _ => none

namespace Project

/-- The name of a project file. -/
def fileName : List Char := "automi.toml".toList

/-- The section that is looked at. -/
def convertSection : List Char := "convert".toList

/-- A line of a project file. -/
inductive Line where
  /-- A line that says nothing. -/
  | idle
  /-- The beginning of a section. -/
  | header (name : List Char)
  /-- A key and its value. -/
  | entry (key value : List Char)
deriving DecidableEq, Repr

/-- Cut a value at its first number sign outside quotation marks. -/
def cutComment (quoted : Bool) : List Char → List Char
  | [] => []
  | c :: text =>
    if c = '#' ∧ quoted = false then []
    else c :: cutComment (if c = '"' then !quoted else quoted) text

/-- Read a line. A key may stand in quotation marks. -/
def Line.ofText (text : List Char) : Line :=
  let line := Text.trim text
  if line.isEmpty || line.head? == some '#' then .idle
  else if line.head? == some '[' && line.getLast? == some ']' then
    .header (Text.trim line.tail.dropLast)
  else
    match Text.cutAtChar '=' line with
    | some (key, value) =>
      .entry (Text.trimChar '"' (Text.trim key)) (Text.trim (cutComment false value))
    | none => .idle

/-- Take over an entry. A later entry replaces an earlier one. -/
def assign (file : Path) (s : Settings) (key value : List Char) : Except ProjectFault Settings :=
  match String.ofList key with
  | "track_free" =>
    match String.ofList value with
    | "true" => .ok { s with trackFree := some true }
    | "false" => .ok { s with trackFree := some false }
    | found => .error (.notBool "track_free" file found)
  | "vector_type" => .ok { s with vectorType := some (String.ofList (Text.trimChar '"' value)) }
  | "lanes" => .ok { s with lanes := some (String.ofList (Text.trimChar '"' value)) }
  | key => .error (.unknownKey key file)

/-- Take over lines that follow the beginning of a section. -/
def readLines (file : Path) (name : List Char) (s : Settings) :
    List (List Char) → Except ProjectFault Settings
  | [] => .ok s
  | text :: texts =>
    match Line.ofText text with
    | .idle => readLines file name s texts
    | .header name => readLines file name s texts
    | .entry key value => do
      let s ← if name = convertSection then assign file s key value else pure s
      readLines file name s texts

/-- Read the content of a project file. -/
def parse (content : List Char) (file : Path) : Except ProjectFault Project := do
  let settings ← readLines file [] Settings.none (Text.lines content)
  return ⟨file.parent?.getD ⟨['.']⟩, settings⟩

end Project

end VertexLanes
