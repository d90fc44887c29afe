import VertexLanes.Path
import VertexLanes.Phase.Basic

/-!
# Command lines

A command line is read from left to right. The first argument that asks for help
or for the version, or that does not fit, settles what happens.
-/

namespace VertexLanes

/-- The commands. -/
inductive Subcommand where
  | convert
  | phases
  | tree
deriving DecidableEq, Repr

namespace Subcommand

/-- Every command. -/
def all : List Subcommand := [.convert, .phases, .tree]

/-- The name of a command. -/
def name : Subcommand → String
  | .convert => "convert"
  | .phases => "phases"
  | .tree => "tree"

/-- The command of a given name. -/
def ofName? (name : String) : Option Subcommand := all.find? fun s => s.name == name

end Subcommand

/-- Why a command line leads to no command. -/
inductive Stop where
  /-- Help is asked for, in general or on one command. -/
  | help (topic : Option Subcommand)
  /-- The version is asked for. -/
  | version
  /-- The command line does not fit. -/
  | misuse
deriving DecidableEq, Repr

/-- The options of commands. -/
inductive CommandOption where
  | output
  | config
  | phase
  | trackFree
  | help
deriving DecidableEq, Repr

namespace CommandOption

/-- The options of a command. -/
def ofSubcommand : Subcommand → List CommandOption
  | .convert => [.output, .config, .trackFree, .help]
  | .phases => [.phase, .config, .trackFree, .help]
  | .tree => [.phase, .help]

/-- The long name of an option. -/
def long : CommandOption → List Char
  | .output => "output".toList
  | .config => "config".toList
  | .phase => "phase".toList
  | .trackFree => "track-free".toList
  | .help => "help".toList

/-- The letter of an option. -/
def short? : CommandOption → Option Char
  | .output => some 'o'
  | .help => some 'h'
  | _ => none

/-- Whether an option has a value. -/
def takesValue : CommandOption → Bool
  | .output | .config | .phase => true
  | .trackFree | .help => false

end CommandOption

/-- What an argument is. -/
inductive Argument where
  /-- The end of all options. -/
  | escape
  /-- An option by its long name, with a value after an equals sign. -/
  | long (name : List Char) (value : Option (List Char))
  /-- An option by its letter, with what follows that. -/
  | short (letter : Char) (rest : List Char)
  /-- Anything else. -/
  | plain (text : List Char)
deriving DecidableEq, Repr

/-- Read one argument. -/
def Argument.ofText : List Char → Argument
  | ['-', '-'] => .escape
  | '-' :: '-' :: text =>
    match Text.cutAtChar '=' text with
    | some (name, value) => .long name (some value)
    | none => .long text none
  | '-' :: letter :: rest => .short letter rest
  | text => .plain text

/-- What a command line gives to a command. -/
structure Given where
  /-- The inputs, in order. -/
  inputs : List Path
  /-- The output. -/
  output : Option Path
  /-- The project file. -/
  config : Option Path
  /-- The phase. -/
  phase : Option Phase
  /-- Whether tracking is turned off. -/
  trackFree : Bool
deriving DecidableEq, Repr

namespace Given

/-- What an empty command line gives. -/
def nothing : Given := ⟨[], none, none, none, false⟩

/-- Set what can be set once only. -/
def once {α : Type} (before : Option α) (value : Option α) : Except Stop (Option α) :=
  match before, value with
  | none, some a => .ok (some a)
  | _, _ => .error .misuse

/-- A path; there is none without characters. -/
def path? (text : List Char) : Option Path := if text.isEmpty then none else some ⟨text⟩

/-- Add an input. Only conversion takes more than one. -/
def addInput (command : Subcommand) (g : Given) (text : List Char) : Except Stop Given :=
  match path? text with
  | none => .error .misuse
  | some p =>
    if command == .convert || g.inputs.isEmpty then .ok { g with inputs := g.inputs ++ [p] }
    else .error .misuse

/-- Give a value to an option. -/
def setValue (g : Given) (option : CommandOption) (value : List Char) : Except Stop Given :=
  match option with
  | .output => return { g with output := ← once g.output (path? value) }
  | .config => return { g with config := ← once g.config (path? value) }
  | .phase => return { g with phase := ← once g.phase (Phase.ofName? (String.ofList value)) }
  | .trackFree | .help => .error .misuse

/-- Take an option without a value. -/
def setFlag (command : Subcommand) (g : Given) (option : CommandOption) : Except Stop Given :=
  match option with
  | .trackFree => if g.trackFree then .error .misuse else .ok { g with trackFree := true }
  | .help => .error (.help (some command))
  | .output | .config | .phase => .error .misuse

/-- What an argument asks of the ones after it. -/
inductive Progress where
  /-- Nothing. -/
  | done (g : Given)
  /-- The next one is the value of an option. -/
  | valueOf (option : CommandOption)
  /-- All others are inputs. -/
  | inputsOnly

/-- Take an option that may have a value attached. -/
def takeOption (command : Subcommand) (g : Given) (option : CommandOption)
    (attached : Option (List Char)) : Except Stop Progress :=
  match option.takesValue, attached with
  | true, some value => return .done (← g.setValue option value)
  | true, none => .ok (.valueOf option)
  | false, some _ => .error .misuse
  | false, none => return .done (← g.setFlag command option)

/-- What follows the letter of an option that has a value. -/
def attachedToLetter : List Char → Option (List Char)
  | [] => none
  | '=' :: value => some value
  | value => some value

/-- Take one argument. -/
def take (command : Subcommand) (g : Given) (argument : Argument) : Except Stop Progress :=
  let options := CommandOption.ofSubcommand command
  match argument with
  | .escape => .ok .inputsOnly
  | .plain text => return .done (← g.addInput command text)
  | .long name value =>
    match options.find? fun o => o.long == name with
    | none => .error .misuse
    | some option => g.takeOption command option value
  | .short letter rest =>
    match options.find? fun o => o.short? == some letter with
    | none => .error .misuse
    | some option =>
      g.takeOption command option (if option.takesValue then attachedToLetter rest else none)

/-- Take all arguments. The value of an option does not look like an option itself. -/
def takeAll (command : Subcommand) (g : Given) : List (List Char) → Except Stop Given
  | [] => .ok g
  | text :: texts =>
    match g.take command (Argument.ofText text) with
    | .error stop => .error stop
    | .ok (.done g) => takeAll command g texts
    | .ok .inputsOnly => texts.foldlM (addInput command) g
    | .ok (.valueOf option) =>
      match texts with
      | [] => .error .misuse
      | value :: texts =>
        match Argument.ofText value with
        | .plain value =>
          match g.setValue option value with
          | .error stop => .error stop
          | .ok g => takeAll command g texts
        | _ => .error .misuse

end Given

/-- A command with all it needs. -/
inductive Command where
  /-- Convert files. -/
  | convert (inputs : List Path) (output config : Option Path) (trackFree : Bool)
  /-- Print converted phases. -/
  | phases (input : Path) (phase : Option Phase) (config : Option Path) (trackFree : Bool)
  /-- Print the annotated body of a phase. -/
  | tree (input : Path) (phase : Phase)
deriving DecidableEq, Repr

namespace Command

/-- The command for what is given, if that is enough. -/
def ofGiven : Subcommand → Given → Except Stop Command
  | .convert, g =>
    if g.inputs.isEmpty then .error .misuse
    else .ok (.convert g.inputs g.output g.config g.trackFree)
  | .phases, g =>
    match g.inputs.head? with
    | some input => .ok (.phases input g.phase g.config g.trackFree)
    | none => .error .misuse
  | .tree, g =>
    match g.inputs.head?, g.phase with
    | some input, some phase => .ok (.tree input phase)
    | _, _ => .error .misuse

/-- What help on the given topics comes to. -/
def helpStop : List String → Stop
  | [] => .help none
  | [topic] =>
    match Subcommand.ofName? topic with
    | some command => .help (some command)
    | none => if topic == "help" then .help none else .misuse
  | _ => .misuse

/-- Read a command line. -/
def parse : List String → Except Stop Command
  | [] => .error .misuse
  | first :: rest =>
    match Subcommand.ofName? first with
    | some command => do
      let given ← Given.nothing.takeAll command (rest.map String.toList)
      ofGiven command given
    | none =>
      match Argument.ofText first.toList with
      | .plain text => .error (if text == "help".toList then helpStop rest else .misuse)
      | .long name none =>
        .error (if name == "help".toList then .help none
          else if name == "version".toList then .version else .misuse)
      | .short 'h' _ => .error (.help none)
      | .short 'V' _ => .error .version
      | _ => .error .misuse

end Command

end VertexLanes
