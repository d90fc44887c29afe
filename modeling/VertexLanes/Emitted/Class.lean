import VertexLanes.Phase.Conversion
import VertexLanes.Program.Basic
import VertexLanes.Text.Blank
import VertexLanes.Text.Lines

/-!
# Classes of a converted program

The classes that a conversion writes, with every member and every statement in a
form of its own, so that what a class declares, sizes, saves and loads can be
read off it. Their text is made in one place.
-/

namespace VertexLanes.Emitted

/-- A statement of an emitted method. -/
inductive Step where
  /-- Give a vector field one slot a lane. -/
  | resize (field : Field)
  /-- Set every lane of a field. -/
  | fill (name value : String)
  /-- Set the one lane that a message is for. -/
  | setLane (name value : String)
  /-- Copy a vector that was passed in. -/
  | copy (field : Field)
  /-- Merge a field with that of the other message. -/
  | reduce (op : PairwiseOp) (field : Field)
  /-- Give back the object itself. -/
  | returnSelf
  /-- Write a field to an archive. -/
  | write (name : String)
  /-- Read a field from an archive. -/
  | read (name : String)
  /-- Keep the lanes that a message was sent for. -/
  | keepTrack (messageParam : String)
  /-- A line of a converted body. -/
  | code (line : String)
deriving DecidableEq, Repr

/-- What an emitted method is for. -/
inductive Role where
  /-- The constructor without parameters. -/
  | blank (className : String)
  /-- The constructor of a message for one lane, with a value for each field. -/
  | lane (className : String) (fields : List Field)
  /-- The constructor with a vector for each field. -/
  | vectors (className : String) (fields : List Field)
  /-- The accumulation of two messages. -/
  | accumulate (className : String)
  /-- Writing to an archive. -/
  | save
  /-- Reading from an archive. -/
  | load
  /-- A phase. -/
  | phase (phase : Phase) (params : List Field)
deriving DecidableEq, Repr

/-- A member of an emitted class. -/
inductive Member where
  /-- A data member with one slot a lane. -/
  | vectorField (field : Field)
  /-- A data member that all lanes share. -/
  | sharedField (field : Field)
  /-- A method. -/
  | method (role : Role) (body : List Step)
  /-- A constructor that only takes over a vector for each field. -/
  | vectorInit (className : String) (fields : List Field)
  /-- A constructor that only takes over a value for each field. -/
  | sharedInit (className : String) (fields : List Field)
  /-- A method copied from the source. -/
  | verbatim (text : String)
  /-- The beginning of the public part. -/
  | publicPart
  /-- An empty line. -/
  | gap
deriving DecidableEq, Repr

/-- What an emitted class is. -/
inductive Kind where
  /-- A type of data or messages. -/
  | record
  /-- A type of data that is marked as plain. -/
  | podRecord
  /-- The class with the phases. -/
  | program
deriving DecidableEq, Repr

/-- An emitted class. -/
structure EmittedClass where
  /-- What it is. -/
  kind : Kind
  /-- Its name. -/
  name : String
  /-- Its members, in order. -/
  members : List Member
deriving DecidableEq, Repr

/-- The vector type with a given element. -/
def vectorOf (options : Options) (element : String) : String :=
  options.vectorType ++ "<" ++ element ++ ">"

/-- Texts with commas between them. -/
def commaSeparated (items : List String) : String := String.intercalate ", " items

/-- A parameter with its default value. -/
def paramText (p : Field) : String :=
  match p.value with
  | some value => p.type ++ " " ++ p.name ++ " = " ++ value
  | none => p.type ++ " " ++ p.name

/-- A vector parameter. -/
def vectorParam (options : Options) (type name : String) : String :=
  "const " ++ vectorOf options type ++ "& " ++ name

/-- The name of the parameter for a field. -/
def paramName (name : String) : String := name ++ "_in"

/-- The initialisers that take over a parameter for each field. -/
def initializers (fields : List Field) : String :=
  commaSeparated (fields.map fun f => f.name ++ "(" ++ f.name ++ ")")

/-- The line of a statement. The lines of a converted body have an indentation of their own. -/
def Step.line (options : Options) : Step → String
  | .resize f =>
    indented 2 (f.name ++ " = " ++ vectorOf options f.type ++ "(" ++ options.lanes ++ ");")
  | .fill name value => indented 2 (name ++ ".set_all(" ++ value ++ ");")
  | .setLane name value => indented 2 (name ++ ".set_single(" ++ value ++ ", idx);")
  | .copy f =>
    indented 2 (f.name ++ " = " ++ vectorOf options f.type ++ "(" ++ paramName f.name ++ ");")
  | .reduce op f =>
    indented 2 (vectorOf options f.type ++ "::" ++ op.primitive ++
      "(" ++ f.name ++ ", other." ++ f.name ++ ");")
  | .returnSelf => indented 2 "return *this;"
  | .write name => indented 2 ("oarc << " ++ name ++ ";")
  | .read name => indented 2 ("iarc >> " ++ name ++ ";")
  | .keepTrack messageParam =>
    indented 2 (programTrack ++ " = " ++ messageParam ++ "." ++ trackField ++ ";")
  | .code line => indented 1 line

/-- The head of a method. -/
def Role.signature (options : Options) : Role → String
  | .blank className => className ++ "()"
  | .lane className fields =>
    className ++ "(" ++
      commaSeparated (fields.map (fun f => f.type ++ " " ++ paramName f.name) ++ ["size_t idx"]) ++
      ")"
  | .vectors className fields =>
    className ++ "(" ++
      commaSeparated (fields.map fun f => vectorParam options f.type (paramName f.name)) ++ ")"
  | .accumulate className =>
    className ++ "& " ++ accumulatorName ++ "(const " ++ className ++ "& other)"
  | .save => "void save(graphlab::oarchive &oarc) const"
  | .load => "void load(graphlab::iarchive &iarc)"
  | .phase .gather params =>
    messageName ++ " gather(" ++ commaSeparated (params.map paramText) ++ ") const"
  | .phase .apply params => "void apply(" ++ commaSeparated (params.map paramText) ++ ")"
  | .phase .scatter params =>
    "void scatter(" ++ commaSeparated (params.map paramText) ++ ") const"

/-- The lines of a text from the source. Its first line is a member's, the others keep their
indentation, and no line ends in blanks. -/
def verbatimLines (text : String) : List String :=
  match (Text.lines text.toList).map fun line => String.ofList (Text.trimEnd line) with
  | [] => []
  | first :: others => indented 1 first :: others

/-- The lines of a member. -/
def Member.lines (options : Options) : Member → List String
  | .vectorField f => [indented 1 (vectorOf options f.type ++ " " ++ f.name ++ ";")]
  | .sharedField f => [indented 1 (f.type ++ " " ++ f.name ++ ";")]
  | .method role body =>
    [indented 1 (role.signature options ++ " \x7b")] ++ body.map (Step.line options) ++
      [indented 1 "\x7d"]
  | .vectorInit className fields =>
    [indented 1 ("explicit " ++ className ++ "(" ++
      commaSeparated (fields.map fun f => vectorParam options f.type f.name) ++ ") : " ++
      initializers fields ++ " \x7b\x7d")]
  | .sharedInit className fields =>
    [indented 1 (className ++ "(" ++ commaSeparated (fields.map paramText) ++ ") : " ++
      initializers fields ++ " \x7b\x7d")]
  | .verbatim text => verbatimLines text
  | .publicPart => ["public:"]
  | .gap => [""]

/-- The head of a class. -/
def EmittedClass.head (c : EmittedClass) : String :=
  match c.kind with
  | .record => "struct " ++ c.name
  | .podRecord => "struct " ++ c.name ++ " : graphlab::IS_POD_TYPE"
  | .program =>
    "class " ++ c.name ++ " : public graphlab::" ++ programBase ++ "<graph_type, " ++
      messageName ++ ", " ++ messageName ++ ">"

/-- How the comment after a class calls it. -/
def EmittedClass.title (c : EmittedClass) : String :=
  match c.kind with
  | .program => "vertex program class"
  | _ => c.name

/-- The lines of a class. -/
def EmittedClass.lines (options : Options) (c : EmittedClass) : List String :=
  [c.head ++ " \x7b"] ++ c.members.flatMap (Member.lines options) ++ ["\x7d; // end of " ++ c.title]

end VertexLanes.Emitted
