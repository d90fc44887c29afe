import VertexLanes.Body.Annotate
import VertexLanes.Class.Parser
import VertexLanes.Program.Basic

/-!
# Recovering a vertex program

The pieces of a program are found among the classes of a source file by their
names. Every missing piece is reported, then everything wrong with the message,
then everything wrong with the phases.
-/

namespace VertexLanes

/-- The method that chooses the edges to gather over. -/
def gatherEdgesName : String := "gather_edges"

/-- The method that chooses the edges to scatter over. -/
def scatterEdgesName : String := "scatter_edges"

/-- The methods of a program that are kept or made anew. -/
def knownMethods : List String :=
  [gatherEdgesName, scatterEdgesName, "save", "load"] ++ Phase.all.map Phase.name

/-- Why no program is recovered. -/
inductive ProgramFault where
  /-- A class that is not there. -/
  | missing (name : String)
  /-- An accumulation that is none of the reductions. -/
  | noReduction (field : String)
  /-- A phase without a method. -/
  | noMethod (className : String) (phase : Phase)
  /-- A phase whose method has no body. -/
  | noBody (phase : Phase)
  /-- A phase whose body has no statements. -/
  | emptyBody (phase : Phase)
  /-- An apply phase that is given no message. -/
  | noMessageParam
deriving DecidableEq, Repr

instance : Explains ProgramFault where
  severity := .error
  message
    | .missing name => "missing '" ++ name ++ "' in the source program"
    | .noReduction field => "accumulation of '" ++ field ++ "' matches no pairwise reduction"
    | .noMethod className phase => "'" ++ className ++ "' has no " ++ phase.name ++ " method"
    | .noBody phase => phase.name ++ " is declared without a body"
    | .emptyBody phase => "the " ++ phase.name ++ " body has no statements to convert"
    | .noMessageParam => "apply takes no parameters"
  help
    | .missing _ =>
      some ("a vertex program needs vertex_data, msg_type and a class deriving " ++ programBase)
    | .noReduction _ =>
      some ("supported reductions: " ++
        String.intercalate ", " (PairwiseOp.all.map PairwiseOp.spelling))
    | .noMessageParam => some "the accumulated message must be the last parameter"
    | _ => none

instance : Explains ProgramNotice where
  severity := .warning
  message
    | .noAccumulator => "'" ++ messageName ++ "' has no " ++ accumulatorName ++ " body"
    | .statementDropped kind => kind.name ++ " dropped from " ++ accumulatorName
    | .expressionDropped => "expression without assignment dropped from " ++ accumulatorName
    | .unknownField field => accumulatorName ++ " accumulates unknown field '" ++ field ++ "'"
    | .methodDropped method className =>
      "method '" ++ method ++ "' of '" ++ className ++ "' dropped from the converted program"
  notes
    | .noAccumulator => ["the converted accumulator only merges the track mask"]
    | _ => []

namespace Recovery

/-- The fields of a class: the parameters of its first constructor that has any, else its data
members. -/
def fieldList (c : ClassDef) : List Field :=
  match c.constructors.find? fun m => !m.params.isEmpty with
  | some constructor => constructor.params
  | none => c.fields.map Located.item

/-- The data that a class describes. -/
def dataType (c : ClassDef) : DataType := ⟨c.name.item, c.isPod, fieldList c⟩

/-- What a statement of the accumulation comes to. -/
inductive Accumulated where
  /-- Nothing to merge. -/
  | nothing
  /-- A reduction of a field. -/
  | reduction (a : Accumulation)
  /-- A statement that is left out. -/
  | dropped (notice : ProgramNotice)
  /-- A statement that cannot be left out. -/
  | refused (fault : ProgramFault)
deriving DecidableEq, Repr

/-- The field that an accumulation assigns, without the object in front of it. -/
def assignedField (target : List String) : String :=
  let text := (String.join target).toList
  let own := "this->".toList
  String.ofList (if own.isPrefixOf text then text.drop own.length else text)

/-- The reduction of an accumulation: that of its sign, or after a plain `=` the first one to occur
in what is assigned. -/
def reduction? (sign : String) (value : List String) : Option PairwiseOp :=
  if sign == "=" then PairwiseOp.find? (String.join value)
  else PairwiseOp.find? (String.ofList (Text.dropEndWhile (· == '=') sign.toList))

/-- Read one statement of the accumulation of a message with the given fields. -/
def accumulated (fields : List Field) (n : Node String) : Accumulated :=
  match n.kind with
  | .return => .nothing
  | .operation =>
    match cutAssignment? n.tokens with
    | none => .dropped .expressionDropped
    | some (target, sign, value) =>
      let field := assignedField target
      match reduction? sign value with
      | none => .refused (.noReduction field)
      | some op =>
        if fields.any (·.name == field) then .reduction ⟨field, op⟩
        else .dropped (.unknownField field)
  | kind => .dropped (.statementDropped kind)

/-- The reductions among what the statements come to. -/
def reductionsOf (lines : List (Located Accumulated)) : List Accumulation :=
  lines.filterMap fun l =>
    match l.item with
    | .reduction a => some a
    | _ => none

/-- The notices among what the statements come to. -/
def noticesOf (lines : List (Located Accumulated)) : List (Located ProgramNotice) :=
  lines.filterMap fun l =>
    match l.item with
    | .dropped notice => some ⟨notice, l.span⟩
    | _ => none

/-- The faults among what the statements come to. -/
def refusalsOf (lines : List (Located Accumulated)) : List (Located ProgramFault) :=
  lines.filterMap fun l =>
    match l.item with
    | .refused fault => some ⟨fault, l.span⟩
    | _ => none

/-- The message that a class describes, and what is left out of it. -/
def message (c : ClassDef) :
    Except (List (Located ProgramFault)) (MessageType × List (Located ProgramNotice)) :=
  let fields := fieldList c
  match (c.method? accumulatorName).bind Method.body with
  | none => .ok (⟨fields, []⟩, [⟨.noAccumulator, c.name.span⟩])
  | some body =>
    let lines : List (Located Accumulated) :=
      body.children.map fun n => ⟨accumulated fields (n.map Token.spelling), n.span⟩
    match refusalsOf lines with
    | [] => .ok (⟨fields, reductionsOf lines⟩, noticesOf lines)
    | faults => .error faults

/-- The method of a phase. The apply phase needs a parameter for the message. -/
def phaseMethod (c : ClassDef) (phase : Phase) : Except (Located ProgramFault) PhaseMethod :=
  match c.method? phase.name with
  | none => .error ⟨.noMethod c.name.item phase, c.name.span⟩
  | some m =>
    match m.body with
    | none => .error ⟨.noBody phase, m.span⟩
    | some body =>
      if body.children.isEmpty then .error ⟨.emptyBody phase, body.span⟩
      else if phase == .apply && m.params.isEmpty then .error ⟨.noMessageParam, m.span⟩
      else .ok ⟨m.params, body.map Token.spelling⟩

/-- The methods that have no place in the converted program. -/
def droppedMethods (c : ClassDef) : List (Located ProgramNotice) :=
  (c.methods.filter fun m => !knownMethods.contains m.name).map fun m =>
    ⟨.methodDropped m.name c.name.item, m.span⟩

/-- The text of a method as it stands in the source. -/
def verbatim (source : List Char) (m : Method) : String := String.ofList (m.span.slice source)

/-- The program that a class describes. -/
def vertexProgram (source : List Char) (c : ClassDef) :
    Except (List (Located ProgramFault)) VertexProgram :=
  match phaseMethod c .gather, phaseMethod c .apply, phaseMethod c .scatter with
  | .ok gather, .ok apply, .ok scatter =>
    .ok
      { name := c.name.item
        fields := c.fields.map Located.item
        gatherEdges := (c.method? gatherEdgesName).map (verbatim source)
        scatterEdges := (c.method? scatterEdgesName).map (verbatim source)
        gather, apply, scatter }
  | gather, apply, scatter => .error ([gather, apply, scatter].filterMap fault?)

/-- The class with the phases: by its name, else by its base. -/
def programClass? (file : SourceFile) : Option ClassDef :=
  (file.class? programName).or (file.classes.find? fun c => c.derives programBase)

/-- The fault of a class that is not there. -/
def missing (name : String) (c : Option ClassDef) : List (Located ProgramFault) :=
  if c.isNone then [⟨.missing name, Span.nowhere⟩] else []

/-- Recover the program of a source file. -/
def program (source : List Char) (file : SourceFile) :
    Except (List (Located ProgramFault)) SourceProgram :=
  let vertexClass := file.class? vertexDataName
  let messageClass := file.class? messageName
  let programClass := programClass? file
  match vertexClass, messageClass.map message, programClass.map (vertexProgram source) with
  | some v, some (.ok (message, notices)), some (.ok program) =>
    .ok
      { patch := file.patch
        vertexData := dataType v
        edgeData := (file.class? edgeDataName).map dataType
        message, program
        notices := notices ++ (programClass.map droppedMethods).getD [] }
  | _, message, program =>
    .error <|
      missing vertexDataName vertexClass ++ missing messageName messageClass ++
        missing programName programClass ++
        ((message.bind fault?).getD [] ++ (program.bind fault?).getD [])

end Recovery

/-- Recover the program of a source text. -/
def parseProgram (source : List Char) : Except (List Diagnostic) SourceProgram := do
  let file ← parseFile source
  (Recovery.program source file).mapError fun faults => faults.map Located.diagnostic

end VertexLanes
