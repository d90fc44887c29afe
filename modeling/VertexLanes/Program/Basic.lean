import VertexLanes.Class.Basic
import VertexLanes.Operator.Pairwise
import VertexLanes.Phase.Basic
import VertexLanes.Source.Diagnostic

/-!
# Vertex programs

The pieces of a source file from which a converted program is made: the data of
a vertex and of an edge, the message with the reductions that merge two of them,
and the class with the three phases.
-/

namespace VertexLanes

/-- The class with the data of a vertex. -/
def vertexDataName : String := "vertex_data"

/-- The class with the data of an edge. -/
def edgeDataName : String := "edge_data"

/-- The class of the message. -/
def messageName : String := "msg_type"

/-- The class with the phases. -/
def programName : String := "vertex_program"

/-- The base by which a class with the phases is known under another name. -/
def programBase : String := "ivertex_program"

/-- The method that merges two messages. -/
def accumulatorName : String := "operator+="

/-- The data kept at a vertex or an edge. -/
structure DataType where
  /-- Its name. -/
  name : String
  /-- Whether it is marked as plain data. -/
  pod : Bool
  /-- Its fields, in order. -/
  fields : List Field
deriving DecidableEq, Repr

/-- The reduction that merges one field of two messages. -/
structure Accumulation where
  /-- The name of the field. -/
  field : String
  /-- The reduction. -/
  op : PairwiseOp
deriving DecidableEq, Repr

/-- The message. -/
structure MessageType where
  /-- Its fields, in order. -/
  fields : List Field
  /-- How two messages are merged, in order. -/
  accumulations : List Accumulation
deriving DecidableEq, Repr

/-- The first field of a given name. -/
def MessageType.field? (m : MessageType) (name : String) : Option Field :=
  m.fields.find? (·.name == name)

/-- The method of a phase. -/
structure PhaseMethod where
  /-- The parameters, in order. -/
  params : List Field
  /-- The body. -/
  body : Node String

/-- The class with the three phases. -/
structure VertexProgram where
  /-- Its name. -/
  name : String
  /-- Its fields, in order. -/
  fields : List Field
  /-- The text of the method that chooses the edges to gather over, if there is one. -/
  gatherEdges : Option String
  /-- The text of the method that chooses the edges to scatter over, if there is one. -/
  scatterEdges : Option String
  /-- The gather phase. -/
  gather : PhaseMethod
  /-- The apply phase. -/
  apply : PhaseMethod
  /-- The scatter phase. -/
  scatter : PhaseMethod

namespace VertexProgram

/-- The method of a given phase. -/
def method (p : VertexProgram) : Phase → PhaseMethod
  | .gather => p.gather
  | .apply => p.apply
  | .scatter => p.scatter

/-- The name under which the apply phase is given the merged message: its last parameter. -/
def messageParam (p : VertexProgram) : String := (p.apply.params.getLast?.map (·.name)).getD ""

end VertexProgram

/-- What a program is told about when it is recovered from its source. -/
inductive ProgramNotice where
  /-- A message without a body for its accumulation. -/
  | noAccumulator
  /-- A statement of the accumulation that is no operation. -/
  | statementDropped (kind : NodeKind)
  /-- An operation of the accumulation that assigns nothing. -/
  | expressionDropped
  /-- An accumulation of something that is no field. -/
  | unknownField (field : String)
  /-- A method that has no place in the converted program. -/
  | methodDropped (method className : String)
deriving DecidableEq, Repr

/-- The pieces of a converted program. -/
structure SourceProgram where
  /-- The lines to be copied to its head. -/
  patch : List String
  /-- The data of a vertex. -/
  vertexData : DataType
  /-- The data of an edge, if the source gives any. -/
  edgeData : Option DataType
  /-- The message. -/
  message : MessageType
  /-- The class with the three phases. -/
  program : VertexProgram
  /-- What was left out, in order. -/
  notices : List (Located ProgramNotice)

end VertexLanes
