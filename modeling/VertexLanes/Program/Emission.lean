import VertexLanes.Emitted.Class

/-!
# Emitting the converted program

Every field of the vertex data, the message and the program becomes a vector with
one slot a lane. The data of edges is shared by all lanes and stays as it is. With
tracking on, the message and the program have one more field for a mask.
-/

namespace VertexLanes

namespace Emission

open Emitted

/-- The field of the message for the lanes it was sent for. -/
def messageTrack : Field := ⟨trackField, "bool", some "false"⟩

/-- A field together with the one for the mask, if that is wanted. -/
def tracked (options : Options) (fields : List Field) (track : Field) : List Field :=
  if options.tracking then fields ++ [track] else fields

/-- Size a field, and fill it if it has a value. -/
def sized (f : Field) : List Step := .resize f :: (f.value.map (Step.fill f.name)).toList

/-- The methods that write fields to an archive and read them back. -/
def archive (fields : List Field) : List Member :=
  [.method .save (fields.map fun f => .write f.name),
    .method .load (fields.map fun f => .read f.name)]

/-- The class for the data of a vertex. -/
def vertexData (d : DataType) : EmittedClass :=
  ⟨.record, d.name,
    d.fields.map Member.vectorField ++ [.method (.blank d.name) (d.fields.flatMap sized)] ++
      (if d.fields.isEmpty then [] else [.vectorInit d.name d.fields]) ++ archive d.fields⟩

/-- The class for the data of an edge. Plain data needs no archive methods. -/
def edgeData (d : DataType) : EmittedClass :=
  ⟨if d.pod then .podRecord else .record, d.name,
    d.fields.map Member.sharedField ++
      (if d.fields.isEmpty then [] else [.sharedInit d.name d.fields]) ++
      (if d.pod then [] else archive d.fields)⟩

/-- Size a field and set the lane that the message is for. -/
def sizedLane (f : Field) (value : String) : List Step := sized f ++ [.setLane f.name value]

/-- The constructor of a message for one lane. -/
def laneConstructor (options : Options) (fields : List Field) : Member :=
  .method (.lane messageName fields)
    (fields.flatMap (fun f => sizedLane f (paramName f.name)) ++
      (if options.tracking then sizedLane messageTrack "true" else []))

/-- The accumulation of two messages. Their masks are joined before anything else. -/
def accumulator (options : Options) (m : MessageType) : Member :=
  .method (.accumulate messageName)
    ((if options.tracking then [.reduce .or messageTrack] else []) ++
      (m.accumulations.filterMap fun a => (m.field? a.field).map (Step.reduce a.op)) ++
      [.returnSelf])

/-- The class of the message. -/
def message (options : Options) (m : MessageType) : EmittedClass :=
  let fields := tracked options m.fields messageTrack
  ⟨.record, messageName,
    fields.map Member.vectorField ++
      [.method (.blank messageName) (fields.flatMap sized), laneConstructor options m.fields] ++
      (if fields.isEmpty then [] else [.method (.vectors messageName fields) (fields.map .copy)]) ++
      [accumulator options m] ++ archive fields⟩

/-- A text of the source with an empty line before it. -/
def kept (text : Option String) : List Member :=
  match text with
  | some text => [.gap, .verbatim text]
  | none => []

/-- The method of a converted phase, with an empty line before it. The apply phase first keeps the
lanes its message was sent for. -/
def phaseMethod (options : Options) (p : VertexProgram) (output : PhaseOutput) : List Member :=
  let track : List Step :=
    if options.tracking && output.phase == .apply then [.keepTrack p.messageParam] else []
  [.gap, .method (.phase output.phase (p.method output.phase).params)
    (track ++ output.lines.map Step.code)]

/-- The class with the phases. -/
def program (options : Options) (p : VertexProgram) (outputs : List PhaseOutput) : EmittedClass :=
  let fields := tracked options p.fields ⟨programTrack, "bool", none⟩
  ⟨.program, p.name,
    fields.map Member.vectorField ++ [.publicPart] ++ kept p.gatherEdges ++
      outputs.flatMap (phaseMethod options p) ++ kept p.scatterEdges ++ [.gap] ++ archive fields⟩

/-- The lines before the patch. -/
def header : List String := ["#include <graphlab.hpp>", "#include <limits>"]

/-- What the program says of its graph. -/
def graphLines : List String :=
  ["typedef graphlab::distributed_graph<vertex_data, edge_data> graph_type;",
    "inline graph_type::vertex_type",
    "get_other_vertex(const graph_type::edge_type& edge,",
    "                 const graph_type::vertex_type& vertex) \x7b",
    indented 1 "return edge.source().id() == vertex.id() ? edge.target() : edge.source();",
    "\x7d"]

/-- The lines for the data of an edge. -/
def edgeLines (options : Options) : Option DataType → List String
  | some d => (edgeData d).lines options
  | none => ["typedef graphlab::empty " ++ edgeDataName ++ ";"]

/-- The lines of the converted program. -/
def lines (options : Options) (s : SourceProgram) (outputs : List PhaseOutput) : List String :=
  header ++ s.patch ++ [""] ++
    (vertexData s.vertexData).lines options ++ [""] ++
    edgeLines options s.edgeData ++ [""] ++
    (message options s.message).lines options ++ [""] ++
    graphLines ++ [""] ++
    (program options s.program outputs).lines options

end Emission

/-- The text of the converted program. -/
def emit (options : Options) (s : SourceProgram) (outputs : List PhaseOutput) : String :=
  String.intercalate "\n" (Emission.lines options s outputs) ++ "\n"

end VertexLanes
