import VertexLanes.Program.Emission

/-!
# The fields of emitted classes

An emitted class goes through its fields many times: it declares them, its
constructors size, set or take them over, and two methods write them to an archive
and read them back. Here the text of a class is written from one list for each
time, so that the lists can differ, and nothing else in it is left open. The text
that a conversion emits is of this form, with one and the same list every time:
the fields of the source, and behind them one for a mask exactly if messages are
tracked.
-/

namespace VertexLanes

namespace Emitted

/-! ## Lines about fields -/

section
variable (options : Options)

/-- The line that declares a field. -/
def declarationLine (f : Field) : String :=
  "  " ++ (options.vectorType ++ "<" ++ f.type ++ ">" ++ " " ++ f.name ++ ";")

/-- The lines that size a field and fill it with its value if it has one. -/
def sizingLines (f : Field) : List String :=
  ("    " ++ (f.name ++ " = " ++ (options.vectorType ++ "<" ++ f.type ++ ">") ++ "(" ++
      options.lanes ++ ");")) ::
    match f.value with
    | some value => ["    " ++ (f.name ++ ".set_all(" ++ value ++ ");")]
    | none => []

/-- The lines that size a field and set it for the lane of a message. -/
def laneLines (f : Field) (value : String) : List String :=
  sizingLines options f ++ ["    " ++ (f.name ++ ".set_single(" ++ value ++ ", idx);")]

/-- The line that copies the vector for a field. -/
def copyingLine (f : Field) : String :=
  "    " ++ (f.name ++ " = " ++ (options.vectorType ++ "<" ++ f.type ++ ">") ++ "(" ++
    (f.name ++ "_in") ++ ");")

/-- A parameter for the vector of a field. -/
def vectorText (f : Field) (name : String) : String :=
  "const " ++ (options.vectorType ++ "<" ++ f.type ++ ">") ++ "& " ++ name

/-- A constructor without parameters that sizes some fields. -/
def blankConstructor (className : String) (sized : List Field) : List String :=
  ["  " ++ (className ++ "()" ++ " \x7b")] ++ sized.flatMap (sizingLines options) ++ ["  \x7d"]

/-- A constructor that takes vectors for some fields and initialises some. -/
def initConstructor (className : String) (taken initialised : List Field) : List String :=
  ["  " ++ ("explicit " ++ className ++ "(" ++
    String.intercalate ", " (taken.map fun f => vectorText options f f.name) ++ ") : " ++
    String.intercalate ", " (initialised.map fun f => f.name ++ "(" ++ f.name ++ ")") ++
    " \x7b\x7d")]

/-- A constructor of the message that takes a value for some fields and sizes and sets some. -/
def laneConstructor (given : List Field) (set : List (Field × String)) : List String :=
  ["  " ++ ("msg_type" ++ "(" ++ String.intercalate ", "
      (given.map (fun f => f.type ++ " " ++ (f.name ++ "_in")) ++ ["size_t idx"]) ++ ")" ++
      " \x7b")] ++
    set.flatMap (fun entry => laneLines options entry.1 entry.2) ++ ["  \x7d"]

/-- A constructor of the message that takes vectors for some fields and copies some. -/
def copyConstructor (taken copied : List Field) : List String :=
  ["  " ++ ("msg_type" ++ "(" ++ String.intercalate ", "
      (taken.map fun f => vectorText options f (f.name ++ "_in")) ++ ")" ++ " \x7b")] ++
    copied.map (copyingLine options) ++ ["  \x7d"]

/-- The line that merges a field with that of the other message. -/
def reductionLine (reduction : PairwiseOp × Field) : String :=
  "    " ++ (options.vectorType ++ "<" ++ reduction.2.type ++ ">" ++ "::" ++
    reduction.1.primitive ++ "(" ++ reduction.2.name ++ ", other." ++ reduction.2.name ++ ");")

/-- The method that merges some fields of two messages. -/
def mergingMethod (reduced : List (PairwiseOp × Field)) : List String :=
  ["  msg_type& operator+=(const msg_type& other) \x7b"] ++ reduced.map (reductionLine options) ++
    ["    return *this;", "  \x7d"]

end

/-- The methods that write some fields to an archive and read some from it. -/
def archiveMethods (saved loaded : List String) : List String :=
  ["  void save(graphlab::oarchive &oarc) const \x7b"] ++
    saved.map (fun name => "    " ++ ("oarc << " ++ name ++ ";")) ++ ["  \x7d"] ++
    (["  void load(graphlab::iarchive &iarc) \x7b"] ++
      loaded.map (fun name => "    " ++ ("iarc >> " ++ name ++ ";")) ++ ["  \x7d"])

/-! ## Lines about phases -/

/-- A parameter, with its default value if it has one. -/
def parameterText (f : Field) : String :=
  match f.value with
  | some value => f.type ++ " " ++ f.name ++ " = " ++ value
  | none => f.type ++ " " ++ f.name

/-- The head of the method of a phase. -/
def phaseHead (params : List Field) : Phase → String
  | .gather =>
    "msg_type gather(" ++ String.intercalate ", " (params.map parameterText) ++ ") const"
  | .apply => "void apply(" ++ String.intercalate ", " (params.map parameterText) ++ ")"
  | .scatter =>
    "void scatter(" ++ String.intercalate ", " (params.map parameterText) ++ ") const"

/-- The parts of the method of a phase. -/
structure PhaseParts where
  /-- The phase. -/
  phase : Phase
  /-- Its parameters. -/
  params : List Field
  /-- The message whose mask is kept in the class before anything else is done, if there is one. -/
  keeps : Option String
  /-- The lines of the body. -/
  body : List String

/-- The method of a phase, behind an empty line. -/
def PhaseParts.lines (p : PhaseParts) : List String :=
  ["", "  " ++ (phaseHead p.params p.phase ++ " \x7b")] ++
    p.keeps.elim [] (fun message => ["    " ++ ("vp_track = " ++ message ++ ".track;")]) ++
    p.body.map (fun line => "  " ++ line) ++ ["  \x7d"]

/-- Lines of which only the first is indented. -/
def firstIndented : List String → List String
  | [] => []
  | first :: others => ("  " ++ first) :: others

/-- The lines of a method that is copied from the source, behind an empty line. No line ends in
blanks. -/
def copiedLines (text : Option String) : List String :=
  text.elim [] fun text =>
    "" :: firstIndented ((Text.lines text.toList).map fun line => String.ofList (Text.trimEnd line))

/-! ## Classes written from separate lists -/

/-- The lists from which the text of the vertex data is written. -/
structure VertexDataParts where
  /-- The fields that are declared. -/
  declared : List Field
  /-- The fields that the constructor without parameters sizes. -/
  sized : List Field
  /-- The fields that the other constructor takes and those that it initialises, if there is one. -/
  explicit : Option (List Field × List Field)
  /-- The names that are written to an archive. -/
  saved : List String
  /-- The names that are read from an archive. -/
  loaded : List String

/-- The text of the vertex data. -/
def VertexDataParts.lines (options : Options) (name : String) (p : VertexDataParts) :
    List String :=
  ["struct " ++ name ++ " \x7b"] ++ p.declared.map (declarationLine options) ++
    blankConstructor options name p.sized ++
    p.explicit.elim [] (fun lists => initConstructor options name lists.1 lists.2) ++
    archiveMethods p.saved p.loaded ++ ["\x7d; // end of " ++ name]

/-- Every list of the vertex data goes through the given fields. -/
structure VertexDataParts.GoesThrough (p : VertexDataParts) (fields : List Field) : Prop where
  declared : p.declared = fields
  sized : p.sized = fields
  /-- The constructor that takes vectors is missing exactly if it would take none. -/
  explicit : p.explicit = if fields = [] then none else some (fields, fields)
  saved : p.saved = fields.map Field.name
  loaded : p.loaded = fields.map Field.name

/-- The lists from which the text of the message is written. -/
structure MessageParts where
  /-- The fields that are declared. -/
  declared : List Field
  /-- The fields that the constructor without parameters sizes. -/
  sized : List Field
  /-- The fields for which the constructor of a message for one lane takes a value. -/
  given : List Field
  /-- The fields that this constructor sizes and sets, each with what it is set to. -/
  set : List (Field × String)
  /-- The fields that the constructor with vectors takes and those that it copies, if there is
  one. -/
  explicit : Option (List Field × List Field)
  /-- The fields that are merged with those of another message, each with its reduction. -/
  reduced : List (PairwiseOp × Field)
  /-- The names that are written to an archive. -/
  saved : List String
  /-- The names that are read from an archive. -/
  loaded : List String

/-- The text of the message. -/
def MessageParts.lines (options : Options) (p : MessageParts) : List String :=
  ["struct msg_type \x7b"] ++ p.declared.map (declarationLine options) ++
    blankConstructor options "msg_type" p.sized ++ laneConstructor options p.given p.set ++
    p.explicit.elim [] (fun lists => copyConstructor options lists.1 lists.2) ++
    mergingMethod options p.reduced ++ archiveMethods p.saved p.loaded ++
    ["\x7d; // end of msg_type"]

/-- Every list of the message goes through the given fields. -/
structure MessageParts.GoesThrough (p : MessageParts) (fields : List Field) : Prop where
  declared : p.declared = fields
  sized : p.sized = fields
  set : p.set.map Prod.fst = fields
  /-- The constructor that takes vectors is missing exactly if it would take none. -/
  explicit : p.explicit = if fields = [] then none else some (fields, fields)
  saved : p.saved = fields.map Field.name
  loaded : p.loaded = fields.map Field.name

/-- The lists from which the text of the class with the phases is written. -/
structure ProgramParts where
  /-- The fields that are declared. -/
  declared : List Field
  /-- The method copied from the source before the phases, if there is one. -/
  gatherEdges : Option String
  /-- The phases. -/
  phases : List PhaseParts
  /-- The method copied from the source after the phases, if there is one. -/
  scatterEdges : Option String
  /-- The names that are written to an archive. -/
  saved : List String
  /-- The names that are read from an archive. -/
  loaded : List String

/-- The text of the class with the phases. -/
def ProgramParts.lines (options : Options) (name : String) (p : ProgramParts) : List String :=
  ["class " ++ name ++
      " : public graphlab::ivertex_program<graph_type, msg_type, msg_type> \x7b"] ++
    p.declared.map (declarationLine options) ++ ["public:"] ++ copiedLines p.gatherEdges ++
    p.phases.flatMap PhaseParts.lines ++ copiedLines p.scatterEdges ++ [""] ++
    archiveMethods p.saved p.loaded ++ ["\x7d; // end of vertex program class"]

/-- Every list of the class with the phases goes through the given fields. -/
structure ProgramParts.GoesThrough (p : ProgramParts) (fields : List Field) : Prop where
  declared : p.declared = fields
  saved : p.saved = fields.map Field.name
  loaded : p.loaded = fields.map Field.name

/-- What else stands in the class with the phases: two methods of the source, and one method for
each phase, with the parameters of the source and the converted lines. The apply phase first keeps
the mask of its message if messages are tracked. -/
structure ProgramParts.Holds (p : ProgramParts) (tracking : Bool) (source : VertexProgram)
    (outputs : List PhaseOutput) : Prop where
  gatherEdges : p.gatherEdges = source.gatherEdges
  scatterEdges : p.scatterEdges = source.scatterEdges
  phases : p.phases = outputs.map fun output =>
    ⟨output.phase, (source.method output.phase).params,
      if tracking = true ∧ output.phase = .apply then some source.messageParam else none,
      output.lines⟩

end Emitted

/-! ## What is emitted -/

namespace Emission

open Emitted

variable (options : Options)

/-- The tracked fields are the given ones, and the track behind them if there is tracking. -/
theorem tracked_eq (fields : List Field) (track : Field) :
    tracked options fields track = fields ++ if options.tracking then [track] else [] := by
  unfold tracked
  split
  · rfl
  · rw [List.append_nil]

/-- Vector fields are declared line by line. -/
theorem lines_declarations (fields : List Field) :
    (fields.map Emitted.Member.vectorField).flatMap (Emitted.Member.lines options) =
      fields.map (declarationLine options) := by
  rw [List.flatMap_map, List.map_eq_flatMap]
  rfl

private theorem lines_sized (f : Field) :
    (sized f).map (Step.line options) = sizingLines options f := by
  unfold sized sizingLines
  cases f.value <;> rfl

/-- A field is sized and set in one lane by its lines. -/
theorem lines_sizedLane (f : Field) (value : String) :
    (sizedLane f value).map (Step.line options) = laneLines options f value := by
  rw [sizedLane, List.map_append, lines_sized]
  rfl

/-- The constructor without arguments sizes all fields. -/
theorem lines_blank (className : String) (fields : List Field) :
    (Emitted.Member.method (.blank className) (fields.flatMap sized)).lines options =
      blankConstructor options className fields := by
  rw [Emitted.Member.lines, List.map_flatMap, blankConstructor]
  simp only [lines_sized]
  rfl

/-- The constructor with initialisers takes all fields, if there are any. -/
theorem lines_vectorInit (className : String) (fields : List Field) :
    (if fields.isEmpty then [] else [Emitted.Member.vectorInit className fields]).flatMap
        (Emitted.Member.lines options) =
      (if fields = [] then none else some (fields, fields)).elim []
        (fun lists => initConstructor options className lists.1 lists.2) := by
  cases fields <;> rfl

/-- The constructor from vectors copies all fields. -/
theorem lines_copies (fields : List Field) :
    (Emitted.Member.method (.vectors messageName fields) (fields.map .copy)).lines options =
      copyConstructor options fields fields := by
  rw [Emitted.Member.lines, List.map_map, copyConstructor]
  rfl

/-- The constructor from vectors is there if there are fields. -/
theorem lines_vectors (fields : List Field) :
    (if fields.isEmpty then []
      else [Emitted.Member.method (.vectors messageName fields) (fields.map .copy)]).flatMap
        (Emitted.Member.lines options) =
      (if fields = [] then none else some (fields, fields)).elim []
        (fun lists => copyConstructor options lists.1 lists.2) := by
  cases fields with
  | nil => rfl
  | cons f fields =>
    rw [if_neg (by simp), List.flatMap_singleton, lines_copies, if_neg (by simp)]
    rfl

/-- The archive methods name all fields, in order, in both directions. -/
theorem lines_archive (fields : List Field) :
    (archive fields).flatMap (Emitted.Member.lines options) =
      archiveMethods (fields.map Field.name) (fields.map Field.name) := by
  simp only [archive, List.flatMap_cons, List.flatMap_nil, List.append_nil, Emitted.Member.lines,
    List.map_map, archiveMethods]
  rfl

/-- The fields that a message for one lane sizes and sets. For the mask no value is taken: the lane
is marked as sent. -/
def laneFields (fields : List Field) : List (Field × String) :=
  fields.map (fun f => (f, paramName f.name)) ++
    if options.tracking then [(messageTrack, "true")] else []

/-- The fields of the lane constructor are the tracked ones. -/
theorem map_fst_laneFields (fields : List Field) :
    (laneFields options fields).map Prod.fst = tracked options fields messageTrack := by
  rw [laneFields, tracked_eq, List.map_append, List.map_map]
  congr 1
  · exact List.map_id fields
  · split <;> rfl

/-- The lane constructor sets all of its fields. -/
theorem lines_lane (fields : List Field) :
    (laneConstructor options fields).lines options =
      Emitted.laneConstructor options fields (laneFields options fields) := by
  have hbody : fields.flatMap (fun f => sizedLane f (paramName f.name)) ++
      (if options.tracking then sizedLane messageTrack "true" else []) =
        (laneFields options fields).flatMap fun entry => sizedLane entry.1 entry.2 := by
    rw [laneFields, List.flatMap_append, List.flatMap_map]
    congr 1
    split <;> rfl
  rw [laneConstructor, hbody, Emitted.Member.lines, List.map_flatMap, Emitted.laneConstructor]
  simp only [lines_sizedLane]
  rfl

/-- The reductions of the message. The masks of two messages are joined before anything else. -/
def reductions (m : MessageType) : List (PairwiseOp × Field) :=
  (if options.tracking then [(.or, messageTrack)] else []) ++
    m.accumulations.filterMap fun a => (m.field? a.field).map fun f => (a.op, f)

/-- The accumulation is written as the method that merges the reduced fields. -/
theorem lines_accumulator (m : MessageType) :
    (accumulator options m).lines options = mergingMethod options (reductions options m) := by
  have hline : ∀ reduction : PairwiseOp × Field,
      (Step.reduce reduction.1 reduction.2).line options = reductionLine options reduction := by
    intro reduction
    rfl
  have hsteps : (if options.tracking then [Step.reduce .or messageTrack] else []) ++
      (m.accumulations.filterMap fun a => (m.field? a.field).map (Step.reduce a.op)) =
        (reductions options m).map fun reduction => Step.reduce reduction.1 reduction.2 := by
    rw [reductions, List.map_append, List.map_filterMap]
    congr 1
    · split <;> rfl
    · simp only [Option.map_map]
      rfl
  rw [accumulator, hsteps, Emitted.Member.lines, List.map_append, List.map_map, mergingMethod]
  simp only [Function.comp_def, hline, List.append_assoc]
  rfl

/-- A copied method is written as it stands in the source. -/
theorem lines_kept (text : Option String) :
    (kept text).flatMap (Emitted.Member.lines options) = copiedLines text := by
  cases text with
  | none => rfl
  | some text =>
    have hverbatim : verbatimLines text = firstIndented ((Text.lines text.toList).map fun line =>
        String.ofList (Text.trimEnd line)) := by
      unfold verbatimLines
      cases (Text.lines text.toList).map fun line => String.ofList (Text.trimEnd line) <;> rfl
    rw [kept, List.flatMap_cons, List.flatMap_singleton, Emitted.Member.lines, hverbatim]
    rfl

/-- The parts of the method of a converted phase. -/
def phaseParts (p : VertexProgram) (output : PhaseOutput) : PhaseParts :=
  ⟨output.phase, (p.method output.phase).params,
    if options.tracking = true ∧ output.phase = .apply then some p.messageParam else none,
    output.lines⟩

/-- The head of a phase is written with the parameters of the source. -/
theorem signature_phase (phase : Phase) (params : List Field) :
    (Role.phase phase params).signature options = phaseHead params phase := by
  cases phase <;> rfl

/-- The mask of a message is kept in the class by an assignment. -/
theorem line_keepTrack (message : String) :
    (Step.keepTrack message).line options = "    " ++ ("vp_track = " ++ message ++ ".track;") := by
  have hfirst : "vp_track = " = programTrack ++ " = " := rfl
  have hlast : ".track;" = "." ++ trackField ++ ";" := rfl
  rw [hfirst, hlast, Step.line]
  simp only [String.append_assoc]
  rfl

/-- The method of a phase is written from its parts. -/
theorem lines_phaseMethod (p : VertexProgram) (output : PhaseOutput) :
    (phaseMethod options p output).flatMap (Emitted.Member.lines options) =
      (phaseParts options p output).lines := by
  have hkeeps : (if options.tracking && output.phase == .apply then
      [Step.keepTrack p.messageParam] else []).map (Step.line options) =
        (phaseParts options p output).keeps.elim []
          (fun message => ["    " ++ ("vp_track = " ++ message ++ ".track;")]) := by
    unfold phaseParts
    by_cases htrack : options.tracking = true ∧ output.phase = .apply
    · rw [if_pos (by simpa using htrack), if_pos htrack, List.map_singleton,
        line_keepTrack]
      rfl
    · rw [if_neg (by simpa using htrack), if_neg htrack]
      rfl
  rw [phaseMethod, List.flatMap_cons, List.flatMap_singleton, Emitted.Member.lines,
    Emitted.Member.lines, List.map_append, hkeeps, List.map_map, signature_phase, PhaseParts.lines]
  simp only [List.append_assoc, List.cons_append, List.nil_append]
  rfl

/-- The head of the class of a vertex program. -/
theorem head_program (name : String) (members : List Emitted.Member) :
    (EmittedClass.mk .program name members).head ++ " \x7b" = "class " ++ name ++
      " : public graphlab::ivertex_program<graph_type, msg_type, msg_type> \x7b" := by
  simp only [EmittedClass.head, String.append_assoc]
  rfl

/-- The vertex data is written from lists that go through its fields. -/
theorem exists_vertexDataParts (d : DataType) :
    ∃ p : VertexDataParts, (vertexData d).lines options = p.lines options d.name ∧
      p.GoesThrough d.fields := by
  refine ⟨⟨d.fields, d.fields, _, d.fields.map Field.name, d.fields.map Field.name⟩, ?_,
    ⟨rfl, rfl, rfl, rfl, rfl⟩⟩
  simp only [EmittedClass.lines, vertexData, List.flatMap_append, List.flatMap_singleton,
    lines_declarations, lines_blank, lines_vectorInit, lines_archive, VertexDataParts.lines,
    List.append_assoc]
  rfl

/-- The message is written from lists that go through its fields and their reductions. -/
theorem exists_messageParts (m : MessageType) :
    ∃ p : MessageParts, (message options m).lines options = p.lines options ∧
      p.given = m.fields ∧ p.reduced = reductions options m ∧
      p.GoesThrough (tracked options m.fields messageTrack) := by
  refine ⟨⟨_, _, m.fields, laneFields options m.fields, _, reductions options m, _, _⟩, ?_, rfl,
    rfl, ⟨rfl, rfl, map_fst_laneFields options m.fields, rfl, rfl, rfl⟩⟩
  simp only [EmittedClass.lines, message, List.flatMap_append, List.flatMap_cons,
    List.flatMap_nil, List.append_nil, lines_declarations, lines_blank, lines_lane, lines_vectors,
    lines_accumulator, lines_archive, MessageParts.lines, List.append_assoc]
  rfl

/-- The class with the phases is written from lists that go through its fields, the methods of the
source and the converted phases. -/
theorem exists_programParts (p : VertexProgram) (outputs : List PhaseOutput) :
    ∃ parts : ProgramParts, (program options p outputs).lines options =
        parts.lines options p.name ∧
      parts.GoesThrough (tracked options p.fields ⟨programTrack, "bool", none⟩) ∧
      parts.Holds options.tracking p outputs := by
  refine ⟨⟨_, p.gatherEdges, outputs.map (phaseParts options p), p.scatterEdges, _, _⟩, ?_,
    ⟨rfl, rfl, rfl⟩, ⟨rfl, rfl, rfl⟩⟩
  have hphases : (outputs.flatMap (phaseMethod options p)).flatMap (Emitted.Member.lines options) =
      (outputs.map (phaseParts options p)).flatMap PhaseParts.lines := by
    rw [List.flatMap_assoc, List.flatMap_map]
    simp only [lines_phaseMethod]
  simp only [EmittedClass.lines, program, head_program, List.flatMap_append,
    List.flatMap_singleton, lines_declarations, lines_archive, lines_kept, hphases,
    ProgramParts.lines, List.append_assoc]
  rfl

end Emission

open Emitted in
/-- Emitted classes are consistent. The emitted text is that of the vertex data, the message and the
class with the phases, with fixed lines and the data of edges between them. Every list of each class
goes through the same fields: those of the source, behind which the message has `track` and the
class with the phases `vp_track` exactly if messages are tracked. Besides, the message merges its
reduced fields, the mask first if there is one, and the class with the phases holds the methods of
the source and of the phases. -/
theorem emitted_fields_agree (options : Options) (s : SourceProgram)
    (outputs : List PhaseOutput) :
    ∃ (vertexData : VertexDataParts) (message : MessageParts) (program : ProgramParts),
      emit options s outputs = String.intercalate "\n"
        (Emission.header ++ s.patch ++ [""] ++ vertexData.lines options s.vertexData.name ++ [""] ++
          Emission.edgeLines options s.edgeData ++ [""] ++ message.lines options ++ [""] ++
          Emission.graphLines ++ [""] ++ program.lines options s.program.name) ++ "\n" ∧
      vertexData.GoesThrough s.vertexData.fields ∧
      message.given = s.message.fields ∧
      message.reduced =
        (if options.tracking then [(.or, ⟨"track", "bool", some "false"⟩)] else []) ++
          (s.message.accumulations.filterMap fun a =>
            (s.message.field? a.field).map fun f => (a.op, f)) ∧
      message.GoesThrough (s.message.fields ++
        if options.tracking then [⟨"track", "bool", some "false"⟩] else []) ∧
      program.GoesThrough (s.program.fields ++
        if options.tracking then [⟨"vp_track", "bool", none⟩] else []) ∧
      program.Holds options.tracking s.program outputs := by
  obtain ⟨vertexData, hvertex, hvertexFields⟩ :=
    Emission.exists_vertexDataParts options s.vertexData
  obtain ⟨message, hmessage, hgiven, hreduced, hmessageFields⟩ :=
    Emission.exists_messageParts options s.message
  obtain ⟨program, hprogram, hprogramFields, hholds⟩ :=
    Emission.exists_programParts options s.program outputs
  rw [Emission.tracked_eq] at hmessageFields hprogramFields
  refine ⟨vertexData, message, program, ?_, hvertexFields, hgiven, hreduced, hmessageFields,
    hprogramFields, hholds⟩
  rw [emit, Emission.lines, hvertex, hmessage, hprogram]

end VertexLanes
