import VertexLanes.Source.Span
import VertexLanes.Source.Diagnostic
import VertexLanes.Text.Blank
import VertexLanes.Text.Lines
import VertexLanes.Text.Occurrence
import VertexLanes.Operator.Vector
import VertexLanes.Operator.Pairwise
import VertexLanes.Token.Basic
import VertexLanes.Token.Nesting
import VertexLanes.Token.Layout
import VertexLanes.Token.Lexer
import VertexLanes.Block.Node
import VertexLanes.Block.Shape
import VertexLanes.Block.Cursor
import VertexLanes.Block.Parser
import VertexLanes.Phase.Basic
import VertexLanes.Body.Label
import VertexLanes.Body.Operands
import VertexLanes.Body.Stmt
import VertexLanes.Body.Annotate
import VertexLanes.Code.Instr
import VertexLanes.Code.Lower
import VertexLanes.Options
import VertexLanes.Phase.Conversion
import VertexLanes.Text.Json
import VertexLanes.Body.Json
import VertexLanes.Class.Basic
import VertexLanes.Class.Member
import VertexLanes.Class.Parser
import VertexLanes.Program.Basic
import VertexLanes.Program.Recovery
import VertexLanes.Emitted.Class
import VertexLanes.Program.Emission
import VertexLanes.Program.Conversion
import VertexLanes.Path
import VertexLanes.File.Access
import VertexLanes.File.Tree
import VertexLanes.Project
import VertexLanes.File.Conversion
import VertexLanes.Command.Args
import VertexLanes.Command.Run
import VertexLanes.Main
import VertexLanes.Proofs.Annotation
import VertexLanes.Proofs.Labelling
import VertexLanes.Proofs.IfConversion
import VertexLanes.Proofs.StatementPosition
import VertexLanes.Proofs.Dropping
import VertexLanes.Proofs.BlockReading
import VertexLanes.Proofs.ConversionFaults
import VertexLanes.Proofs.Tiling
import VertexLanes.Proofs.Relexing
import VertexLanes.Proofs.BareTree
import VertexLanes.Proofs.ClauseReading
import VertexLanes.Proofs.RoundTrip
import VertexLanes.Proofs.CodeLines
import VertexLanes.Proofs.TrackingEdits
import VertexLanes.Proofs.MaskOrder
import VertexLanes.Proofs.OptionIndependence
import VertexLanes.Proofs.Reports
import VertexLanes.Proofs.NestingBound
import VertexLanes.Proofs.OperandSlots
import VertexLanes.Proofs.ConversionOrder
import VertexLanes.Proofs.Precedence
import VertexLanes.Proofs.CompoundAssignment
import VertexLanes.Proofs.LexemeForms
import VertexLanes.Proofs.MalformedStatements
import VertexLanes.Proofs.Rendering
import VertexLanes.Proofs.AssignmentReading
import VertexLanes.Proofs.BracketKinds
import VertexLanes.Proofs.SendReading
import VertexLanes.Proofs.MergeExpr
import VertexLanes.Proofs.AccumulationMeaning
import VertexLanes.Proofs.DeclarationScopes
import VertexLanes.Proofs.SpanNesting
import VertexLanes.Proofs.VerbatimDeclarations
import VertexLanes.Proofs.ClassReading
import VertexLanes.Proofs.MemberRecovery
import VertexLanes.Proofs.ParameterRecovery
import VertexLanes.Proofs.BlockPlans
import VertexLanes.Proofs.ClassPlans
import VertexLanes.Proofs.EmittedFields
import VertexLanes.Proofs.OperatorLookup
import VertexLanes.Proofs.ProjectReading
import VertexLanes.Proofs.ParserProgress
import VertexLanes.Proofs.SourcePositions
import VertexLanes.Proofs.PathNames
import VertexLanes.Proofs.DefaultOutput
