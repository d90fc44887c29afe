import VertexLanes.Source.Span

/-!
# Diagnostics

Every stage keeps its findings as causes of its own type. What a cause says to
the reader stands in one place, its `Explains` instance, and a diagnostic is
that explanation together with the range it concerns.
-/

namespace VertexLanes

/-- Whether a finding stops the conversion. -/
inductive Severity where
  /-- The input is not converted. -/
  | error
  /-- The input is converted, with something left out. -/
  | warning
deriving DecidableEq, Repr

/-- The name of a severity in reports. -/
def Severity.name : Severity → String
  | .error => "error"
  | .warning => "warning"

/-- A finding as the reader sees it. -/
structure Diagnostic where
  /-- Whether the finding is fatal. -/
  severity : Severity
  /-- The headline. -/
  message : String
  /-- The range the finding concerns. -/
  span : Span
  /-- Further remarks, in order. -/
  notes : List String
  /-- Advice on how to mend the source. -/
  help : Option String
deriving DecidableEq, Repr

/-- How the causes of one kind are explained. -/
class Explains (α : Type) where
  /-- All causes of one type weigh the same. -/
  severity : Severity
  /-- The headline of a cause. -/
  message : α → String
  /-- Further remarks on a cause. -/
  notes : α → List String := fun _ => []
  /-- Advice against a cause. -/
  help : α → Option String := fun _ => none

/-- The diagnostic for a cause at its place. -/
def Located.diagnostic {α : Type} [Explains α] (found : Located α) : Diagnostic where
  severity := Explains.severity α
  message := Explains.message found.item
  span := found.span
  notes := Explains.notes found.item
  help := Explains.help found.item

/-- The fault of a step that failed. -/
def fault? {ε α : Type} : Except ε α → Option ε
  | .ok _ => none
  | .error e => some e

end VertexLanes
