/-!
# Phases of a vertex program
-/

namespace VertexLanes

/-- The three methods in which a vertex program does its work, in the order they run. -/
inductive Phase where
  | gather
  | apply
  | scatter
deriving DecidableEq, Repr

namespace Phase

/-- Every phase, in order. -/
def all : List Phase := [.gather, .apply, .scatter]

/-- The name of the phase's method. -/
def name : Phase → String
  | .gather => "gather"
  | .apply => "apply"
  | .scatter => "scatter"

/-- The phase of a given name. -/
def ofName? (name : String) : Option Phase := all.find? fun p => p.name == name

/-- What to say of a name that is no phase. -/
def unknownMessage (name : String) : String :=
  "unknown phase '" ++ name ++ "' (expected gather, apply or scatter)"

end Phase

end VertexLanes
