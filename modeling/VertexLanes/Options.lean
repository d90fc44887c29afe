import VertexLanes.Code.Instr

/-!
# Conversion options
-/

namespace VertexLanes

/-- What can be chosen about a conversion. -/
structure Options where
  /-- Whether messages record the lanes they were sent for. -/
  tracking : Bool
  /-- The vector template of fields and masks. -/
  vectorType : String
  /-- The expression for the number of lanes. -/
  lanes : String
deriving DecidableEq, Repr

/-- The options of a conversion about which nothing is chosen. -/
def Options.default : Options := ⟨true, defaultVectorType, "NUM_SRC_NODES"⟩

end VertexLanes
