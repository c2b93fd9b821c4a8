import NodeStore.Wire.Error

/-!
# Errors of the engine

A refused batch or query carries one reason. Faults of the encoded data are reasons too.
-/

namespace NodeStore.Engine

/-- Why the engine refuses a batch or a query. -/
structure Error where
  reason : String
  deriving DecidableEq, Inhabited

def Error.message (e : Error) : String := s!"engine error: {e.reason}"

/-- A fault of the encoded data as the engine reports it. -/
def Error.ofWire (e : Wire.Error) : Error := ⟨e.message⟩

end NodeStore.Engine
