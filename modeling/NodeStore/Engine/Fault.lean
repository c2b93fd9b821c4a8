import NodeStore.Engine.Error
import NodeStore.Schema.PropType
import NodeStore.Value

/-!
# Causes of engine errors

* `Fault` with its `message`; `Fault.toError` is the refusal that it leads to.
-/

namespace NodeStore.Engine

/-- Why a batch or a query cannot be executed. -/
inductive Fault where
  /-- The encoded data is at fault. -/
  | wire (e : Wire.Error)
  | unknownType (type : TypeId)
  | noSuchNode (type : TypeId) (id : NodeId)
  | noNodeSelected
  | noFieldSelected
  | noEdgeFieldSelected
  | nodeBeforeType
  | createBeforeType
  /-- The type has given out its last id. -/
  | idsExhausted (type : TypeId)
  /-- The numbers of creates count up from 0. -/
  | tmpOutOfOrder (tmp : UInt32)
  | tmpOfOtherType (tmp : UInt32)
  | tmpUnknown (tmp : UInt32)
  | mainLength
  | edgeMainLength
  | mainWrite
  | counterPlace
  | notReference (prop : String)
  | notOfType (prop : String) (type : PropType)
  | missingTarget (prop : String) (id : NodeId)
  | noEdges (prop : String)
  | missingInverse (prop : String)
  | vectorLength (prop : String) (len : Nat)
  | noPayload (type : PropType)
  | jumpRange
  | jumpBackwards
  | conditionPlace
  | shortRange
  | numberRange
  | inapplicable (code : UInt8) (type : PropType)
  | includePlace
  | aggregateIndex
  deriving DecidableEq, Inhabited

namespace Fault

def message : Fault → String
  | wire e => e.message
  | unknownType type => s!"unknown type {type}"
  | noSuchNode type id => s!"node {id} of type {type} does not exist"
  | noNodeSelected => "no node selected"
  | noFieldSelected => "no field selected"
  | noEdgeFieldSelected => "no edge field selected"
  | nodeBeforeType => "node selected before type"
  | createBeforeType => "create before type"
  | idsExhausted type => s!"type {type} has no more ids"
  | tmpOutOfOrder tmp => s!"tmp id {tmp} out of order"
  | tmpOfOtherType tmp => s!"tmp id {tmp} has another type"
  | tmpUnknown tmp => s!"tmp id {tmp} was not created in this batch"
  | mainLength => "main block has the wrong length"
  | edgeMainLength => "edge main block has the wrong length"
  | mainWrite => "partial write outside the main block"
  | counterPlace => "counter outside the main block"
  | notReference prop => s!"{prop} is not a reference"
  | notOfType prop type => s!"{prop} is not {type.name}"
  | missingTarget prop id => s!"{prop} references missing node {id}"
  | noEdges prop => s!"{prop} has no edge properties"
  | missingInverse prop => s!"missing inverse {prop}"
  | vectorLength prop len => s!"{prop} expects {len} vector bytes"
  | noPayload type => s!"{type.name} has no separate payload"
  | jumpRange => "filter jump out of range"
  | jumpBackwards => "or jump points backwards"
  | conditionPlace => "condition outside the main block"
  | shortRange => "short range operand"
  | numberRange => "malformed number range"
  | inapplicable code type => s!"filter op {code} does not apply to {type.name}"
  | includePlace => "include outside the main block"
  | aggregateIndex => "aggregate result index out of range"

def toError (f : Fault) : Error := ⟨f.message⟩

end Fault

/-- Fails with the fault of the encoded data. -/
def ofWire {α : Type} : Except Wire.Error α → Except Fault α
  | .ok a => .ok a
  | .error e => .error (.wire e)

end NodeStore.Engine
