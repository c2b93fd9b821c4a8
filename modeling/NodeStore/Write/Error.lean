import NodeStore.Codec.Fixed
import NodeStore.Engine.Error
import NodeStore.Schema.Validate
import NodeStore.Write.Buffer

/-!
# Errors of writes

A failed call leaves what earlier calls wrote as it was.

* `PendingFailure`: why a created node never gets an id; failures travel along references.
* `Refusal`: why a value cannot be written to a property.
* `Write.Error` with its `message`.
-/

namespace NodeStore.Write

/-- Why a created node has no id. -/
inductive PendingFailure where
  /-- The batch that creates it failed. -/
  | batch (seq : Nat) (error : Engine.Error)
  /-- A node that it refers to failed. -/
  | dependency (on : PendingId) (cause : PendingFailure)
  deriving DecidableEq, Inhabited

/-- The text of a handle. -/
def pendingText (p : PendingId) : String := s!"PendingId({p.raw})"

def PendingFailure.message : PendingFailure → String
  | batch seq error => s!"batch {seq} failed: {error.message}"
  | dependency on cause => s!"dependency {pendingText on} failed: {cause.message}"

/-- Why a value cannot be written to a property. -/
inductive Refusal where
  | fault (f : ValueFault)
  | unencodable (u : Unencodable)
  /-- The field ends behind the end of the block. -/
  | outsideBlock
  | notCounter
  | notCounterOrAmount
  | wantsNumber
  | wantsInteger
  | wantsObject
  | wantsReference
  | badNodeId
  | noLocale
  | unknownLocale
  | removesUnacknowledged
  | wrongTargetType
  deriving DecidableEq, Inhabited

def Refusal.message : Refusal → String
  | fault f => f.message
  | unencodable u => u.message
  | outsideBlock => "offset outside the main block"
  | notCounter => "increment needs a numeric main field"
  | notCounterOrAmount => "increment needs a numeric main field and a numeric amount"
  | wantsNumber => "expected number"
  | wantsInteger => "expected integer"
  | wantsObject => "expected an object"
  | wantsReference => "expected a reference"
  | badNodeId => "not a valid node id"
  | noLocale => "no locale enabled for text"
  | unknownLocale => "unknown locale"
  | removesUnacknowledged => "cannot remove a reference to an unacknowledged node"
  | wrongTargetType => "target node has a different type"

/-- Why a write call failed. -/
inductive Error where
  | invalid (property : String) (value : Value) (reason : Refusal)
  | unknownProperty (type property : String)
  | unknownType (type : String)
  | noActiveNode
  | recordTooLarge (needed max : Nat)
  | unresolvedEdgeReference (property : String)
  | unknownPending (p : PendingId)
  | unknownBatch (seq : Nat)
  | pending (failure : PendingFailure)
  | engine (error : Engine.Error)
  | bufferFull (e : BufferFull)
  deriving Inhabited

def Error.message : Error → String
  | invalid property _ reason => s!"invalid value for {property}: {reason.message}"
  | unknownProperty type property => s!"unknown property {quoted property} on type {quoted type}"
  | unknownType type => s!"unknown type {quoted type}"
  | noActiveNode => "no active node for a field write"
  | recordTooLarge needed max => s!"record needs {needed} bytes but the write buffer holds at most {max}"
  | unresolvedEdgeReference property =>
    s!"edges of {property} reference a node whose batch has not been acknowledged"
  | unknownPending p => s!"unknown pending id {pendingText p}"
  | unknownBatch seq => s!"no batch {seq} is awaiting acknowledgment"
  | pending failure => failure.message
  | engine error => error.message
  | bufferFull e => e.message

end NodeStore.Write
