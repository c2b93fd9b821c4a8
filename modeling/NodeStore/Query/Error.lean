import NodeStore.Codec.Fixed
import NodeStore.Schema.Validate

/-!
# Why a query cannot be compiled

* `Query.Error` with its `message`; `BadOperand` is the reason against the value of one condition.
-/

namespace NodeStore.Query

/-- Why a value cannot be compared with a field. -/
inductive BadOperand where
  | noValues
  | wantsString (kind : String)
  | pendingId
  | badNodeId
  | wantsPair
  | wantsNumbers
  | wantsIntegers
  | reversed
  | fault (f : ValueFault)
  | unencodable (u : Unencodable)
  deriving DecidableEq, Inhabited

def BadOperand.message : BadOperand → String
  | noValues => "no values to compare"
  | wantsString kind => s!"expected string, got {kind}"
  | pendingId => "pending ids cannot be queried"
  | badNodeId => "not a valid node id"
  | wantsPair => "between needs [min, max]"
  | wantsNumbers => "expected numbers"
  | wantsIntegers => "expected integers"
  | reversed => "max is below min"
  | fault f => f.message
  | unencodable u => u.message

/-- Why a query cannot be compiled. -/
inductive Error where
  | unknownType (type : String)
  | unknownField (type field : String)
  | unsupported (field operator : String) (type : PropType)
  | invalidValue (field : String) (reason : BadOperand)
  | unknownLocale (code : String)
  | aggregateNeedsScan
  | rangeNeedsScan
  | aggregateNeedsField
  deriving DecidableEq, Inhabited

def Error.message : Error → String
  | unknownType type => s!"unknown type {quoted type}"
  | unknownField type field => s!"unknown field {quoted field} on type {quoted type}"
  | unsupported field operator type => s!"operator {operator} is not supported on {field} ({type.name})"
  | invalidValue field reason => s!"invalid filter value for {field}: {reason.message}"
  | unknownLocale code => s!"unknown locale {quoted code}"
  | aggregateNeedsScan => "aggregates need a scan query"
  | rangeNeedsScan => "range needs a scan query"
  | aggregateNeedsField => "aggregate needs a field"

end NodeStore.Query
