import NodeStore.Query.Compile
import NodeStore.Result.Aggregate
import NodeStore.Result.Record

/-!
# Answers

* `CompiledQuery.decode` and `CompiledQuery.decodeAggregates`: the answer of the engine to a compiled query.
-/

namespace NodeStore.CompiledQuery

/-- Reads the answer to an aggregate query. -/
def decodeAggregates (q : CompiledQuery) (bs : Bytes) : Except Wire.Error Record :=
  match q.output with
  | .aggregates plan => Result.decodeAggregates plan bs
  | .records _ => .error (.malformed "record result decoded as aggregates")

/-- Reads the answer to a query for records. -/
def decode (q : CompiledQuery) (bs : Bytes) : Except Wire.Error QueryResult :=
  match q.output with
  | .records plan => Result.decodeResult q.schema plan bs
  | .aggregates _ => .error (.malformed "aggregate result decoded as records")

end NodeStore.CompiledQuery
