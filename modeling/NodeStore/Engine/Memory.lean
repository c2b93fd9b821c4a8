import NodeStore.Engine.Answer
import NodeStore.Engine.Batch
import NodeStore.Engine.Tally
import NodeStore.Query.Compile

/-!
# The engine

Batches change the store as a whole or not at all; queries read it.

* `Memory`: a store over its schema.
* `Memory.apply` / `Memory.query`: the bytes of a batch and of a query.
-/

namespace NodeStore.Engine

open Query (SortSpec Range)

/-- A store over its schema. -/
structure Memory where
  schema : SchemaLayout
  store : Store
  /-- The reason for which the next batch is refused, if it is to be. -/
  failNext : Option String

/-- The target of an encoded query. -/
structure Request where
  layout : TypeLayout
  ids : List NodeId
  /-- Only scans have a range. -/
  range : Option Range
  aggregates : Bool

/-- The parts of an encoded query behind its target. -/
structure RequestBody where
  sort : Option SortSpec
  filter : Bytes
  includes : Bytes
  aggregates : Bytes

/-- Reads the target of a query. -/
def readRequest (schema : SchemaLayout) (store : Store) : Scan Request := do
  let kind ← Wire.Read.byte "query kind"
  let type ← Wire.Read.u16 "query type"
  let layout ← layoutOf schema type
  if kind = Query.opId then
    let id ← Wire.Read.u32 "node id"
    return ⟨layout, [id], none, false⟩
  else if kind = Query.opIds then
    let n ← Wire.Read.nat 4 "id count"
    let ids ← Wire.Read.list (Wire.Read.u32 "node id") n
    return ⟨layout, ids, none, false⟩
  else if kind = Query.opScan ∨ kind = Query.opAggregate then
    let range ← Range.read
    return ⟨layout, store.ids type, some range, kind = Query.opAggregate⟩
  else throw (.wire (.badOpcode kind "query kind"))

open Wire in
/-- Reads the parts of a query behind its target. -/
def readRequestBody : Read RequestBody := do
  let sort ← SortSpec.read
  let filter ← Read.sized "filter"
  let includes ← Read.sized "include"
  let aggregates ← Read.sized "aggregate"
  return ⟨sort, filter, includes, aggregates⟩

/-- The nodes of a request as subjects; ids without a node are left out. -/
def subjects (store : Store) (q : Request) : List Subject :=
  q.ids.filterMap fun id => (store.node? q.layout.id id).map fun n => ⟨q.layout, id, n, none⟩

/-- Reads a whole query. -/
def readQuery (schema : SchemaLayout) (store : Store) : Scan (Request × RequestBody) := do
  let q ← readRequest schema store
  let body ← readRequestBody
  return (q, body)

/-- The answer to a query: the number of matching nodes and their records, or the aggregates over them. -/
def answer (schema : SchemaLayout) (store : Store) (query : Bytes) : Except Fault Bytes := do
  let (q, body) ← (readQuery schema store).run query
  let hits ← passing schema store body.filter (subjects store q)
  let arranged := arrange schema body.sort q.range hits
  if q.aggregates then tally body.aggregates (arranged.map (·.node))
  else
    let records ← arranged.mapM (record schema store body.includes)
    return leBytes 4 hits.length ++ records.flatten

namespace Memory

def new (schema : SchemaLayout) : Memory := ⟨schema, .empty, none⟩

/-- Executes a batch; the answer lists the ids of the created nodes. -/
def apply (batch : Bytes) (m : Memory) : Except Error (List NodeId) × Memory :=
  match m.failNext with
  | some reason => (.error ⟨reason⟩, { m with failNext := none })
  | none =>
    match applyBatch m.schema m.store batch with
    | .ok (ids, store) => (.ok ids, { m with store })
    | .error f => (.error f.toError, m)

/-- Executes a query. -/
def query (m : Memory) (bytes : Bytes) : Except Error Bytes :=
  match answer m.schema m.store bytes with
  | .ok bs => .ok bs
  | .error f => .error f.toError

/-- Refuses the next batch for a reason. -/
def refuseNext (m : Memory) (reason : String) : Memory := { m with failNext := some reason }

/-- The number of nodes of a type. -/
def count (m : Memory) (type : String) : Nat :=
  match m.schema.typeByName? type with
  | some t => (m.store.ids t.id).length
  | none => 0

/-- Is there such a node? -/
def contains (m : Memory) (type : String) (id : NodeId) : Bool :=
  match m.schema.typeByName? type with
  | some t => (m.store.node? t.id id).isSome
  | none => false

end Memory

end NodeStore.Engine
