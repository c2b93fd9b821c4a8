import NodeStore.Query.Aggregate
import NodeStore.Query.Plan

/-!
# Queries

A query names a type and its target, and may filter, sort, cut and aggregate. Compiled against a schema it is the bytes
that the engine executes and what is needed to read the answer.

* `Query` and `Query.compile`.
* `CompiledQuery`.
-/

namespace NodeStore

open Query

/-- The nodes that a query starts from. -/
inductive Query.Target where
  | id (n : NodeId)
  | ids (ns : List NodeId)
  /-- All nodes of the type. -/
  | scan
  deriving DecidableEq, Inhabited

/-- A query. -/
structure Query where
  type : String
  target : Target
  body : SubQuery := {}
  /-- The collections whose size is asked for. -/
  counts : List String := []
  /-- The locale of texts; all of them if there is none. -/
  locale : Option String := none
  aggregates : List Aggregate := []
  group : Option GroupBy := none

/-- How the answer to a query is read. -/
inductive Query.Output where
  | records (plan : ReadPlan)
  | aggregates (plan : AggregatePlan)

/-- The bytes of a query, and how its answer is read. -/
structure CompiledQuery where
  schema : SchemaLayout
  bytes : Bytes
  output : Query.Output

namespace CompiledQuery

def isAggregate (q : CompiledQuery) : Bool :=
  match q.output with
  | .aggregates _ => true
  | .records _ => false

/-- The read plan of a query for records. -/
def plan? (q : CompiledQuery) : Option ReadPlan :=
  match q.output with
  | .records plan => some plan
  | .aggregates _ => none

end CompiledQuery

namespace Query

def opId : UInt8 := 1
def opIds : UInt8 := 2
def opScan : UInt8 := 3
def opAggregate : UInt8 := 4

/-- Filters given one after the other have to hold together. -/
def conjunction : List Filter → Option Filter
  | [] => none
  | f :: fs => some (fs.foldl Filter.and f)

def isAggregate (q : Query) : Bool := !q.aggregates.isEmpty || q.group.isSome

/-- Target, type and range. Only scans have a range, and only they aggregate. -/
def header (q : Query) (t : TypeLayout) : Except Error Bytes :=
  let type := leBytes 2 t.id.toNat
  let byId (opcode : UInt8) (ids : Bytes) : Except Error Bytes :=
    if q.isAggregate then .error .aggregateNeedsScan
    else if q.body.range.isSome then .error .rangeNeedsScan
    else .ok (opcode :: type ++ ids)
  match q.target with
  | .scan => .ok ((if q.isAggregate then opAggregate else opScan) :: type ++ (q.body.range.getD .whole).encode)
  | .id n => byId opId (leBytes 4 n.toNat)
  | .ids ns => byId opIds (leBytes 4 ns.length ++ ns.flatMap fun n => leBytes 4 n.toNat)

/-- All fields that the records of a query hold. -/
def includes (q : Query) (s : Scope) : Except Error Includes := do
  let t ← Includes.addAll s q.body.includes {}
  q.counts.foldlM (fun t path => t.addCount s (Path.split path)) t

/-- Compiles a query. -/
def compile (q : Query) (schema : SchemaLayout) : Except Error CompiledQuery := do
  match schema.typeByName? q.type with
  | none => throw (.unknownType q.type)
  | some t =>
    let requested ← q.locale.mapM fun code => localeId schema (some code)
    let locale := requested.getD Locale.none
    let scope := Scope.ofType schema t
    let header ← q.header t
    let sort ← sortSpec? q.body.sort t locale
    let filter ← filterBytes scope locale q.body.filter
    let front := header ++ SortSpec.encode sort ++ Wire.sized filter
    if q.isAggregate then
      let (descriptor, plan) ← compileAggregates t q.aggregates q.group
      return ⟨schema, front ++ Wire.sized [] ++ Wire.sized descriptor, .aggregates plan⟩
    else
      let included ← q.includes scope
      let items ← included.items scope locale
      return ⟨schema, front ++ Wire.sized (encodeIncludes items) ++ Wire.sized [], .records (included.plan scope requested)⟩

end Query

end NodeStore
