import NodeStore.Query.Error
import NodeStore.Limits

/-!
# Aggregates

Counts, sums and the like over the nodes that a scan finds, as a whole or by groups of nodes that agree in one field.

* `AggregateKind`, `Aggregate`, `GroupBy`: what a query asks for.
* `AggregatePlan`: how the answer is read; `aggregateBytes` and `aggregatePlan` make descriptor and plan.
-/

namespace NodeStore.Query

inductive AggregateKind where
  | count
  | sum
  | avg
  | min
  | max
  /-- The number of distinct values. -/
  | cardinality
  deriving DecidableEq, Inhabited

namespace AggregateKind

def all : List AggregateKind := [count, sum, avg, min, max, cardinality]

/-- The name of the kind in requests and answers. -/
def name : AggregateKind → String
  | count => "count"
  | sum => "sum"
  | avg => "avg"
  | min => "min"
  | max => "max"
  | cardinality => "cardinality"

def code : AggregateKind → UInt8
  | count => 1
  | sum => 2
  | avg => 3
  | min => 4
  | max => 5
  | cardinality => 6

/-- The kind of a code. -/
def ofCode? (code : UInt8) : Option AggregateKind := all.find? (·.code = code)

theorem ofCode?_code (k : AggregateKind) : ofCode? k.code = some k := by
  cases k <;> decide

/-- Kinds whose result is a whole number. -/
def isCount : AggregateKind → Bool
  | count | cardinality => true
  | _ => false

end AggregateKind

/-- One requested aggregate; only a count needs no field. -/
structure Aggregate where
  kind : AggregateKind
  field : Option String
  deriving DecidableEq, Inhabited

/-- Grouping by the value of a field, or by buckets of numbers; the width 0 stands for the value. -/
structure GroupBy where
  field : String
  bucket : Nat
  deriving DecidableEq, Inhabited

/-- How one result is read: the path of its field, empty for the count of nodes. -/
structure AggregateResult where
  kind : AggregateKind
  path : List String
  deriving DecidableEq, Inhabited

/-- How the answer to an aggregate query is read. -/
structure AggregatePlan where
  results : List AggregateResult
  group : Option (PropDef EdgeLayout × Nat)

/-- The place of a field. -/
def fieldHeader (p : PropDef EdgeLayout) : Bytes :=
  p.slot?.getD Limits.mainSlot :: p.type.tag :: leBytes 4 (p.offset?.getD 0)
    ++ leBytes 2 (if p.isMain then p.len else 0)

/-- The property that an aggregate names. -/
def fieldNamed (t : TypeLayout) (field : String) : Except Error (PropDef EdgeLayout) :=
  match t.prop? field with
  | some p => .ok p
  | none => .error (.unknownField t.name field)

/-- Can nodes be grouped by the property? -/
def GroupBy.supports (g : GroupBy) (p : PropDef EdgeLayout) : Bool :=
  if 0 < g.bucket then p.isMain && p.type.isNumeric
  else
    match p.type with
    | .enum | .boolean | .string | .alias => true
    | type => type.isInteger && p.isMain

/-- Can the aggregate be taken over the property? -/
def AggregateKind.supports (k : AggregateKind) (p : PropDef EdgeLayout) : Bool :=
  match k with
  | .count => true
  | .sum | .avg | .min | .max => p.isMain && p.type.isNumeric
  | .cardinality =>
    p.isMain ||
      match p.type with
      | .cardinality | .string | .alias => true
      | _ => false

/-- The descriptor of the grouping, and how groups are read. -/
def GroupBy.compile (t : TypeLayout) : Option GroupBy → Except Error (Bytes × Option (PropDef EdgeLayout × Nat))
  | none => .ok ([0], none)
  | some g => do
    let p ← fieldNamed t g.field
    if !g.supports p then throw (.unsupported p.name "group by" p.type)
    return (1 :: fieldHeader p ++ leBytes 8 g.bucket, some (p, g.bucket))

/-- The descriptor of one aggregate, the `index`-th of the query, and how its result is read. -/
def Aggregate.compile (t : TypeLayout) (index : Nat) (a : Aggregate) : Except Error (Bytes × AggregateResult) := do
  match a.field, a.kind with
  | none, .count =>
    let nowhere : Bytes := [Limits.mainSlot, 0] ++ leBytes 4 0 ++ leBytes 2 0
    return (a.kind.code :: nowhere ++ leBytes 2 index, ⟨.count, []⟩)
  | none, _ => throw .aggregateNeedsField
  | some field, kind =>
    let p ← fieldNamed t field
    if !kind.supports p then throw (.unsupported p.name kind.name p.type)
    return (kind.code :: fieldHeader p ++ leBytes 2 index, ⟨kind, p.path⟩)

/-- The descriptor of some aggregates, and how the answer is read. -/
def compileAggregates (t : TypeLayout) (aggregates : List Aggregate) (group : Option GroupBy) :
    Except Error (Bytes × AggregatePlan) := do
  let (header, group) ← GroupBy.compile t group
  let compiled ← aggregates.zipIdx.mapM fun (a, index) => a.compile t index
  return (header ++ leBytes 2 compiled.length ++ compiled.flatMap (·.1), ⟨compiled.map (·.2), group⟩)

end NodeStore.Query
