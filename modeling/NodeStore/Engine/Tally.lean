import NodeStore.Engine.Match
import NodeStore.Engine.Scan
import NodeStore.Query.Aggregate
import NodeStore.Wire.Writer

/-!
# Computing aggregates

The nodes of a result are put into groups by the key of one field, or into one group, and each aggregate is computed
over each group. Counts are whole numbers; the others are numbers, and a NaN where a group has no values.

* `FieldSpec`: a field by its place; `groupKey`, `groupsOf`: the groups in the order of their keys.
* `compute`: one aggregate over a group.
* `tally`: the whole answer.
-/

namespace NodeStore.Engine

open Query (AggregateKind)

/-- A field of an aggregate by its place; the count of nodes has no type. -/
structure FieldSpec where
  slot : UInt8
  type : Option PropType
  start : Nat
  width : Nat
  deriving DecidableEq, Inhabited

namespace FieldSpec

open Wire in
/-- The field at the front of what is left. -/
def read : Read FieldSpec := do
  let slot ← Read.byte "aggregate slot"
  let tag ← Read.byte "aggregate type"
  let start ← Read.nat 4 "aggregate start"
  let width ← Read.nat 2 "aggregate len"
  return ⟨slot, PropType.ofTag? tag, start, width⟩

def isMain (f : FieldSpec) : Bool := f.slot = Limits.mainSlot

/-- The bytes of a field of the main block. -/
def main? (f : FieldSpec) (n : StoredNode) : Option Bytes :=
  if n.main.length < f.start + f.width then none else some ((n.main.drop f.start).take f.width)

/-- The number in a field of the main block. -/
def num? (f : FieldSpec) (n : StoredNode) : Option Num := do Num.ofBytes? (← f.type) (← f.main? n)

end FieldSpec

/-- How nodes are grouped: by a field, in buckets of a width; the width 0 stands for the value itself. -/
structure Grouping where
  field : FieldSpec
  bucket : Nat
  deriving DecidableEq, Inhabited

/-- The start of the bucket of a number. -/
def bucketStart (bucket : Nat) : Num → Bytes
  | .int i => intBytes 8 (clamp (-(2 ^ 63)) (2 ^ 63 - 1) (i / bucket * bucket))
  | .float x =>
    let b := Binary64.ofInt bucket
    ((x.div b).floor.mul b).toBytes

/-- The key of a node; a node without one is in no group. -/
def groupKey (g : Grouping) (n : StoredNode) : Option Bytes :=
  if g.field.isMain then
    if g.bucket = 0 then g.field.main? n else (g.field.num? n).map (bucketStart g.bucket)
  else
    match n.field? g.field.slot with
    | some (.bytes bs) => some bs
    | _ => none

/-- Puts a node into its group, behind those that are in it. -/
def addToGroup (g : Grouping) (groups : List (Bytes × List StoredNode)) (n : StoredNode) :
    List (Bytes × List StoredNode) :=
  match groupKey g n with
  | none => groups
  | some key => Assoc.insert key ((Assoc.find? key groups).getD [] ++ [n]) groups

/-- The groups of some nodes in the order of the keys; without a grouping all nodes are in one. -/
def groupsOf (grouping : Option Grouping) (nodes : List StoredNode) : List (Bytes × List StoredNode) :=
  match grouping with
  | none => [([], nodes)]
  | some g => nodes.foldl (addToGroup g) []

/-- The first value combined with all others, if there is one. -/
def reduce? (f : Binary64 → Binary64 → Binary64) : List Binary64 → Option Binary64
  | [] => none
  | x :: xs => some (xs.foldl f x)

/-- The mean of some numbers. -/
def mean? (xs : List Binary64) : Option Binary64 :=
  if xs.isEmpty then none else some ((xs.foldl Binary64.add .zero).div (.ofInt xs.length))

/-- The hashes in the sketch of a field. -/
def sketchOf (slot : UInt8) (n : StoredNode) : List UInt64 :=
  match n.field? slot with
  | some (.sketch hashes) => hashes
  | _ => []

/-- The content of a field that holds a string. -/
def contentOf (slot : UInt8) (n : StoredNode) : Option Bytes :=
  match n.field? slot with
  | some (.bytes bs) => some bs
  | _ => none

/-- The number of distinct values of a field. -/
def distinct (f : FieldSpec) (nodes : List StoredNode) : Nat :=
  if f.isMain then (nodes.filterMap f.main?).eraseDups.length
  else (KeySet.ofList (nodes.flatMap (sketchOf f.slot))).length + (nodes.filterMap (contentOf f.slot)).eraseDups.length

/-- One aggregate over a group, as its 64 bits. A sum starts from the negative zero, which is the sum of nothing. -/
def compute (kind : UInt8) (f : FieldSpec) (nodes : List StoredNode) : Except Fault Nat :=
  let numbers := nodes.filterMap fun n => (f.num? n).map Num.toDouble
  let number (x : Option Binary64) : Nat := (x.getD .nan).bits.toNat
  match AggregateKind.ofCode? kind with
  | some .count =>
    if f.type.isNone || f.isMain then .ok nodes.length
    else .ok (nodes.countP fun n => (n.field? f.slot).isSome)
  | some .sum => .ok (numbers.foldl Binary64.add .negativeZero).bits.toNat
  | some .avg => .ok (number (mean? numbers))
  | some .min => .ok (number (reduce? Binary64.min numbers))
  | some .max => .ok (number (reduce? Binary64.max numbers))
  | some .cardinality => .ok (distinct f nodes)
  | none => .error (.wire (.badOpcode kind "aggregate kind"))

/-- A requested aggregate: its kind, its field, and the number of its result. -/
structure TallySpec where
  kind : UInt8
  field : FieldSpec
  result : Nat
  deriving DecidableEq, Inhabited

/-- Reads `n` of `count` requested aggregates. -/
def readSpecs (count : Nat) : Nat → Scan (List TallySpec)
  | 0 => return []
  | n + 1 => do
    let kind ← Wire.Read.byte "aggregate kind"
    let field ← FieldSpec.read
    let result ← Wire.Read.nat 2 "aggregate result"
    if count ≤ result then throw .aggregateIndex
    let rest ← readSpecs count n
    return ⟨kind, field, result⟩ :: rest

/-- Reads how nodes are grouped. -/
def readGrouping : Scan (Option Grouping) := do
  let flag ← Wire.Read.byte "group flag"
  if flag = 0 then return none
  else if flag = 1 then
    let field ← FieldSpec.read
    let bucket ← Wire.Read.nat 8 "bucket width"
    return some ⟨field, bucket⟩
  else throw (.wire (.malformed "group flag"))

/-- Reads a whole descriptor. -/
def readTally : Scan (Option Grouping × List TallySpec) := do
  let grouping ← readGrouping
  let n ← Wire.Read.nat 2 "aggregate count"
  let specs ← readSpecs n n
  return (grouping, specs)

/-- The results over one group, each in its place; a place that no aggregate has is 0. -/
def results (specs : List TallySpec) (nodes : List StoredNode) : Except Fault (List Nat) :=
  specs.foldlM (fun values s => return values.set s.result (← compute s.kind s.field nodes))
    (List.replicate specs.length 0)

/-- One group of the answer: its key and its results. -/
def groupAnswer (specs : List TallySpec) (group : Bytes × List StoredNode) : Except Fault Bytes :=
  return Wire.sized group.1 ++ (← results specs group.2).flatMap (leBytes 8)

/-- The answer to a descriptor over some nodes. -/
def tally (descriptor : Bytes) (nodes : List StoredNode) : Except Fault Bytes := do
  let (grouping, specs) ← readTally.run descriptor
  let groups := groupsOf grouping nodes
  return leBytes 4 groups.length ++ (← groups.mapM (groupAnswer specs)).flatten

end NodeStore.Engine
