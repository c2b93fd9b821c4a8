import NodeStore.Binary64.Decimal
import NodeStore.Codec.Fixed
import NodeStore.Query.Aggregate
import NodeStore.Record
import NodeStore.Wire.Reader

/-!
# Reading aggregates

The answer to an aggregate query is a list of groups, each with its key and one value for every aggregate. Without a
grouping there is one group, and its record is the answer; otherwise each record stands under the label of its group.

* `groupLabel`: the label of a key.
* `decodeAggregates`: the whole answer.
-/

namespace NodeStore.Result

open Query

/-- The label of a value by which nodes are grouped. -/
def labelOf : Value → Except Wire.Error String
  | .null => .ok "null"
  | .bool b => .ok (if b then "true" else "false")
  | .int i => .ok (toString i.toInt)
  | .float x => .ok x.decimal
  | .string s => .ok s
  | _ => .error (.malformed "group key type")

/-- The value of a group's key: the start of a bucket, a main value, or the content of a string. -/
def keyValue (p : PropDef EdgeLayout) (bucket : Nat) (key : Bytes) : Except Wire.Error Value :=
  if 0 < bucket then
    if key.length ≠ 8 then .error (.malformed "bucket key")
    else if p.type = .number then .ok (.float (.ofBytes key))
    else .ok (.int (.ofInt (leInt key)))
  else if p.isMain then p.decodeFixed key
  else
    match Utf8.decode? key with
    | some s => .ok (.string s)
    | none => .error (.badUtf8 "group key")

/-- The label of a group. -/
def groupLabel (p : PropDef EdgeLayout) (bucket : Nat) (key : Bytes) : Except Wire.Error String := do
  labelOf (← keyValue p bucket key)

/-- The value of one aggregate: a count, or a number, where a NaN stands for no value. -/
def aggregateValue (kind : AggregateKind) (raw : Nat) : Value :=
  if kind.isCount then .int (.ofInt raw)
  else
    let x : Binary64 := ⟨UInt64.ofNat raw⟩
    if x.isNaN then .null else .float x

/-- Stores one aggregate: the count of nodes under its name, any other below the path of its field. -/
def putAggregate (r : Record) (a : AggregateResult) (raw : Nat) : Record :=
  let v := aggregateValue a.kind raw
  if a.path.isEmpty then r.insert "count" v else Record.insertPath v (a.path ++ [a.kind.name]) r

open Wire in
/-- The key of a group and its record. -/
def readGroup (results : List AggregateResult) : Read (Bytes × Record) := do
  let key ← Read.sized "group key"
  let r ← results.foldlM (fun r a => return putAggregate r a (← Read.nat 8 "aggregate value")) Record.empty
  return (key, r)

open Wire in
/-- The records of `n` groups under their labels, in the order of the answer. -/
def readGroups (results : List AggregateResult) (p : PropDef EdgeLayout) (bucket : Nat) :
    Nat → Read (List (String × Record))
  | 0 => return []
  | n + 1 => do
    let (key, r) ← readGroup results
    match groupLabel p bucket key with
    | .error e => throw e
    | .ok label =>
      let rest ← readGroups results p bucket n
      return (label, r) :: rest

/-- Does a label occur twice? -/
def repeats : List String → Bool
  | [] => false
  | l :: ls => ls.contains l || repeats ls

open Wire in
/-- Reads the answer of an aggregate query. -/
def readAggregates (plan : AggregatePlan) : Read Record := do
  let n ← Read.nat 4 "aggregate groups"
  match plan.group with
  | none =>
    if n = 0 then
      if !(← Read.atEnd) then throw (.malformed "bytes after aggregate groups")
      return .empty
    else return (← readGroup plan.results).2
  | some (p, bucket) =>
    let groups ← readGroups plan.results p bucket n
    if !(← Read.atEnd) then throw (.malformed "bytes after aggregate groups")
    if repeats (groups.map (·.1)) then throw (.malformed "duplicate group key")
    return Record.ofList (groups.map fun (label, r) => (label, .object r))

/-- The answer to an aggregate query. -/
def decodeAggregates (plan : AggregatePlan) (bs : Bytes) : Except Wire.Error Record := (readAggregates plan).run bs

end NodeStore.Result
