import NodeStore.Engine.Condition
import NodeStore.Engine.Match
import NodeStore.Query.Sort

/-!
# Sorting results

Nodes are sorted by the key of one field. Nodes without a value come first; equal keys stand in the order of the ids,
which a descending order does not turn around. Two keys without an order, such as a NaN and a number, count as equal.

* `SortKey` and `SortKey.compare`; `sortKey`: the key of a node.
* `insertionSort`: each entry moves to the left as far as it is less than what stands there.
* `arrange`: the sorted part of a result.
-/

namespace NodeStore.Engine

open Query (SortSpec Range)

/-- What a node is sorted by. -/
inductive SortKey where
  | missing
  | number (n : Num)
  | bytes (bs : Bytes)
  deriving DecidableEq, Inhabited

namespace SortKey

/-- The order of two byte strings, by the first byte in which they differ. -/
def compareBytes : Bytes → Bytes → Ordering
  | [], [] => .eq
  | [], _ :: _ => .lt
  | _ :: _, [] => .gt
  | x :: xs, y :: ys => if x < y then .lt else if y < x then .gt else compareBytes xs ys

/-- The order of two keys. -/
def compare : SortKey → SortKey → Ordering
  | missing, missing => .eq
  | missing, _ => .lt
  | _, missing => .gt
  | number m, number n => (m.compare? n).getD .eq
  | bytes xs, bytes ys => compareBytes xs ys
  | number _, bytes _ => .lt
  | bytes _, number _ => .gt

end SortKey

/-- A locale and its fallbacks; no locale has none. -/
def localeChain (schema : SchemaLayout) (locale : UInt8) : List UInt8 :=
  if locale = Locale.none then [] else locale :: ((schema.localeById? locale).map (·.fallback)).getD []

/-- The text by which a node is sorted: that of the locale or of its first fallback that has one, else any. -/
def sortText (schema : SchemaLayout) (locale : UInt8) (entries : List (UInt8 × String)) : Option String :=
  (localeChain schema locale).findSome? (Assoc.find? · entries) <|> entries.head?.map (·.2)

/-- The key of the bytes of a main field. -/
def mainKey (type : PropType) (bs : Bytes) : SortKey :=
  match type with
  | .string | .binary => .bytes (shortContent bs)
  | type =>
    match Num.ofBytes? type bs with
    | some n => .number n
    | none => .bytes bs

/-- The key of a node. -/
def sortKey (schema : SchemaLayout) (spec : SortSpec) (id : NodeId) (n : StoredNode) : SortKey :=
  if spec.slot = Limits.idSlot then .number (.int id.toNat)
  else if spec.slot = Limits.mainSlot then
    if n.main.length < spec.start + spec.width then .missing
    else mainKey spec.type ((n.main.drop spec.start).take spec.width)
  else
    match n.field? spec.slot with
    | some (.bytes bs) => .bytes bs
    | some (.text entries) =>
      match sortText schema spec.locale entries with
      | some s => .bytes (Utf8.encode s)
      | none => .missing
    | _ => .missing

/-- Puts an entry into a sorted list whose greatest entry comes first. -/
def insertDown {α : Type} (less : α → α → Bool) (a : α) : List α → List α
  | [] => [a]
  | b :: bs => if less a b then b :: insertDown less a bs else a :: b :: bs

/-- Sorts by insertion from the right. -/
def insertionSort {α : Type} (less : α → α → Bool) (as : List α) : List α :=
  (as.foldl (fun sorted a => insertDown less a sorted) []).reverse

/-- Does one node stand before another? -/
def before (descending : Bool) (a b : SortKey × Subject) : Bool :=
  match if descending then (a.1.compare b.1).swap else a.1.compare b.1 with
  | .lt => true
  | .gt => false
  | .eq => a.2.id < b.2.id

/-- The nodes in the order of the keys. -/
def sortSubjects (schema : SchemaLayout) (spec : SortSpec) (ss : List Subject) : List Subject :=
  (insertionSort (before spec.descending) (ss.map fun s => (sortKey schema spec s.id s.node, s))).map (·.2)

/-- The part of a result that was asked for, in its order. -/
def arrange (schema : SchemaLayout) (sort : Option SortSpec) (range : Option Range) (ss : List Subject) :
    List Subject :=
  let sorted := match sort with
    | some spec => sortSubjects schema spec ss
    | none => ss
  match range with
  | some r => r.slice sorted
  | none => sorted

end NodeStore.Engine
