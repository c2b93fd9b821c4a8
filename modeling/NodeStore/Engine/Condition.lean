import NodeStore.Engine.Number
import NodeStore.Engine.Store
import NodeStore.Query.Condition

/-!
# Conditions on stored nodes

A condition is tested against the bytes that a node stores. Values of a fixed width are compared as a whole or as
numbers, contents of strings byte by byte.

* `Condition.fixed` and `Condition.content`: the two kinds of comparison.
* `Condition.holds`: the test of a node.
-/

namespace NodeStore

open Engine

/-- Does a byte string occur in another? -/
def Bytes.hasInfix (needle : Bytes) : Bytes → Bool
  | [] => needle.isEmpty
  | b :: bs => needle.isPrefixOf (b :: bs) || hasInfix needle bs

/-- The content of a short string or binary of the main block. -/
def shortContent : Bytes → Bytes
  | [] => []
  | n :: rest => rest.take n.toNat

namespace Query.Condition

def inapplicable {α : Type} (c : Condition) : Except Fault α := .error (.inapplicable c.comparison.code c.type)

/-- How the number that some bytes stand for compares with the operand. -/
def ordering? (c : Condition) (bs : Bytes) : Option Ordering := do
  (← Num.ofBytes? c.type bs).compare? (← Num.ofBytes? c.type c.operand)

/-- Is a number in the range of the operand, the least value and a distance? -/
def inRange (c : Condition) (bs : Bytes) : Except Fault Bool :=
  if c.operand.length < bs.length then .error .shortRange
  else
    let least := c.operand.take bs.length
    let distance := c.operand.drop bs.length
    if c.type = .number then
      match Num.ofBytes? .number bs, Num.ofBytes? .number least, Num.ofBytes? .number distance with
      | some (.float x), some (.float low), some (.float d) => .ok (low.le x && x.le (low.add d))
      | _, _, _ => .error .numberRange
    else
      let d := readInt c.type.isSigned bs - readInt c.type.isSigned least
      .ok (0 ≤ d && d ≤ readInt false distance)

/-- The comparison of a value of a fixed width. -/
def fixed (c : Condition) (bs : Bytes) : Except Fault Bool :=
  match c.comparison with
  | .equal => .ok (bs = c.operand)
  | .equalSmall | .equalLarge => .ok ((Payload.pieces bs.length (c.operand.length / bs.length) c.operand).contains bs)
  | .greater => .ok (c.ordering? bs = some .gt)
  | .greaterEq => .ok (c.ordering? bs = some .gt || c.ordering? bs = some .eq)
  | .less => .ok (c.ordering? bs = some .lt)
  | .lessEq => .ok (c.ordering? bs = some .lt || c.ordering? bs = some .eq)
  | .range => c.inRange bs
  | _ => c.inapplicable

open Wire in
/-- Is one of `n` contents among the candidates? What follows the first one found is not read. -/
def anyWanted (candidates : List Bytes) : Nat → Read Bool
  | 0 => return false
  | n + 1 => do
    let wanted ← Read.sized "value"
    if candidates.contains wanted then return true else anyWanted candidates n

open Wire in
/-- Is one of the contents of an operand among the candidates? -/
def anyContent (candidates : List Bytes) : Read Bool := do
  let n ← Read.nat 4 "value count"
  anyWanted candidates n

/-- The comparison of contents, of which one has to match. -/
def content (c : Condition) (candidates : List Bytes) : Except Fault Bool :=
  match c.comparison with
  | .equalAny => ofWire ((anyContent candidates).run c.operand)
  | .includes => .ok (candidates.any (Bytes.hasInfix c.operand))
  | _ => c.inapplicable

/-- The texts that a condition is about: those of one locale, or all. -/
def textsOf (c : Condition) (entries : List (UInt8 × String)) : List Bytes :=
  if c.locale = Locale.none then entries.map fun e => Utf8.encode e.2
  else ((Assoc.find? c.locale entries).map Utf8.encode).toList

/-- Is there anything in a separate field? -/
def present {E : Type} (c : Condition) : Option (Content E) → Bool
  | none => false
  | some (.refs links) => !links.isEmpty
  | some (.text entries) => !(c.textsOf entries).isEmpty
  | some _ => true

/-- The test of a separate field. Only the absence of a value is certain where there is none. -/
def separate {E : Type} (c : Condition) (field : Option (Content E)) : Except Fault Bool :=
  if c.comparison = .exists then .ok (c.present field)
  else
    match field with
    | none => .ok false
    | some (.ref l) => c.fixed (leBytes 4 l.id.toNat)
    | some (.refs links) =>
      if c.comparison = .includes then
        .ok ((Payload.pieces 4 (c.operand.length / 4) c.operand).any fun id => links.any (leBytes 4 ·.id.toNat = id))
      else c.inapplicable
    | some (.bytes bs) => c.content [bs]
    | some (.text entries) => c.content (c.textsOf entries)
    | some (.sketch _) => c.inapplicable

/-- The test of a field of the main block. -/
def ofMain (c : Condition) (main : Bytes) : Except Fault Bool :=
  if main.length < c.start + c.width then .error .conditionPlace
  else
    let bs := (main.drop c.start).take c.width
    match c.type with
    | .string | .binary => c.content [shortContent bs]
    | _ => c.fixed bs

/-- Does a condition hold on a node? -/
def holds {E : Type} (c : Condition) (id : NodeId) (n : Node E) : Except Fault Bool := do
  let hit ← if c.slot = Limits.idSlot then c.fixed (leBytes 4 id.toNat)
    else if c.slot = Limits.mainSlot then c.ofMain n.main
    else c.separate (n.field? c.slot)
  return hit != c.negate

end Query.Condition

end NodeStore
