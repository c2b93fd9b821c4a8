import NodeStore.Binary64
import NodeStore.Schema.PropType

/-!
# Stored numbers

* `readInt`: the integer of some bytes.
* `Num` and `Num.ofBytes?`: the number that bytes stand for in a property type; `Num.compare?` compares two of them.
* `addDelta`: a counter after an amount was added or subtracted, held at the ends of its range.
-/

namespace NodeStore.Engine

/-- The integer of at most eight bytes; what follows them is ignored. -/
def readInt (signed : Bool) (bs : Bytes) : Int := if signed then leInt (bs.take 8) else leNat (bs.take 8)

/-- A number as it is compared. -/
inductive Num where
  | int (i : Int)
  | float (x : Binary64)
  deriving DecidableEq, Inhabited

namespace Num

def toDouble : Num → Binary64
  | int i => .ofInt i
  | float x => x

/-- The order of two doubles; a NaN has none. -/
def compareDoubles? (x y : Binary64) : Option Ordering :=
  if x.isNaN || y.isNaN then none else some (compare x.key y.key)

/-- The order of two numbers; a NaN has none. -/
def compare? : Num → Num → Option Ordering
  | int i, int j => some (compare i j)
  | a, b => compareDoubles? a.toDouble b.toDouble

/-- The number that bytes stand for. -/
def ofBytes? (type : PropType) (bs : Bytes) : Option Num :=
  if type = .number then (if bs.length = 8 then some (float (.ofBytes bs)) else none)
  else if type = .reference then some (int (readInt false bs))
  else if type.isInteger then some (int (readInt type.isSigned bs))
  else none

end Num

/-- The integer in a range that is nearest to `i`. -/
def clamp (low high i : Int) : Int := max low (min high i)

/-- A counter after an amount was added or subtracted. -/
def addDelta (type : PropType) (decrement : Bool) (delta field : Bytes) : Bytes :=
  if type = .number then
    let x := Binary64.ofBytes field
    let d := Binary64.ofBytes delta
    (if decrement then x.sub d else x.add d).toBytes
  else
    let i := readInt type.isSigned field
    let d := readInt type.isSigned delta
    let next := if decrement then i - d else i + d
    match type.intRange? with
    | some (low, high) => intBytes field.length (clamp low high next)
    | none => intBytes field.length next

end NodeStore.Engine
