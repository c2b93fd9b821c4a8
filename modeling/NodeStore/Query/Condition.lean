import NodeStore.Codec.Payload
import NodeStore.Query.Equality
import NodeStore.Query.Error
import NodeStore.Query.Filter

/-!
# Conditions

A condition compares one field of a node, given by its place, with an operand in the form in which the field stores
its values.

* `Condition`: a condition on the wire, with `Condition.encode` and `Condition.read`.
* `Field`: what a condition addresses, a property or the id of the node.
* `Field.condition`: the condition of an operator and a value.
-/

namespace NodeStore.Query

/-- A condition on the wire. -/
structure Condition where
  comparison : Comparison
  negate : Bool
  slot : UInt8
  type : PropType
  /-- Where the field starts in the main block. -/
  start : Nat
  width : Nat
  /-- The locale of a text; 0 is any. -/
  locale : UInt8
  operand : Bytes
  deriving DecidableEq, Inhabited

namespace Condition

/-- Added to the code of a negated comparison. -/
def negateFlag : UInt8 := 0x80

/-- The bytes of a condition. -/
def encode (c : Condition) : Bytes :=
  (if c.negate then c.comparison.code ||| negateFlag else c.comparison.code)
    :: c.slot :: c.type.tag :: leBytes 4 c.start ++ leBytes 2 c.width ++ c.locale :: Wire.sized c.operand

open Wire in
/-- The condition at the front of what is left. -/
def read : Read Condition := do
  let code ← Read.byte "condition op"
  let slot ← Read.byte "condition slot"
  let type ← Read.propType "condition type"
  let start ← Read.nat 4 "condition start"
  let width ← Read.nat 2 "condition width"
  let locale ← Read.byte "condition locale"
  let operand ← Read.sized "condition operand"
  return { comparison := .ofCode (code &&& ~~~negateFlag), negate := code &&& negateFlag ≠ 0,
           slot, type, start, width, locale, operand }

end Condition

/-- What a condition addresses. -/
inductive Field where
  /-- The id of the node. -/
  | id
  | prop (p : PropDef EdgeLayout)

namespace Field

def name : Field → String
  | id => "id"
  | prop p => p.name

def type : Field → PropType
  | id => .uint32
  | prop p => p.type

def slot : Field → UInt8
  | id => Limits.idSlot
  | prop p => p.slot?.getD Limits.mainSlot

def start : Field → Nat
  | id => 0
  | prop p => p.offset?.getD 0

/-- The width of the values that are compared, where it is fixed. -/
def width : Field → Nat
  | id => 4
  | prop p => if p.type = .reference then 4 else if p.isMain then p.len else 0

def isSeparate : Field → Bool
  | id => false
  | prop p => !p.isMain

/-- The types whose content is compared as a string of bytes. -/
def hasContent (f : Field) : Bool :=
  match f.type with
  | .string | .alias | .text | .binary => true
  | _ => false

def invalid {α : Type} (f : Field) (reason : BadOperand) : Except Error α := .error (.invalidValue f.name reason)

/-- Does the operator apply to the field? -/
def supports (f : Field) : Operator → Bool
  | .equal | .notEqual =>
    match f.type with
    | .vector | .colvec | .cardinality | .references => false
    | _ => true
  | .greater | .greaterEq | .less | .lessEq | .between => f.type.isNumeric
  | .includes | .notIncludes => f.hasContent || f.type = .references
  | .exists | .notExists => f.isSeparate

/-- The values of a list, or the one value. -/
def alternatives : Value → List Value
  | .list items => items
  | v => [v]

/-- The content of a string-like value. -/
def content (f : Field) : Value → Except Error Bytes
  | .string s => .ok (Utf8.encode s)
  | .binary bs => .ok bs
  | v => f.invalid (.wantsString v.kind)

/-- The id that a value stands for. -/
def nodeId (f : Field) (v : Value) : Except Error NodeId :=
  match v with
  | .ref (.id n) _ => .ok n
  | .ref (.pending _) _ => f.invalid .pendingId
  | v =>
    match v.asInt? with
    | some i =>
      if 0 ≤ i.toInt ∧ i.toInt < 2 ^ 32 then .ok (UInt32.ofNat i.toInt.toNat) else f.invalid .badNodeId
    | none => f.invalid .badNodeId

/-- A value in the form in which the field stores it. -/
def fixedBytes (f : Field) (v : Value) : Except Error Bytes := do
  match f with
  | prop p =>
    if p.type = .reference then return leBytes 4 (← f.nodeId v).toNat
    match p.validateBuiltin v with
    | .error e => f.invalid (.fault e)
    | .ok () =>
      match p.encodeFixed p.len v with
      | .error e => f.invalid (.unencodable e)
      | .ok bs => return bs
  | id => return leBytes 4 (← f.nodeId v).toNat

/-- The least value and the distance to the greatest one. -/
def rangeOperand (f : Field) (v : Value) : Except Error Bytes := do
  match alternatives v with
  | [min, max] =>
    let low ← f.fixedBytes min
    if f.type = .number then
      match min.asDouble?, max.asDouble? with
      | some lo, some hi =>
        if hi.lt lo then f.invalid .reversed
        return low ++ (hi.sub lo).toBytes
      | _, _ => f.invalid .wantsNumbers
    else
      match min.asInt?, max.asInt? with
      | some lo, some hi =>
        if hi.toInt < lo.toInt then f.invalid .reversed
        let _ ← f.fixedBytes max
        return low ++ intBytes low.length (hi.toInt - lo.toInt)
      | _, _ => f.invalid .wantsIntegers
  | _ => f.invalid .wantsPair

/-- The comparison with one of some values, and the operand. -/
def equality (f : Field) (v : Value) : Except Error (Comparison × Bytes) := do
  let values := alternatives v
  if values.isEmpty then f.invalid .noValues
  if f.hasContent then
    let contents ← values.mapM f.content
    return (.equalAny, leBytes 4 contents.length ++ contents.flatMap Wire.sized)
  else
    return equalityOperand (← values.mapM f.fixedBytes) f.width

/-- A part of the content, or the ids of which one has to be in the collection. -/
def includesOperand (f : Field) (v : Value) : Except Error Bytes := do
  if f.type = .references then
    return (← (alternatives v).mapM f.nodeId).flatMap fun n => leBytes 4 n.toNat
  else f.content v

/-- The comparison and the operand of an operator. -/
def operand (f : Field) (v : Value) : Operator → Except Error (Comparison × Bytes)
  | .equal | .notEqual => f.equality v
  | .greater => return (.greater, ← f.fixedBytes v)
  | .greaterEq => return (.greaterEq, ← f.fixedBytes v)
  | .less => return (.less, ← f.fixedBytes v)
  | .lessEq => return (.lessEq, ← f.fixedBytes v)
  | .between => return (.range, ← f.rangeOperand v)
  | .includes | .notIncludes => return (.includes, ← f.includesOperand v)
  | .exists | .notExists => return (.exists, [])

/-- The condition of an operator and a value, on texts in one locale. -/
def condition (f : Field) (operator : Operator) (v : Value) (locale : UInt8) : Except Error Condition := do
  if !f.supports operator then throw (.unsupported f.name operator.name f.type)
  let (comparison, operand) ← f.operand v operator
  return { comparison, negate := operator.negated, slot := f.slot, type := f.type, start := f.start, width := f.width,
           locale := if f.type = .text then locale else 0, operand }

end Field

end NodeStore.Query
