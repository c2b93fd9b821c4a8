import NodeStore.Schema.Layout
import NodeStore.Text.Quoted
import NodeStore.Text.Utf8
import NodeStore.Wire.Error

/-!
# Values in the main block

A value of the main block fills exactly the width of its property: numbers little-endian, booleans one byte, labels
their number counted from 1, short strings and binaries a length byte and zeros behind.

* `PropDef.encodeFixed` / `PropDef.decodeFixed`.
* `Unencodable`: why a value has no such form.
-/

namespace NodeStore

/-- Why a value cannot be encoded. -/
inductive Unencodable where
  | width (given expected : Nat)
  | wrongKind (want : String)
  | unknownLabel (label : String)
  | tooLong (length max : Nat)
  | noFixedForm (type : PropType)
  | noSeparateForm (kind : String) (type : PropType)
  deriving DecidableEq, Inhabited

def Unencodable.message : Unencodable → String
  | width given expected => s!"main slice of {given} bytes for width {expected}"
  | wrongKind want => s!"expected {want}"
  | unknownLabel label => s!"unknown enum label {quoted label}"
  | tooLong length max => s!"length {length} exceeds {max}"
  | noFixedForm type => s!"{type.name} has no main representation"
  | noSeparateForm kind type => s!"cannot encode {kind} as separate {type.name}"

/-- A short byte string: its length, its bytes, and zeros up to the width. -/
def encodeShort (width : Nat) (bs : Bytes) : Except Unencodable Bytes :=
  if width ≤ bs.length then .error (.tooLong bs.length (width - 1))
  else .ok (UInt8.ofNat bs.length :: bs ++ List.replicate (width - 1 - bs.length) 0)

namespace PropDef

variable {E : Type}

/-- The bytes of a valid value in a main block field of the given width. -/
def encodeFixed (p : PropDef E) (width : Nat) (v : Value) : Except Unencodable Bytes :=
  if width ≠ p.len then .error (.width width p.len)
  else
    match p.type with
    | .number =>
      match v.asDouble? with
      | some x => .ok x.toBytes
      | none => .error (.wrongKind "number")
    | .boolean =>
      match v with
      | .bool b => .ok [if b then 1 else 0]
      | _ => .error (.wrongKind "boolean")
    | .enum =>
      match v.asString? with
      | none => .error (.wrongKind "enum label")
      | some label =>
        match p.enumIndex? label with
        | some i => .ok [i]
        | none => .error (.unknownLabel label)
    | .string | .binary =>
      match v with
      | .string s => encodeShort width (Utf8.encode s)
      | .binary bs => encodeShort width bs
      | _ => .error (.wrongKind "string or binary")
    | type =>
      if type.isInteger then
        match v.asInt? with
        | some i => .ok (intBytes width i.toInt)
        | none => .error (.wrongKind "integer")
      else .error (.noFixedForm type)

/-- The contents of a short byte string. -/
def decodeShort : Bytes → Except Wire.Error Bytes
  | [] => .error (.malformed "fixed width value")
  | n :: rest =>
    if rest.length < n.toNat then .error (.tooLong "fixed string" n.toNat rest.length)
    else .ok (rest.take n.toNat)

/-- The value in a main block field. -/
def decodeFixed (p : PropDef E) (bs : Bytes) : Except Wire.Error Value :=
  if bs.length ≠ p.len then .error (.malformed "main value width")
  else
    match p.type with
    | .number => .ok (.float (.ofBytes bs))
    | .timestamp | .int8 | .int16 | .int32 => .ok (.int (.ofInt (leInt bs)))
    | .uint8 | .uint16 | .uint32 => .ok (.int (.ofInt (leNat bs)))
    | .boolean =>
      if bs = [0] then .ok (.bool false)
      else if bs = [1] then .ok (.bool true)
      else .error (.malformed "boolean byte")
    | .enum =>
      match leNat bs with
      | 0 => .ok .null
      | i + 1 =>
        match p.enumValues[i]? with
        | some label => .ok (.string label)
        | none => .error (.malformed "enum index")
    | .string => do
      match Utf8.decode? (← decodeShort bs) with
      | some s => return .string s
      | none => throw (.badUtf8 "fixed string")
    | .binary => return .binary (← decodeShort bs)
    | _ => .error (.malformed "type has no main representation")

end PropDef

end NodeStore
