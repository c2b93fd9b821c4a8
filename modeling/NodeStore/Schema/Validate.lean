import NodeStore.Binary64.Decimal
import NodeStore.Schema.Layout
import NodeStore.Text.Quoted
import NodeStore.Text.Utf8

/-!
# Validation of values

A value is tested before any byte of it is written: first its kind, then the declared bounds, then the property's own
validator. Null passes always; what it means is up to the writer.

* `PropDef.validateBuiltin`, `PropDef.validate`.
* `ValueFault` with its `message`.
-/

namespace NodeStore

/-- Why a value is refused for a property. -/
inductive ValueFault where
  | mismatch (expected kind : String)
  | below (value min : Binary64)
  | above (value max : Binary64)
  | outOfRange (value low high : Int)
  | nan
  | notALabel (label : String) (labels : List String)
  | tooLong (length max : Nat)
  | localeNotEnabled (code : String)
  | dimensions (expected actual : Nat)
  | notFinite
  | badNodeId (id : Int)
  /-- The property's own validator refused it. -/
  | refused (reason : String)
  deriving DecidableEq, Inhabited

def ValueFault.message : ValueFault → String
  | mismatch expected kind => s!"expected {expected}, got {kind}"
  | below value min => s!"{value.decimal} is below minimum {min.decimal}"
  | above value max => s!"{value.decimal} is above maximum {max.decimal}"
  | outOfRange value low high => s!"{value} is out of range {low}..={high}"
  | nan => "NaN is not allowed"
  | notALabel label labels => s!"{quoted label} is not one of {quotedList labels}"
  | tooLong length max => s!"length {length} exceeds max_bytes {max}"
  | localeNotEnabled code => s!"locale {quoted code} is not enabled"
  | dimensions expected actual => s!"expected {expected} dimensions, got {actual}"
  | notFinite => "vector values must be finite"
  | badNodeId id => s!"{id} is not a valid node id"
  | refused reason => reason

namespace PropDef

variable {E : Type}

/-- A value of the wrong kind. -/
def mismatch {α : Type} (expected : String) (v : Value) : Except ValueFault α :=
  .error (.mismatch expected v.kind)

def checkBounds (p : PropDef E) (x : Binary64) : Except ValueFault Unit := do
  match p.min with
  | some min => if x.lt min then throw (.below x min)
  | none => pure ()
  match p.max with
  | some max => if max.lt x then throw (.above x max)
  | none => pure ()

def checkLength (p : PropDef E) (length : Nat) : Except ValueFault Unit :=
  match p.maxBytes with
  | some max => if max < length then .error (.tooLong length max) else .ok ()
  | none => .ok ()

def validateInteger (p : PropDef E) (v : Value) : Except ValueFault Unit :=
  match v.asInt? with
  | none => mismatch "integer" v
  | some i => do
    match p.type.intRange? with
    | some (low, high) => if i.toInt < low ∨ high < i.toInt then throw (.outOfRange i.toInt low high)
    | none => pure ()
    p.checkBounds (.ofInt i.toInt)

def validateNumber (p : PropDef E) (v : Value) : Except ValueFault Unit :=
  match v.asDouble? with
  | none => mismatch "number" v
  | some x => if x.isNaN then .error .nan else p.checkBounds x

def validateEnum (p : PropDef E) (v : Value) : Except ValueFault Unit :=
  match v.asString? with
  | none => mismatch "enum label" v
  | some label =>
    if (p.enumIndex? label).isNone then .error (.notALabel label p.enumValues) else .ok ()

/-- Is the locale with this code enabled for the property? -/
def takesLocale (p : PropDef E) (code : String) : Bool :=
  match Locale.idOf? code with
  | some id => p.locales.contains id
  | none => false

def validateText (p : PropDef E) (v : Value) : Except ValueFault Unit :=
  match v with
  | .string s => p.checkLength (Utf8.size s)
  | .text entries => entries.forM fun (code, s) => do
    if !p.takesLocale code then throw (.localeNotEnabled code)
    p.checkLength (Utf8.size s)
  | _ => mismatch "text" v

/-- What a sketch takes as one item. -/
def validateSketchItem (expected : String) (v : Value) : Except ValueFault Unit :=
  match v with
  | .string _ | .binary _ => .ok ()
  | _ => mismatch expected v

def validateCardinality (v : Value) : Except ValueFault Unit :=
  match v with
  | .list items => items.forM (validateSketchItem "string or binary")
  | _ => validateSketchItem "string, binary or list" v

def validateVector (p : PropDef E) (v : Value) : Except ValueFault Unit :=
  match v with
  | .vector xs =>
    if xs.length ≠ p.dims.getD 0 then .error (.dimensions (p.dims.getD 0) xs.length)
    else if xs.all (·.isFinite) then .ok () else .error .notFinite
  | _ => mismatch "vector" v

/-- Ids are positive and have 32 bits. -/
def validateNodeId (i : Int64) : Except ValueFault Unit :=
  if 0 < i.toInt ∧ i.toInt < 2 ^ 32 then .ok () else .error (.badNodeId i.toInt)

def validateTarget (target : NodeRef) : Except ValueFault Unit :=
  if target = .id 0 then .error (.badNodeId 0) else .ok ()

def validateReference (v : Value) : Except ValueFault Unit :=
  match v with
  | .ref target _ => validateTarget target
  | .int i => validateNodeId i
  | _ => mismatch "reference" v

def validateReferences (v : Value) : Except ValueFault Unit :=
  match v with
  | .refs replace add remove => do
    ((replace.getD []) ++ add).forM fun item => validateTarget item.1
    remove.forM validateTarget
  | .list items => items.forM validateReference
  | _ => mismatch "references" v

/-- The tests that follow from the declaration. -/
def validateBuiltin (p : PropDef E) (v : Value) : Except ValueFault Unit :=
  if v.isNull then .ok ()
  else
    match p.type with
    | .timestamp | .int8 | .uint8 | .int16 | .uint16 | .int32 | .uint32 => p.validateInteger v
    | .number => p.validateNumber v
    | .boolean =>
      match v with
      | .bool _ => .ok ()
      | _ => mismatch "boolean" v
    | .enum => p.validateEnum v
    | .string | .alias =>
      match v with
      | .string s => p.checkLength (Utf8.size s)
      | _ => mismatch "string" v
    | .binary =>
      match v with
      | .binary bs => p.checkLength bs.length
      | _ => mismatch "binary" v
    | .text => p.validateText v
    | .cardinality => validateCardinality v
    | .vector | .colvec => p.validateVector v
    | .reference => validateReference v
    | .references => validateReferences v

/-- All tests of a value; the property's own validator never sees a null. -/
def validate (p : PropDef E) (v : Value) : Except ValueFault Unit := do
  p.validateBuiltin v
  if !v.isNull then
    match p.validator with
    | some check =>
      match check v with
      | .ok () => pure ()
      | .error reason => throw (.refused reason)
    | none => pure ()

end PropDef

end NodeStore
