import NodeStore.Text.Quoted

/-!
# Why a schema is rejected

The first fault found rejects a declared schema as a whole.

* `Schema.Error` with its `message`; `Schema.BadProperty` is the reason against one property.
-/

namespace NodeStore.Schema

/-- What is wrong with the declaration of one property. -/
inductive BadProperty where
  | name
  | untypedReference
  | untypedEdgeReference
  | dimensions
  | unsupported
  | bounds
  | edgesOnValue
  | edgesOnEdge
  deriving DecidableEq, Inhabited

def BadProperty.message : BadProperty → String
  | name => "property names must be non-empty and may not be `id` or start with `$`"
  | untypedReference => "reference property without a target type"
  | untypedEdgeReference => "reference without a target type"
  | dimensions => "vector without dimensions"
  | unsupported => "unsupported type"
  | bounds => "min is greater than max"
  | edgesOnValue => "only references can declare edges"
  | edgesOnEdge => "edge properties cannot declare edges"

/-- Why a schema is rejected. -/
inductive Error where
  | duplicatePath (type path : String)
  | duplicateType (type : String)
  | unknownTarget (type path target : String)
  | invalidInverse (type path target inverse : String)
  | fieldTooLarge (type path : String) (length max : Nat)
  | mainBlockTooLarge (type : String) (length max : Nat)
  | tooManySeparate (type : String) (count max : Nat)
  | tooManyTypes (count max : Nat)
  | invalidEnum (type path : String) (count max : Nat)
  | unknownLocale (code : String)
  | invalidDefault (type path reason : String)
  | invalidProperty (type path : String) (reason : BadProperty)
  deriving DecidableEq, Inhabited

def Error.message : Error → String
  | duplicatePath type path => s!"type {quoted type} declares property {quoted path} more than once"
  | duplicateType type => s!"type {quoted type} is declared more than once"
  | unknownTarget type path target => s!"property {type}.{path} references unknown type {quoted target}"
  | invalidInverse type path target inverse =>
    s!"property {type}.{path}: inverse {quoted inverse} on {quoted target} is not a reference back to {quoted type}"
  | fieldTooLarge type path length max => s!"property {type}.{path} length {length} exceeds maximum {max}"
  | mainBlockTooLarge type length max => s!"type {quoted type} main block length {length} exceeds maximum {max}"
  | tooManySeparate type count max => s!"type {quoted type} has {count} separate properties (maximum {max})"
  | tooManyTypes count max => s!"schema declares {count} types (maximum {max})"
  | invalidEnum type path count max =>
    s!"enum {type}.{path} must declare between 1 and {max} values (got {count})"
  | unknownLocale code => s!"unknown locale {quoted code}"
  | invalidDefault type path reason => s!"property {type}.{path} has an invalid default: {reason}"
  | invalidProperty type path reason => s!"property {type}.{path}: {reason.message}"

end NodeStore.Schema
