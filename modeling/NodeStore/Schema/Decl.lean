import NodeStore.Schema.PropType
import NodeStore.Value

/-!
# Declared schemas

What a caller writes down: the enabled locales and, for each type, its properties in any order.

* `PropDecl`: a leaf with its type and options, or an object that groups further properties.
* `SchemaDecl`: the whole declaration.
-/

namespace NodeStore

/-- A caller's own test of a value, run after the built-in ones; it answers why the value is refused. -/
abbrev Validator := Value → Except String Unit

/-- What a leaf may declare besides its type. -/
structure LeafOptions where
  /-- The type that a reference points to. -/
  reference : Option String := none
  /-- The property of that type which points back. -/
  inverse : Option String := none
  enumValues : List String := []
  maxBytes : Option Nat := none
  dims : Option Nat := none
  default : Option Value := none
  min : Option Binary64 := none
  max : Option Binary64 := none
  validator : Option Validator := none

/-- A declared property. -/
inductive PropDecl where
  /-- A property with a value of its own; a reference may store `edges` on each of its links. -/
  | leaf (type : PropType) (options : LeafOptions) (edges : List (String × PropDecl))
  | object (props : List (String × PropDecl))

/-- A declared locale with the codes to fall back to. -/
structure LocaleDecl where
  code : String
  fallback : List String := []
  required : Bool := false

/-- A declared schema. -/
structure SchemaDecl where
  locales : List LocaleDecl
  types : List (String × List (String × PropDecl))

end NodeStore
