/-!
# Types of properties

The closed set of property types with their tags on the wire and what follows from the type alone.

* `PropType.tag` / `PropType.ofTag?`.
* `fixedWidth`, `isInteger`, `intRange?`, `alwaysSeparate`: where and how a value of the type is stored.
-/

namespace NodeStore

/-- The type of a property. -/
inductive PropType where
  | timestamp | number | cardinality | uint8 | uint32 | boolean | enum | string | text | reference | references
  | «alias» | int8 | int16 | uint16 | int32 | binary | vector | colvec
  deriving DecidableEq, Inhabited

namespace PropType

def all : List PropType :=
  [timestamp, number, cardinality, uint8, uint32, boolean, enum, string, text, reference, references, «alias», int8,
    int16, uint16, int32, binary, vector, colvec]

/-- The tag on the wire. -/
def tag : PropType → UInt8
  | timestamp => 1
  | number => 4
  | cardinality => 5
  | uint8 => 6
  | uint32 => 7
  | boolean => 9
  | enum => 10
  | string => 11
  | text => 12
  | reference => 13
  | references => 14
  | «alias» => 18
  | int8 => 20
  | int16 => 21
  | uint16 => 22
  | int32 => 23
  | binary => 25
  | vector => 27
  | colvec => 30

/-- The type with a given tag. -/
def ofTag? (tag : UInt8) : Option PropType := all.find? (fun t => t.tag = tag)

theorem ofTag?_tag (t : PropType) : ofTag? t.tag = some t := by
  cases t <;> decide

/-- The name of the type in messages. -/
def name : PropType → String
  | timestamp => "Timestamp"
  | number => "Number"
  | cardinality => "Cardinality"
  | uint8 => "Uint8"
  | uint32 => "Uint32"
  | boolean => "Boolean"
  | enum => "Enum"
  | string => "String"
  | text => "Text"
  | reference => "Reference"
  | references => "References"
  | «alias» => "Alias"
  | int8 => "Int8"
  | int16 => "Int16"
  | uint16 => "Uint16"
  | int32 => "Int32"
  | binary => "Binary"
  | vector => "Vector"
  | colvec => "ColVec"

/-- The width of a number-like type. -/
def fixedWidth : PropType → Option Nat
  | timestamp | number => some 8
  | int32 | uint32 => some 4
  | int16 | uint16 => some 2
  | int8 | uint8 | boolean | enum => some 1
  | _ => none

/-- Types whose values are integers, timestamps included. -/
def isInteger : PropType → Bool
  | timestamp | int8 | uint8 | int16 | uint16 | int32 | uint32 => true
  | _ => false

def isNumeric (t : PropType) : Bool := t.isInteger || t = number

def isSigned : PropType → Bool
  | timestamp | int8 | int16 | int32 => true
  | _ => false

def isReference : PropType → Bool
  | reference | references => true
  | _ => false

/-- Types whose values may be stored with a length in front. -/
def isStringLike : PropType → Bool
  | string | «alias» | text => true
  | _ => false

/-- Types that never live in the main block. -/
def alwaysSeparate : PropType → Bool
  | vector | colvec | text | reference | references | «alias» | cardinality => true
  | _ => false

/-- The least and the greatest value of an integer type. -/
def intRange? : PropType → Option (Int × Int)
  | int8 => some (-128, 127)
  | uint8 => some (0, 255)
  | int16 => some (-32768, 32767)
  | uint16 => some (0, 65535)
  | int32 => some (-2147483648, 2147483647)
  | uint32 => some (0, 4294967295)
  | timestamp => some (-9223372036854775808, 9223372036854775807)
  | _ => none

end PropType

end NodeStore
