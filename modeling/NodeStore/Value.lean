import NodeStore.Assoc
import NodeStore.Binary64

/-!
# Values

What a caller writes into a node and what a query answers.

* `NodeRef`: a node by its id, or by the handle of a create that the engine has not acknowledged.
* `Value` and `Record`; a record is a map from names to values in increasing order of the names.
* `Value.asInt?`/`asDouble?`/`asString?`/`asRecord?`: the readings that several kinds of value share.
-/

namespace NodeStore

/-- The id that the engine gives a node. -/
abbrev NodeId := UInt32

/-- The number of a compiled type, from 1. -/
abbrev TypeId := UInt16

/-- A handle of a node whose create has not been acknowledged. -/
structure PendingId where
  raw : Nat
  deriving DecidableEq, Inhabited

/-- A node addressed by its id or by the handle of its create. -/
inductive NodeRef where
  | id (n : NodeId)
  | pending (p : PendingId)
  deriving DecidableEq, Inhabited

/-- A value. References are written as `ref` and `refs` and read back as objects and lists of objects. -/
inductive Value where
  | null
  | bool (b : Bool)
  /-- Integers, timestamps in milliseconds and node ids. -/
  | int (i : Int64)
  | float (x : Binary64)
  /-- Strings, aliases and labels of an enumeration. -/
  | string (s : String)
  | binary (bs : Bytes)
  /-- Localized text by locale code. -/
  | text (entries : List (String × String))
  | vector (xs : List Binary32)
  /-- One reference with the properties of its edge. -/
  | ref (target : NodeRef) (edges : List (String × Value))
  /-- Changes to a collection: the items that replace it, if any, then those added and those removed. -/
  | refs (replace : Option (List (NodeRef × List (String × Value)))) (add : List (NodeRef × List (String × Value)))
      (remove : List NodeRef)
  | object (fields : List (String × Value))
  | list (items : List Value)
  deriving Inhabited

/-- Named values in increasing order of the names. -/
abbrev Record := List (String × Value)

/-- A reference with the properties of its edge. -/
abbrev RefItem := NodeRef × Record

namespace Value

/-- The name of the kind of value in messages. -/
def kind : Value → String
  | null => "null"
  | bool _ => "bool"
  | int _ => "int"
  | float _ => "float"
  | string _ => "string"
  | binary _ => "binary"
  | text _ => "text"
  | vector _ => "vector"
  | ref .. => "reference"
  | refs .. => "references"
  | object _ => "object"
  | list _ => "list"

def isNull : Value → Bool
  | null => true
  | _ => false

/-- An integer, or a float without a fractional part. -/
def asInt? : Value → Option Int64
  | int i => some i
  | float x => if x.isWhole then some x.toInt64 else none
  | _ => none

def asDouble? : Value → Option Binary64
  | int i => some (.ofInt i.toInt)
  | float x => some x
  | _ => none

def asString? : Value → Option String
  | string s => some s
  | _ => none

def asRecord? : Value → Option Record
  | object r => some r
  | _ => none

end Value

end NodeStore
