import NodeStore.Query.Sort
import NodeStore.Value
import NodeStore.Wire.Writer

/-!
# Include descriptors

A descriptor tells the engine what a record has to hold: parts of the main block, separate fields, the nodes of
references with descriptors of their own, what the link stores, and sizes of collections.

* `IncludeItem` with `IncludeItem.encode`; `encodeIncludes` writes a descriptor.
-/

namespace NodeStore.Query

/-- One item of a descriptor. -/
inductive IncludeItem where
  /-- Parts of the main block, each by its start and its length; no parts stand for all of it. -/
  | main (parts : List (Nat × Nat))
  | field (slot tag locale : UInt8)
  /-- The nodes of a reference that pass a filter block; `one` tells a reference from a collection. -/
  | link (one : Bool) (slot : UInt8) (type : TypeId) (range : Range) (sort : Option SortSpec) (filter : Bytes)
      (body : List IncludeItem)
  | edge (body : List IncludeItem)
  | count (slot : UInt8)

namespace IncludeItem

def opMain : UInt8 := 1
def opField : UInt8 := 2
def opLink : UInt8 := 3
def opLinks : UInt8 := 4
def opEdge : UInt8 := 5
def opCount : UInt8 := 6

mutual

/-- The bytes of an item. -/
def encode : IncludeItem → Bytes
  | main parts =>
    opMain :: leBytes 2 parts.length ++ parts.flatMap fun (start, length) => leBytes 4 start ++ leBytes 2 length
  | field slot tag locale => [opField, slot, tag, locale]
  | link one slot type range sort filter body =>
    (if one then opLink else opLinks) :: slot :: leBytes 2 type.toNat ++ range.encode ++ SortSpec.encode sort
      ++ Wire.sized filter ++ Wire.sized (encodeAll body)
  | edge body => opEdge :: Wire.sized (encodeAll body)
  | count slot => [opCount, slot]

def encodeAll : List IncludeItem → Bytes
  | [] => []
  | i :: is => encode i ++ encodeAll is

end

end IncludeItem

/-- The bytes of a descriptor. -/
def encodeIncludes (items : List IncludeItem) : Bytes := IncludeItem.encodeAll items

end NodeStore.Query
