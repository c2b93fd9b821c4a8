/-!
# Limits of the format

The reserved slots and the greatest sizes that a schema, a write or a result may have.
-/

namespace NodeStore.Limits

/-- The slot of the main block. -/
def mainSlot : UInt8 := 0

/-- The pseudo slot that addresses a node's id in filters and sort orders. -/
def idSlot : UInt8 := 255

/-- Separate properties take the slots from 1 to here. -/
def maxSeparateSlot : Nat := 250

/-- The longest main block. -/
def maxMainLength : Nat := 65535

/-- Strings and binaries declared no longer than this live in the main block. -/
def maxFixedString : Nat := 60

/-- The greatest declared length of a separate string or binary. -/
def maxFieldLength : Nat := 64 * 1024 * 1024

/-- The greatest size of a vector, in bytes. -/
def maxVectorBytes : Nat := 64 * 1024

/-- The most labels of an enumeration: one byte, and 0 means unset. -/
def maxEnumValues : Nat := 255

/-- The most types of a schema. -/
def maxTypes : Nat := 65534

/-- The width of one comparison vector of a batched equality, in bytes. -/
def vectorWidth : Nat := 16

/-- The capacity of a write buffer unless a session chooses another. -/
def defaultMaxBuffer : Nat := 16 * 1024 * 1024

/-- The longest text that a compressed payload may hold. -/
def maxDecompressedLength : Nat := maxFieldLength

end NodeStore.Limits
