import NodeStore.Text.Quoted

/-!
# Faults of encoded data

Why a byte string cannot be read, and what is said about it (`Error.message`).

* `FrameFault`: the reason against the frame of a compressed payload.
* `Error`: any fault met while reading.
-/

namespace NodeStore.Wire

/-- Why a compressed frame cannot be unpacked. -/
inductive FrameFault where
  | notAFrame
  | reservedBit
  | windowTooLarge
  | needsDictionary
  | corrupt
  | noRoom
  | incomplete
  deriving DecidableEq, Inhabited

def FrameFault.message : FrameFault → String
  | notAFrame => "Unknown frame descriptor"
  | reservedBit => "Unsupported frame parameter"
  | windowTooLarge => "Frame requires too much memory for decoding"
  | needsDictionary => "Dictionary mismatch"
  | corrupt => "Data corruption detected"
  | noRoom => "Destination buffer is too small"
  | incomplete => "incomplete frame"

/-- A fault met while reading. -/
inductive Error where
  | endOfInput (context : String)
  | overrun (context : String) (length remaining : Nat)
  | badOpcode (opcode : UInt8) (context : String)
  | unknownSlot (type : String) (slot : UInt8)
  | badTypeTag (tag : UInt8)
  | badUtf8 (field : String)
  | tooLong (field : String) (length max : Nat)
  /-- The frame of a compressed payload cannot be unpacked. -/
  | badFrame (reason : FrameFault)
  | sizeMismatch (declared actual : Nat)
  | malformed (context : String)
  deriving DecidableEq, Inhabited

/-- The text of a fault. -/
def Error.message : Error → String
  | endOfInput context => s!"unexpected end of input while reading {context}"
  | overrun context length remaining =>
    s!"{context} length {length} runs past the record boundary ({remaining} left)"
  | badOpcode opcode context => s!"invalid opcode {hexByte opcode} in {context}"
  | unknownSlot type slot => s!"unknown slot {slot} for type {quoted type}"
  | badTypeTag tag => s!"invalid type tag {tag}"
  | badUtf8 field => s!"invalid UTF-8 in {field}"
  | tooLong field length max => s!"{field} length {length} exceeds maximum {max}"
  | badFrame reason => s!"zstd decompression failed: {reason.message}"
  | sizeMismatch declared actual => s!"decompressed size {actual} doesn't match declared {declared}"
  | malformed context => s!"malformed encoding: {context}"

end NodeStore.Wire
