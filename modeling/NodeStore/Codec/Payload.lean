import NodeStore.Codec.Fixed
import NodeStore.Codec.Frame
import NodeStore.Hash.Mix
import NodeStore.Limits
import NodeStore.Wire.Writer

/-!
# Values outside the main block

A separate value is a payload of its own; what encloses it says its length. Strings and binaries start with a byte
that tells whether they are compressed, texts put the id of their locale in front of that, and a sketch of distinct
values is written as hashes and read back as an estimate.

* `Payload.plain` / `Payload.string`: string payloads; `Payload.text` / `Payload.localized`: text payloads.
* `PropDef.encodeSeparate` / `PropDef.decodeSeparate`.
-/

namespace NodeStore

namespace Payload

/-- Marks a payload that is stored as it is. -/
def uncompressed : UInt8 := 0

/-- Marks a compressed payload. -/
def compressed : UInt8 := 1

/-- The payload of a byte string. -/
def plain (bs : Bytes) : Bytes := uncompressed :: bs

/-- The payload of a text in one locale. -/
def localized (locale : UInt8) (s : String) : Bytes := locale :: plain (Utf8.encode s)

/-- The room that an unpacked payload of a declared length is given at first. -/
def room (declared : Nat) : Nat := if declared < 32 then declared + 1 else min declared 8192

/-- Does a fault show only to a reader that asks for more than the bytes before it? -/
def showsLate : Wire.FrameFault → Bool
  | .incomplete | .notAFrame => true
  | _ => false

/-- Unpacks a compressed payload. No more than one byte over the declared length is ever asked for, so a fault behind
that goes unnoticed. -/
def inflate (frame : Bytes) (declared : Nat) : Except Wire.Error Bytes :=
  if Limits.maxDecompressedLength < declared then
    .error (.tooLong "uncompressed size" declared Limits.maxDecompressedLength)
  else
    let ⟨bytes, fault⟩ := Frame.unpack (room declared) frame
    let tooMuch : Wire.Error := .sizeMismatch declared (declared + 1)
    match fault with
    | none =>
      if bytes.length = declared then .ok bytes else .error (.sizeMismatch declared (min bytes.length (declared + 1)))
    | some fault =>
      let unnoticed := if showsLate fault then declared < bytes.length else declared + 1 < bytes.length
      .error (if unnoticed then tooMuch else .badFrame fault)

/-- The bytes of a string payload. -/
def string (payload : Bytes) : Except Wire.Error Bytes :=
  match payload with
  | [] => .error (.endOfInput "compression flag")
  | flag :: rest =>
    if flag = uncompressed then .ok rest
    else if flag = compressed then
      if rest.length < 4 then .error (.endOfInput "uncompressed size")
      else inflate (rest.drop 4) (leNat (rest.take 4))
    else .error (.malformed "compression flag")

/-- The bytes of a string payload as a string. -/
def utf8 (payload : Bytes) (field : String) : Except Wire.Error String := do
  match Utf8.decode? (← string payload) with
  | some s => return s
  | none => throw (.badUtf8 field)

/-- The locale and the string of a text payload. -/
def text (payload : Bytes) : Except Wire.Error (UInt8 × String) :=
  match payload with
  | [] => .error (.endOfInput "text locale")
  | locale :: rest => return (locale, ← utf8 rest "text")

/-- A byte string cut into pieces of `w` bytes, `n` of them. -/
def pieces (w : Nat) : Nat → Bytes → List Bytes
  | 0, _ => []
  | n + 1, bs => bs.take w :: pieces w n (bs.drop w)

/-- The payload of some hashes. -/
def hashes (hs : List UInt64) : Bytes := leBytes 4 hs.length ++ hs.flatMap fun h => leBytes 8 h.toNat

/-- The hashes of a payload. -/
def readHashes (payload : Bytes) : Except Wire.Error (List UInt64) :=
  if payload.length < 4 then .error (.endOfInput "cardinality count")
  else
    let n := leNat (payload.take 4)
    let rest := payload.drop 4
    if n * 8 ≠ rest.length then .error (.overrun "cardinality hashes" (n * 8) rest.length)
    else .ok ((pieces 8 n rest).map fun h => UInt64.ofNat (leNat h))

/-- The elements of a vector. -/
def vector (payload : Bytes) : Except Wire.Error (List Binary32) :=
  if payload.length % 4 ≠ 0 then .error (.malformed "vector length")
  else .ok ((pieces 4 (payload.length / 4) payload).map .ofBytes)

end Payload

/-- The hash of one item of a sketch; other kinds of value have none. -/
def Value.sketchHash? : Value → Option UInt64
  | .string s => some (Mix.hash (Utf8.encode s))
  | .binary bs => some (Mix.hash bs)
  | _ => none

/-- The hashes of one item or of a list of items. -/
def Value.sketchHashes : Value → List UInt64
  | .list items => items.filterMap Value.sketchHash?
  | v => v.sketchHash?.toList

namespace PropDef

variable {E : Type}

/-- The payload of a valid value; texts and references have their own instructions. -/
def encodeSeparate (p : PropDef E) (v : Value) : Except Unencodable Bytes :=
  match p.type, v with
  | .string, .string s | .alias, .string s => .ok (Payload.plain (Utf8.encode s))
  | .binary, .binary bs => .ok (Payload.plain bs)
  | .cardinality, v => .ok (Payload.hashes v.sketchHashes)
  | .vector, .vector xs | .colvec, .vector xs => .ok (xs.flatMap (·.toBytes))
  | type, v => .error (.noSeparateForm v.kind type)

/-- The value of a payload in a result; a text comes back in its one locale. -/
def decodeSeparate (p : PropDef E) (payload : Bytes) : Except Wire.Error Value :=
  match p.type with
  | .string | .alias => return .string (← Payload.utf8 payload "string")
  | .binary => return .binary (← Payload.string payload)
  | .text => do
    let (locale, s) ← Payload.text payload
    match Locale.codeOf? locale with
    | some code => return .text [(code, s)]
    | none => throw (.malformed "text locale")
  | .cardinality =>
    if payload.length < 4 then .error (.endOfInput "cardinality estimate")
    else .ok (.int (.ofInt (leNat (payload.take 4))))
  | .vector | .colvec => return .vector (← Payload.vector payload)
  | _ => .error (.malformed "type has no separate payload")

end PropDef

end NodeStore
