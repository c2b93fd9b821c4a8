import NodeStore.Bytes

/-!
# The bounded write buffer

Instructions are appended whole: one that does not fit is refused before any of its bytes land in the buffer.

* `Buffer.append` answers the position where the bytes start, or `BufferFull`.
* `Buffer.patchByte`, `Buffer.patchWord`: bytes replaced in place.
-/

namespace NodeStore.Write

/-- The buffer cannot take the next instruction. -/
structure BufferFull where
  needed : Nat
  available : Nat
  deriving DecidableEq, Inhabited

def BufferFull.message (e : BufferFull) : String :=
  s!"write buffer full: need {e.needed} bytes, {e.available} available"

/-- Written bytes and the capacity; `none` is no limit. -/
structure Buffer where
  bytes : Bytes
  max : Option Nat
  deriving DecidableEq, Inhabited

namespace Buffer

def new (max : Nat) : Buffer := ⟨[], some max⟩

/-- A buffer without a limit, for blocks inside an instruction. -/
def unbounded : Buffer := ⟨[], none⟩

def length (b : Buffer) : Nat := b.bytes.length

def isEmpty (b : Buffer) : Bool := b.bytes.isEmpty

/-- Is there room for `needed` more bytes? -/
def ensure (b : Buffer) (needed : Nat) : Except BufferFull Unit :=
  match b.max with
  | none => .ok ()
  | some max => if needed ≤ max - b.length then .ok () else .error ⟨needed, max - b.length⟩

/-- Appends a whole instruction; the answer is where it starts. -/
def append (b : Buffer) (bs : Bytes) : Except BufferFull (Nat × Buffer) := do
  b.ensure bs.length
  return (b.length, { b with bytes := b.bytes ++ bs })

/-- Drops what follows the first `n` bytes. -/
def truncate (b : Buffer) (n : Nat) : Buffer := { b with bytes := b.bytes.take n }

def patchByte (b : Buffer) (pos : Nat) (v : UInt8) : Buffer := { b with bytes := Bytes.overwrite pos [v] b.bytes }

def patchWord (b : Buffer) (pos : Nat) (v : UInt32) : Buffer :=
  { b with bytes := Bytes.overwrite pos (leBytes 4 v.toNat) b.bytes }

/-- The contents, and the buffer emptied. -/
def take (b : Buffer) : Bytes × Buffer := (b.bytes, { b with bytes := [] })

end Buffer

end NodeStore.Write
