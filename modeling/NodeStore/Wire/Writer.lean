import NodeStore.Binary64

/-!
# Writing encoded data

A `Writer` is the bytes written so far. A region can be reserved with zeros and filled once what follows it is known:
`openSized` reserves a length, `closeSized` fills it with the number of bytes written since.

* `sized body`: a length in four bytes, then the body.
* `Writer.append`, `reserve`, `patch`, `openSized`, `closeSized`.
-/

namespace NodeStore.Wire

/-- A length in four bytes, then that many bytes. -/
def sized (body : Bytes) : Bytes := leBytes 4 body.length ++ body

/-- The bytes written so far. -/
structure Writer where
  bytes : Bytes
  deriving DecidableEq, Inhabited

namespace Writer

def empty : Writer := ⟨[]⟩

def length (w : Writer) : Nat := w.bytes.length

def isEmpty (w : Writer) : Bool := w.bytes.isEmpty

def append (w : Writer) (bs : Bytes) : Writer := ⟨w.bytes ++ bs⟩

/-- Drops what was written after the first `n` bytes. -/
def truncate (w : Writer) (n : Nat) : Writer := ⟨w.bytes.take n⟩

/-- Reserves `n` zero bytes; the answer is their position. -/
def reserve (n : Nat) (w : Writer) : Nat × Writer := (w.length, w.append (List.replicate n 0))

/-- Fills a reserved region. -/
def patch (w : Writer) (pos : Nat) (bs : Bytes) : Writer := ⟨Bytes.overwrite pos bs w.bytes⟩

/-- Reserves a length; the answer is its position. -/
def openSized (w : Writer) : Nat × Writer := w.reserve 4

/-- Fills a reserved length with the number of bytes behind it, and answers that number. -/
def closeSized (w : Writer) (pos : Nat) : Nat × Writer :=
  let size := w.length - (pos + 4)
  (size, w.patch pos (leBytes 4 size))

end Writer

end NodeStore.Wire
