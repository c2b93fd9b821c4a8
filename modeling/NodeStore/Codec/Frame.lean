import NodeStore.Wire.Reader

/-!
# Compressed frames

A compressed payload is one frame: a magic number, a header that may declare the length of the contents, and blocks
that hold bytes as they are or one byte to be repeated. Blocks with entropy coding are not understood and make the
frame bad.

A frame is unpacked at once if it is there as a whole and there is room for its declared length, and block by block
otherwise. Only then may bytes come out of a bad frame.

* `Output`: the bytes that come out, with the fault behind them.
* `Frame.unpack`: the output of a frame.
-/

namespace NodeStore.Frame

open Wire (FrameFault)

/-- The four bytes in front of a frame. -/
def magic : Bytes := [0x28, 0xb5, 0x2f, 0xfd]

/-- What a frame's header says. -/
structure Header where
  /-- The declared length of the contents. -/
  contentSize : Option Nat
  /-- How far back blocks may refer. -/
  window : Nat
  /-- Do four bytes of checksum follow the blocks? -/
  checksum : Bool

/-- The largest block that a frame may hold. -/
def Header.maxBlock (h : Header) : Nat := min h.window (128 * 1024)

/-- The space in which the contents are made block by block. -/
def Header.space (h : Header) : Nat :=
  let ring := h.window + 2 * h.maxBlock + 64
  min (h.contentSize.getD ring) ring

/-- The bytes of the size field, from its code. -/
def sizeWidth (code : Nat) (singleSegment : Bool) : Nat :=
  if code = 0 then (if singleSegment then 1 else 0) else 2 ^ code

/-- The bytes of the dictionary id, from its code. -/
def dictionaryWidth (code : Nat) : Nat := if code = 3 then 4 else code

/-- The window that a descriptor byte asks for. -/
def windowSize (b : Nat) : Nat :=
  let base := 2 ^ (10 + b / 8)
  base + base / 8 * (b % 8)

/-- Takes `n` bytes off the front. -/
def split (n : Nat) (bs : Bytes) : Except FrameFault (Bytes × Bytes) :=
  if n ≤ bs.length then .ok (bs.take n, bs.drop n) else .error .incomplete

/-- Stops with a reason where a condition does not hold. -/
def ensure (p : Bool) (reason : FrameFault) : Except FrameFault Unit := if p then .ok () else .error reason

/-- The header and what follows it. A header has to be there as a whole before any of its fields counts. -/
def header (bs : Bytes) : Except FrameFault (Header × Bytes) := do
  ensure (bs.take 4 = magic.take bs.length) .notAFrame
  let (_, bs) ← split 4 bs
  let (d, bs) ← split 1 bs
  let d := leNat d
  let singleSegment := d / 32 % 2 = 1
  let (w, bs) ← split (if singleSegment then 0 else 1) bs
  let (id, bs) ← split (dictionaryWidth (d % 4)) bs
  let (size, bs) ← split (sizeWidth (d / 64) singleSegment) bs
  ensure (d / 8 % 2 = 0) .reservedBit
  ensure (leNat id = 0) .needsDictionary
  let contentSize :=
    if size.isEmpty then none else if size.length = 2 then some (leNat size + 256) else some (leNat size)
  let window := if singleSegment then contentSize.getD 0 else windowSize (leNat w)
  ensure (window ≤ 2 ^ 27 + 1) .windowTooLarge
  return (⟨contentSize, window, d / 4 % 2 = 1⟩, bs)

/-! ## Blocks -/

/-- A block: either so many bytes, or one byte so many times. -/
structure Block where
  last : Bool
  repeated : Bool
  size : Nat

/-- The three bytes in front of a block, and what follows them. -/
def block (bs : Bytes) : Except FrameFault (Block × Bytes) := do
  let (head, bs) ← split 3 bs
  let head := leNat head
  ensure (head / 2 % 4 < 2) .corrupt
  return (⟨head % 2 = 1, head / 2 % 4 = 1, head / 8⟩, bs)

/-- The contents of a block as far as they are there, and what follows if the block is there as a whole. -/
def Block.contents (b : Block) (bs : Bytes) : Bytes × Option Bytes :=
  if b.repeated then
    match bs with
    | [] => ([], none)
    | x :: rest => (List.replicate b.size x, some rest)
  else if b.size ≤ bs.length then (bs.take b.size, some (bs.drop b.size))
  else (bs, none)

/-- The contents of at most `n` blocks up to the last one, if all of them are there, and what follows. -/
def blocks? : Nat → Bytes → Option (Bytes × Bytes)
  | 0, _ => none
  | n + 1, bs => do
    let (b, rest) ← (block bs).toOption
    let (contents, rest?) := b.contents rest
    let rest ← rest?
    if b.last then return (contents, rest)
    let (more, rest) ← blocks? n rest
    return (contents ++ more, rest)

/-! ## Unpacking -/

/-- The bytes that come out of a frame, and the fault behind them if the frame does not end well. -/
structure Output where
  bytes : Bytes
  fault : Option FrameFault

/-- The fault of what stands behind the last block. -/
def Header.ending (h : Header) (rest : Bytes) : Option FrameFault :=
  let checksum := if h.checksum then 4 else 0
  if rest.length < checksum then some .incomplete else if rest.length = checksum then none else some .notAFrame

/-- The fault of a block by its size. -/
def Header.blockFault (h : Header) (b : Block) : Option FrameFault :=
  if b.repeated ∧ h.space < b.size then some .noRoom
  else if h.maxBlock < b.size then some .corrupt
  else none

/-- The output of at most `n` blocks behind `seen` bytes of contents. The declared length is compared at the end of the
last block; an empty block of bytes has no such end. -/
def Header.stream (h : Header) (seen : Nat) : Nat → Bytes → Output
  | 0, _ => ⟨[], some .incomplete⟩
  | n + 1, bs =>
    match block bs with
    | .error fault => ⟨[], some fault⟩
    | .ok (b, rest) =>
      match h.blockFault b, b.contents rest with
      | some fault, _ => ⟨[], some fault⟩
      | none, (contents, none) => ⟨contents, some .incomplete⟩
      | none, (contents, some rest) =>
        let seen := seen + contents.length
        if b.last then
          if (b.repeated ∨ b.size ≠ 0) ∧ h.contentSize.any (· ≠ seen) then ⟨[], some .corrupt⟩
          else ⟨contents, h.ending rest⟩
        else
          let more := h.stream seen n rest
          ⟨contents ++ more.bytes, more.fault⟩

/-- The output of a whole frame that declares `size` bytes, made in `room` bytes. -/
def atOnce (room size : Nat) (contents : Bytes) (ending : Option FrameFault) : Output :=
  if room < contents.length then ⟨[], some .noRoom⟩
  else if contents.length ≠ size then ⟨[], some .corrupt⟩
  else ⟨contents, ending⟩

/-- The output of the frame in a byte string, with room for so many bytes. Every block has a header, so the bytes bound
the blocks. -/
def unpack (room : Nat) (bs : Bytes) : Output :=
  match header bs with
  | .error fault => ⟨[], some fault⟩
  | .ok (h, bs) =>
    match h.contentSize, blocks? bs.length bs with
    | some size, some (contents, rest) =>
      if size ≤ room ∧ h.ending rest ≠ some .incomplete then atOnce room size contents (h.ending rest)
      else h.stream 0 bs.length bs
    | _, _ => h.stream 0 bs.length bs

end NodeStore.Frame
