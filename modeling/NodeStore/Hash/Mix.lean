import NodeStore.Bytes

/-!
# The hash of a sketched value

A sketch of distinct values keeps one 64-bit hash for each. Two lanes are seeded with fixed words, take the input
sixteen bytes at a time through a folded 128-bit product, and end with the length and a final multiplication.

* `Mix.digest`: the folded state; `Mix.hash`: the stored word.
-/

namespace NodeStore.Mix

def seed₁ : UInt64 := 0x243f6a8885a308d3
def seed₂ : UInt64 := 0x13198a2e03707344
def guard : UInt64 := 0xa4093822299f31d0
def multiplier : UInt64 := 0xf1357aea2e62a9c5

/-- The low and the high half of the 128-bit product, added without carry. -/
def fold (x y : UInt64) : UInt64 :=
  let p := x.toNat * y.toNat
  UInt64.ofNat (p % 2 ^ 64) ^^^ UInt64.ofNat (p / 2 ^ 64)

/-- A little-endian word of up to eight bytes. -/
def word (bs : Bytes) : UInt64 := UInt64.ofNat (leNat bs)

/-- One lane step over sixteen bytes. -/
def step (s : UInt64 × UInt64) (chunk : Bytes) : UInt64 × UInt64 :=
  (s.2, fold (s.1 ^^^ word (chunk.take 8)) (guard ^^^ word ((chunk.drop 8).take 8)))

/-- The lanes after `n` chunks. -/
def chunks : Nat → Bytes → UInt64 × UInt64 → UInt64 × UInt64
  | 0, _, s => s
  | n + 1, bs, s => chunks n (bs.drop 16) (step s bs)

/-- The last bytes enter the lanes; a short input is read from both of its ends. -/
def absorbTail (bs : Bytes) (s : UInt64 × UInt64) : UInt64 × UInt64 :=
  let n := bs.length
  if 16 < n then (s.1 ^^^ word ((bs.drop (n - 16)).take 8), s.2 ^^^ word (bs.drop (n - 8)))
  else if 8 ≤ n then (s.1 ^^^ word (bs.take 8), s.2 ^^^ word (bs.drop (n - 8)))
  else if 4 ≤ n then (s.1 ^^^ word (bs.take 4), s.2 ^^^ word (bs.drop (n - 4)))
  else if 0 < n then
    (s.1 ^^^ word (bs.take 1), s.2 ^^^ word ((bs.drop (n / 2)).take 1 ++ bs.drop (n - 1)))
  else s

/-- Long inputs take whole chunks first, never the last byte. -/
def digest (bs : Bytes) : UInt64 :=
  let n := bs.length
  let s := chunks (if 16 < n then (n - 1) / 16 else 0) bs (seed₁, seed₂)
  let s := absorbTail bs s
  fold s.1 s.2 ^^^ UInt64.ofNat n

/-- A word turned left by some bits. -/
def rotateLeft (x : UInt64) (k : Nat) : UInt64 := x <<< UInt64.ofNat k ||| x >>> UInt64.ofNat (64 - k)

/-- The hash of a byte string. -/
def hash (bs : Bytes) : UInt64 := rotateLeft (digest bs * multiplier) 26

end NodeStore.Mix
