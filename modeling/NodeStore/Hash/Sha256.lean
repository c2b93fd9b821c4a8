import NodeStore.Bytes

/-!
# SHA-256

The digest behind a schema's fingerprint: the message is padded with a one bit and its length in bits, and each block
of 64 bytes goes through 64 rounds.

* `Sha256.digest`.
-/

namespace NodeStore.Sha256

def constants : List UInt32 :=
  [0x428a2f98, 0x71374491, 0xb5c0fbcf, 0xe9b5dba5, 0x3956c25b, 0x59f111f1, 0x923f82a4, 0xab1c5ed5,
   0xd807aa98, 0x12835b01, 0x243185be, 0x550c7dc3, 0x72be5d74, 0x80deb1fe, 0x9bdc06a7, 0xc19bf174,
   0xe49b69c1, 0xefbe4786, 0x0fc19dc6, 0x240ca1cc, 0x2de92c6f, 0x4a7484aa, 0x5cb0a9dc, 0x76f988da,
   0x983e5152, 0xa831c66d, 0xb00327c8, 0xbf597fc7, 0xc6e00bf3, 0xd5a79147, 0x06ca6351, 0x14292967,
   0x27b70a85, 0x2e1b2138, 0x4d2c6dfc, 0x53380d13, 0x650a7354, 0x766a0abb, 0x81c2c92e, 0x92722c85,
   0xa2bfe8a1, 0xa81a664b, 0xc24b8b70, 0xc76c51a3, 0xd192e819, 0xd6990624, 0xf40e3585, 0x106aa070,
   0x19a4c116, 0x1e376c08, 0x2748774c, 0x34b0bcb5, 0x391c0cb3, 0x4ed8aa4a, 0x5b9cca4f, 0x682e6ff3,
   0x748f82ee, 0x78a5636f, 0x84c87814, 0x8cc70208, 0x90befffa, 0xa4506ceb, 0xbef9a3f7, 0xc67178f2]

/-- The eight words carried from block to block. -/
structure State where
  a : UInt32
  b : UInt32
  c : UInt32
  d : UInt32
  e : UInt32
  f : UInt32
  g : UInt32
  h : UInt32

def start : State :=
  ⟨0x6a09e667, 0xbb67ae85, 0x3c6ef372, 0xa54ff53a, 0x510e527f, 0x9b05688c, 0x1f83d9ab, 0x5be0cd19⟩

/-- A word turned right. -/
def rotate (x k : UInt32) : UInt32 := x >>> k ||| x <<< (32 - k)

/-- The next word of the message schedule, from the sixteen before it. -/
def nextWord (ws : Array UInt32) : UInt32 :=
  let n := ws.size
  let x := ws.getD (n - 15) 0
  let y := ws.getD (n - 2) 0
  let s₀ := rotate x 7 ^^^ rotate x 18 ^^^ x >>> 3
  let s₁ := rotate y 17 ^^^ rotate y 19 ^^^ y >>> 10
  ws.getD (n - 16) 0 + s₀ + ws.getD (n - 7) 0 + s₁

/-- A message schedule with `n` more words. -/
def extend : Nat → Array UInt32 → Array UInt32
  | 0, ws => ws
  | n + 1, ws => extend n (ws.push (nextWord ws))

/-- One round with its constant and its word of the schedule. -/
def round (s : State) (k w : UInt32) : State :=
  let s₁ := rotate s.e 6 ^^^ rotate s.e 11 ^^^ rotate s.e 25
  let choice := (s.e &&& s.f) ^^^ (~~~s.e &&& s.g)
  let t₁ := s.h + s₁ + choice + k + w
  let s₀ := rotate s.a 2 ^^^ rotate s.a 13 ^^^ rotate s.a 22
  let majority := (s.a &&& s.b) ^^^ (s.a &&& s.c) ^^^ (s.b &&& s.c)
  ⟨t₁ + (s₀ + majority), s.a, s.b, s.c, s.d + t₁, s.e, s.f, s.g⟩

/-- The rounds over a block given by its sixteen words. -/
def compress (s : State) (words : Array UInt32) : State :=
  let ws := extend 48 words
  let r := (constants.zip ws.toList).foldl (fun s kw => round s kw.1 kw.2) s
  ⟨s.a + r.a, s.b + r.b, s.c + r.c, s.d + r.d, s.e + r.e, s.f + r.f, s.g + r.g, s.h + r.h⟩

/-- A big-endian word. -/
def word (a b c d : UInt8) : UInt32 :=
  a.toUInt32 <<< 24 ||| b.toUInt32 <<< 16 ||| c.toUInt32 <<< 8 ||| d.toUInt32

/-- The message behind the words already gathered of its current block; a block is worked off once it is full. -/
def absorb (s : State) (words : Array UInt32) : Bytes → State
  | a :: b :: c :: d :: rest =>
    let words := words.push (word a b c d)
    if words.size = 16 then absorb (compress s words) #[] rest else absorb s words rest
  | _ => s

/-- The message with a one bit, zeros and its length in bits, which fills whole blocks. -/
def pad (message : Bytes) : Bytes :=
  let n := message.length
  message ++ (0x80 :: List.replicate ((119 - n % 64) % 64) 0) ++ (leBytes 8 (8 * n)).reverse

def wordBytes (w : UInt32) : Bytes := (leBytes 4 w.toNat).reverse

/-- The 32 bytes of the digest. -/
def digest (message : Bytes) : Bytes :=
  let s := absorb start #[] (pad message)
  [s.a, s.b, s.c, s.d, s.e, s.f, s.g, s.h].flatMap wordBytes

end NodeStore.Sha256
