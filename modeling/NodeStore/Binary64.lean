import NodeStore.Bytes

/-!
# Floating-point numbers as their bits

A stored number is its 64 bits, so that every pattern, a NaN's payload included, survives being written and read.

* `Binary64` with its order `lt`/`le`/`same` (a NaN is related to nothing, the two zeros are equal), read off the
  integer `key`.
* `Binary64.ofInt` rounds an integer to the nearest number, ties to even; `Binary64.toInt64` drops the fraction and
  saturates.
* `Binary64.add`/`sub`/`mul`/`div`: machine arithmetic; the first NaN operand wins, an invalid operation gives `invalid`.
* `Binary32` is the element type of vectors; it is only stored and tested for being finite.
-/

namespace NodeStore

/-- A double precision number, kept as its 64 bits. -/
structure Binary64 where
  bits : UInt64
  deriving DecidableEq, Inhabited

/-- A single precision number, kept as its 32 bits. -/
structure Binary32 where
  bits : UInt32
  deriving DecidableEq, Inhabited

namespace Binary64

/-! ## The parts of a number -/

/-- The sign bit. -/
def negative (x : Binary64) : Bool := 2 ^ 63 ≤ x.bits.toNat

/-- All bits but the sign. -/
def magnitude (x : Binary64) : Nat := x.bits.toNat % 2 ^ 63

/-- The magnitude of the infinities. -/
def infinityMagnitude : Nat := 2047 * 2 ^ 52

def isNaN (x : Binary64) : Bool := infinityMagnitude < x.magnitude

def isFinite (x : Binary64) : Bool := x.magnitude < infinityMagnitude

/-- The biased exponent field. -/
def exponent (x : Binary64) : Nat := x.magnitude / 2 ^ 52

/-- The fraction field. -/
def fraction (x : Binary64) : Nat := x.magnitude % 2 ^ 52

/-- A finite number is, up to its sign, `significand * 2 ^ scale`. -/
def significand (x : Binary64) : Nat :=
  if x.exponent = 0 then x.fraction else x.fraction + 2 ^ 52

def scale (x : Binary64) : Int := (max x.exponent 1 : Nat) - 1075

/-! ## Constants -/

def zero : Binary64 := ⟨0⟩
def negativeZero : Binary64 := ⟨0x8000000000000000⟩
def infinity : Binary64 := ⟨0x7ff0000000000000⟩
def negativeInfinity : Binary64 := ⟨0xfff0000000000000⟩

/-- The NaN that stands for "no number". -/
def nan : Binary64 := ⟨0x7ff8000000000000⟩

/-- The NaN that an invalid operation yields. -/
def invalid : Binary64 := ⟨0xfff8000000000000⟩

/-! ## Order -/

/-- The place of a number that is no NaN on the number line; the zeros share one place. -/
def key (x : Binary64) : Int := if x.negative then -(x.magnitude : Int) else x.magnitude

def lt (x y : Binary64) : Bool := !x.isNaN && !y.isNaN && x.key < y.key

def le (x y : Binary64) : Bool := !x.isNaN && !y.isNaN && x.key ≤ y.key

/-- Equality as numbers. -/
def same (x y : Binary64) : Bool := !x.isNaN && !y.isNaN && x.key = y.key

/-! ## Integers -/

/-- `n / 2 ^ s` rounded to the nearest natural, a half to the even neighbour. -/
def roundShift (n s : Nat) : Nat :=
  let q := n / 2 ^ s
  let r := n % 2 ^ s
  if 2 * r < 2 ^ s then q else if 2 * r = 2 ^ s then q + q % 2 else q + 1

/-- The magnitude of the number nearest to `n`, for `n` far below the largest number. -/
def magnitudeOfNat (n : Nat) : Nat :=
  if n = 0 then 0
  else
    let top := Nat.log2 n
    let q := if top ≤ 52 then n * 2 ^ (52 - top) else roundShift n (top - 52)
    (top + 1022) * 2 ^ 52 + q

/-- The number nearest to `i`, a tie going to the even significand. -/
def ofInt (i : Int) : Binary64 :=
  ⟨UInt64.ofNat (magnitudeOfNat i.natAbs + if i < 0 then 2 ^ 63 else 0)⟩

/-- The integer part of a finite number's absolute value, cut at `2 ^ 64`. -/
def wholePart (x : Binary64) : Nat :=
  match x.scale with
  | .ofNat s => if 12 ≤ s then (if x.significand = 0 then 0 else 2 ^ 64) else x.significand * 2 ^ s
  | .negSucc s => x.significand / 2 ^ (s + 1)

/-- Finite without a fractional part. -/
def isWhole (x : Binary64) : Bool :=
  x.isFinite && match x.scale with
    | .ofNat _ => true
    | .negSucc s => x.significand % 2 ^ (s + 1) = 0

/-- The integer nearest to zero's side, saturating at the ends of the range; a NaN gives zero. -/
def toInt64 (x : Binary64) : Int64 :=
  if x.isNaN then 0
  else
    let n : Nat := if x.isFinite then x.wholePart else 2 ^ 64
    let i : Int := if x.negative then -n else n
    Int64.ofInt (max (-(2 ^ 63)) (min (2 ^ 63 - 1) i))

/-! ## Arithmetic -/

/-- A NaN with its quiet bit set. -/
def quiet (x : Binary64) : Binary64 := ⟨x.bits ||| 0x0008000000000000⟩

def toFloat (x : Binary64) : Float := Float.ofBits x.bits

/-- Machine arithmetic with the rule for NaN operands made explicit. -/
def arith (op : Float → Float → Float) (x y : Binary64) : Binary64 :=
  if x.isNaN then x.quiet
  else if y.isNaN then y.quiet
  else
    let r := op x.toFloat y.toFloat
    if r.isNaN then invalid else ⟨r.toBits⟩

def add : Binary64 → Binary64 → Binary64 := arith (· + ·)
def sub : Binary64 → Binary64 → Binary64 := arith (· - ·)
def mul : Binary64 → Binary64 → Binary64 := arith (· * ·)
def div : Binary64 → Binary64 → Binary64 := arith (· / ·)

/-- The greatest whole number that is not above `x`. -/
def floor (x : Binary64) : Binary64 := if x.isNaN then x.quiet else ⟨x.toFloat.floor.toBits⟩

/-- The lesser of two numbers, the second of two equal ones, so that of the zeros the later stays. A NaN gives way to the
other operand, and of two NaNs the first stays. -/
def min (x y : Binary64) : Binary64 :=
  if y.isNaN then x else if x.isNaN then y else if x.key < y.key then x else y

/-- The greater of two numbers, with the rules of `min`. -/
def max (x y : Binary64) : Binary64 :=
  if y.isNaN then x else if x.isNaN then y else if y.key < x.key then x else y

/-! ## Bytes -/

def toBytes (x : Binary64) : Bytes := leBytes 8 x.bits.toNat

def ofBytes (bs : Bytes) : Binary64 := ⟨UInt64.ofNat (leNat bs)⟩

@[simp] theorem length_toBytes (x : Binary64) : x.toBytes.length = 8 := length_leBytes ..

theorem ofBytes_toBytes (x : Binary64) : ofBytes x.toBytes = x := by
  have h : x.bits.toNat < 256 ^ 8 := x.bits.toNat_lt
  simp [ofBytes, toBytes, leNat_leBytes_of_lt h]

end Binary64

namespace Binary32

def isFinite (x : Binary32) : Bool := x.bits.toNat % 2 ^ 31 < 255 * 2 ^ 23

def toBytes (x : Binary32) : Bytes := leBytes 4 x.bits.toNat

def ofBytes (bs : Bytes) : Binary32 := ⟨UInt32.ofNat (leNat bs)⟩

@[simp] theorem length_toBytes (x : Binary32) : x.toBytes.length = 4 := length_leBytes ..

theorem ofBytes_toBytes (x : Binary32) : ofBytes x.toBytes = x := by
  have h : x.bits.toNat < 256 ^ 4 := x.bits.toNat_lt
  simp [ofBytes, toBytes, leNat_leBytes_of_lt h]

end Binary32

end NodeStore
