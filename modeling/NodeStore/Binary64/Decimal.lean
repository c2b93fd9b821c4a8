import NodeStore.Binary64

/-!
# The shortest decimal text of a number

A number is written with the fewest digits that read back as the same number, in positional notation and never with
an exponent; a whole number has no point.

* `Binary64.Interval`: the numbers that round to a given one, as exact fractions.
* `Interval.onGrid`: the decimal on a grid of `n` digits that lies in the interval, if there is one.
* `Binary64.digits`: the first grid with a hit wins; `Binary64.decimal` writes it.
-/

namespace NodeStore.Binary64

/-- The open or closed interval of reals that round to `mid / den`; its ends are `low / den` and `high / den`. -/
structure Interval where
  low : Nat
  mid : Nat
  high : Nat
  den : Nat
  closed : Bool

/-- The interval of a finite number other than zero. -/
def interval (x : Binary64) : Interval :=
  let m := x.significand
  let below := if x.fraction = 0 ∧ 1 < x.exponent then 1 else 2
  let closed := m % 2 = 0
  match x.scale - 2 with
  | .ofNat s => ⟨(4 * m - below) * 2 ^ s, 4 * m * 2 ^ s, (4 * m + 2) * 2 ^ s, 1, closed⟩
  | .negSucc s => ⟨4 * m - below, 4 * m, 4 * m + 2, 2 ^ (s + 1), closed⟩

/-- Does `low ≤ n` hold, or `low < n` for an open end? -/
def Interval.reaches (closed : Bool) (low n : Nat) : Bool :=
  if closed then low ≤ n else low < n

/-- The power of ten just above the number: it is below `10 ^ top` and not below `10 ^ (top - 1)`. -/
def Interval.top (v : Interval) : Int :=
  let a : Int := (Nat.toDigits 10 v.mid).length
  let b : Int := (Nat.toDigits 10 v.den).length
  let below : Bool :=
    match a - b with
    | .ofNat d => v.mid < v.den * 10 ^ d
    | .negSucc d => v.mid * 10 ^ (d + 1) < v.den
  if below then a - b else a - b + 1

/-- The multiple of `10 ^ p` in the interval that is nearest to its middle, as a count of `10 ^ p`; of two equally near
the upper one. -/
def Interval.onGrid (v : Interval) (p : Int) : Option Nat :=
  let up := 10 ^ p.toNat
  let down := 10 ^ (-p).toNat
  let unit := v.den * up
  let mid := v.mid * down
  let d := mid / unit
  let lower := Interval.reaches v.closed (v.low * down) (d * unit)
  let upper := Interval.reaches v.closed ((d + 1) * unit) (v.high * down)
  if lower ∧ upper then (if 2 * (mid - d * unit) < unit then some d else some (d + 1))
  else if lower then some d
  else if upper then some (d + 1)
  else none

/-- The first hit on the grids of `n`, `n + 1`, … digits, `left` of them tried: a count and the power of ten it counts. -/
def Interval.search (v : Interval) : Nat → Nat → Nat × Int
  | n, 0 => (v.mid * 10 ^ (n - v.top).toNat / v.den, v.top - n)
  | n, left + 1 =>
    match v.onGrid (v.top - n) with
    | some d => if d = 10 ^ n then (1, v.top) else (d, v.top - n)
    | none => v.search (n + 1) left

/-- The fewest decimal digits that read back as the number, and the power of ten of the last one. Seventeen always
suffice. -/
def digits (x : Binary64) : Nat × Int := x.interval.search 1 17

/-- Positional notation of `d * 10 ^ p`. -/
def positional (d : Nat) (p : Int) : String :=
  let ds := Nat.toDigits 10 d
  match p with
  | .ofNat p => String.ofList (ds ++ List.replicate p '0')
  | .negSucc p =>
    if p + 1 < ds.length then
      let whole := ds.length - (p + 1)
      String.ofList (ds.take whole ++ '.' :: ds.drop whole)
    else String.ofList ('0' :: '.' :: List.replicate (p + 1 - ds.length) '0' ++ ds)

/-- The text of a number. -/
def decimal (x : Binary64) : String :=
  if x.isNaN then "NaN"
  else
    let body :=
      if !x.isFinite then "inf"
      else if x.magnitude = 0 then "0"
      else positional x.digits.1 x.digits.2
    if x.negative then "-" ++ body else body

end NodeStore.Binary64
