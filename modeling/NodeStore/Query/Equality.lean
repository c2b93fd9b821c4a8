import NodeStore.Bytes
import NodeStore.Limits

/-!
# Batched equality

A field of a fixed width is compared with several values at once: the values are packed into vectors of sixteen bytes,
and unused lanes repeat the first value.

* `Comparison`: the comparisons of conditions on the wire.
* `lanes width`: the number of values in one vector; `equalityOperand` packs some values.
-/

namespace NodeStore.Query

/-- A comparison on the wire. -/
inductive Comparison where
  | equal
  /-- Equal to a value of one vector. -/
  | equalSmall
  /-- Equal to a value of several vectors. -/
  | equalLarge
  /-- Equal to one of some contents, each with its length. -/
  | equalAny
  | greater
  | greaterEq
  | less
  | lessEq
  | range
  | includes
  | exists
  /-- A code without a meaning. -/
  | unknown (code : UInt8)
  deriving DecidableEq, Inhabited

namespace Comparison

def code : Comparison → UInt8
  | equal => 1
  | equalSmall => 2
  | equalLarge => 3
  | equalAny => 4
  | greater => 5
  | greaterEq => 6
  | less => 7
  | lessEq => 8
  | range => 9
  | includes => 10
  | «exists» => 11
  | unknown code => code

/-- The comparison of a code. -/
def ofCode (code : UInt8) : Comparison :=
  ([equal, equalSmall, equalLarge, equalAny, greater, greaterEq, less, lessEq, range, includes, «exists»].find?
    fun c => c.code = code).getD (unknown code)

theorem code_ofCode (code : UInt8) : (ofCode code).code = code := by
  unfold ofCode
  cases h : List.find? (fun c : Comparison => decide (c.code = code))
      [equal, equalSmall, equalLarge, equalAny, greater, greaterEq, less, lessEq, range, includes, «exists»] with
  | none => rfl
  | some c => simpa using List.find?_some h

end Comparison

/-- The number of values of a width in one vector; there is always at least one. -/
def lanes (width : Nat) : Nat := max (Limits.vectorWidth / max width 1) 1

/-- The values padded with the first one to whole vectors of `n` lanes. -/
def padded (n : Nat) (first : Bytes) (values : List Bytes) : List Bytes :=
  values ++ List.replicate ((values.length + n - 1) / n * n - values.length) first

/-- The comparison of a field with some values of its width, and the operand. -/
def equalityOperand (values : List Bytes) (width : Nat) : Comparison × Bytes :=
  match values with
  | [] => (.equalAny, leBytes 4 0)
  | [v] => (.equal, v)
  | first :: _ =>
    let operand := (padded (lanes width) first values).flatten
    (if values.length ≤ lanes width then .equalSmall else .equalLarge, operand)

end NodeStore.Query
