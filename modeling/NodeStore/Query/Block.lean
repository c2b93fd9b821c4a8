import NodeStore.Query.Condition

/-!
# Filter blocks

A block is a run of items that must all hold. A disjunction says where its right items start, counted from the start of
the block that it stands in, and how many bytes they take, so that an evaluator can skip what it need not look at.

* `Clause`: the tree of a block; `encodeBlock` writes it with its jumps.
* `Item` and `Item.read`: the items as an evaluator meets them, a disjunction being its header only.
-/

namespace NodeStore.Query

/-- One test of a block. -/
inductive Clause where
  | condition (c : Condition)
  /-- A node that a reference leads to passes a block; `one` tells a reference from a collection. -/
  | link (one : Bool) (slot : UInt8) (type : TypeId) (body : List Clause)
  /-- What the link that led to the node stores passes a block. -/
  | edge (body : List Clause)
  | either (left right : List Clause)

namespace Clause

def opCondition : UInt8 := 1
def opEither : UInt8 := 2
def opLink : UInt8 := 3
def opLinks : UInt8 := 4
def opEdge : UInt8 := 5

/-- The length of the header of a disjunction: opcode, jump, and size of the right items. -/
def eitherHeader : Nat := 9

mutual

/-- The bytes of a clause at a position of its block. -/
def encode (pos : Nat) : Clause → Bytes
  | condition c => opCondition :: c.encode
  | link one slot type body =>
    (if one then opLink else opLinks) :: slot :: leBytes 2 type.toNat ++ Wire.sized (encodeFrom 0 body)
  | edge body => opEdge :: Wire.sized (encodeFrom 0 body)
  | either left right =>
    let first := encodeFrom (pos + eitherHeader) left
    let jump := pos + eitherHeader + first.length
    let second := encodeFrom jump right
    opEither :: leBytes 4 jump ++ leBytes 4 second.length ++ first ++ second

/-- The bytes of some clauses, the first of them at a position of their block. -/
def encodeFrom (pos : Nat) : List Clause → Bytes
  | [] => []
  | c :: cs =>
    let bytes := encode pos c
    bytes ++ encodeFrom (pos + bytes.length) cs

end

end Clause

/-- The bytes of a block. -/
def encodeBlock (clauses : List Clause) : Bytes := Clause.encodeFrom 0 clauses

/-- An item of an encoded block. -/
inductive Item where
  | condition (c : Condition)
  /-- The left items follow; the right ones start at `jump` and take `size` bytes. -/
  | either (jump size : Nat)
  | link (one : Bool) (slot : UInt8) (body : Bytes)
  | edge (body : Bytes)
  deriving Inhabited

namespace Item

open Wire Clause

/-- The item at the front of what is left. -/
def read : Read Item := do
  let opcode ← Read.byte "filter item"
  if opcode = opCondition then
    let c ← Condition.read
    return .condition c
  else if opcode = opEither then
    let jump ← Read.nat 4 "or jump"
    let size ← Read.nat 4 "or right size"
    return .either jump size
  else if opcode = opLink ∨ opcode = opLinks then
    let slot ← Read.byte "reference slot"
    let _ ← Read.u16 "reference type"
    let body ← Read.sized "reference block"
    return .link (opcode = opLink) slot body
  else if opcode = opEdge then
    let body ← Read.sized "edge block"
    return .edge body
  else throw (.badOpcode opcode "filter block")

/-- The bytes of an item that are a block of their own. -/
def nested : Item → Nat
  | condition _ | either .. => 0
  | link _ _ body | edge body => body.length

/-- An item takes its opcode and what is nested in it. -/
theorem takes_read : Takes read fun i => 1 + i.nested := by
  have hc : Takes Condition.read fun _ => 0 :=
    .bind (.byte _) fun _ => .bind (.byte _) fun _ => .bind (.propType _) fun _ => .bind (.nat 4 _) fun _ =>
      .bind (.nat 2 _) fun _ => .bind (.byte _) fun _ => .bind (.sized _) fun _ => .pure (by omega)
  refine .bind (.byte _) fun opcode => ?_
  split
  · exact .bind hc fun c => .pure (by simp [nested])
  · split
    · exact .bind (.nat 4 _) fun _ => .bind (.nat 4 _) fun _ => .pure (by simp [nested])
    · split
      · exact .bind (.byte _) fun _ => .bind (.u16 _) fun _ => .bind (.sized _) fun body => .pure (by simp only [nested]; omega)
      · split
        · exact .bind (.sized _) fun body => .pure (by simp only [nested]; omega)
        · exact .throw

end Item

end NodeStore.Query
