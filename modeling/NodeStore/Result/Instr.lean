import NodeStore.Query.Aggregate
import NodeStore.Wire.Reader
import NodeStore.Wire.Writer

/-!
# Result instructions

A record in a result is a run of instructions up to an end mark. Nested records are framed by their id and their size.

* `Instr` with `Instr.encode` and `Instr.read`.
* `frame` and `frames`: framed records.
-/

namespace NodeStore.Result

/-- One result instruction. -/
inductive Instr where
  | main (block : Bytes)
  | field (slot : UInt8) (payload : Bytes)
  /-- The framed record of a reference. -/
  | link (slot : UInt8) (body : Bytes)
  /-- The number of framed records of a collection, and the records. -/
  | links (slot : UInt8) (body : Bytes)
  /-- The instructions of what the link stores. -/
  | edge (body : Bytes)
  /-- The size of a collection. -/
  | count (slot kind : UInt8) (value : Nat)
  | stop
  deriving DecidableEq, Inhabited

namespace Instr

def opMain : UInt8 := 1
def opField : UInt8 := 2
def opLink : UInt8 := 3
def opLinks : UInt8 := 4
def opEdge : UInt8 := 5
def opCount : UInt8 := 6
def opStop : UInt8 := 0xff

/-- The bytes of an instruction. -/
def encode : Instr → Bytes
  | main block => opMain :: Wire.sized block
  | field slot payload => opField :: slot :: Wire.sized payload
  | link slot body => opLink :: slot :: Wire.sized body
  | links slot body => opLinks :: slot :: Wire.sized body
  | edge body => opEdge :: Wire.sized body
  | count slot kind value => opCount :: slot :: kind :: leBytes 8 value
  | stop => [opStop]

open Wire in
/-- The instruction at the front of what is left. -/
def read : Read Instr := do
  let opcode ← Read.byte "result instruction"
  if opcode = opStop then return .stop
  else if opcode = opMain then
    let block ← Read.sized "main block"
    return .main block
  else if opcode = opField then
    let slot ← Read.byte "field slot"
    let payload ← Read.sized "field payload"
    return .field slot payload
  else if opcode = opLink ∨ opcode = opLinks then
    let slot ← Read.byte "reference slot"
    let body ← Read.sized "reference"
    return if opcode = opLink then .link slot body else .links slot body
  else if opcode = opEdge then
    let body ← Read.sized "edge"
    return .edge body
  else if opcode = opCount then
    let slot ← Read.byte "count slot"
    let kind ← Read.byte "count kind"
    let value ← Read.nat 8 "count value"
    return .count slot kind value
  else throw (.badOpcode opcode "result record")

open Wire in
theorem takes_read : Takes read fun _ => 1 := by
  refine .bind (.byte _) fun opcode => ?_
  repeat' split
  · exact .pure rfl
  · exact .bind (.sized _) fun _ => .pure (by omega)
  · exact .bind (.byte _) fun _ => .bind (.sized _) fun _ => .pure (by omega)
  · exact .bind (.byte _) fun _ => .bind (.sized _) fun _ => .pure (by omega)
  · exact .bind (.byte _) fun _ => .bind (.sized _) fun _ => .pure (by omega)
  · exact .bind (.sized _) fun _ => .pure (by omega)
  · exact .bind (.byte _) fun _ => .bind (.byte _) fun _ => .bind (.nat 8 _) fun _ => .pure (by omega)
  · exact .throw

end Instr

/-- A record with its id and its size in front. -/
def frame (id : NodeId) (body : Bytes) : Bytes := leBytes 4 id.toNat ++ Wire.sized body

open Wire in
/-- The framed record at the front of what is left. -/
def readFrame (context : String) : Read (NodeId × Bytes) := do
  let id ← Read.u32 (context ++ " id")
  let body ← Read.sized context
  return (id, body)

open Wire in
theorem takes_readFrame (context : String) : Takes (readFrame context) fun _ => 8 :=
  .bind (.u32 _) fun _ => .bind (.sized _) fun _ => .pure (by omega)

open Wire in
/-- The first `n` framed records: those before the first broken one, with what follows them or the fault. -/
def frames (context : String) : Nat → Reader → List (NodeId × Bytes) × Except Wire.Error Reader
  | 0, r => ([], .ok r)
  | n + 1, r =>
    match readFrame context r with
    | .error e _ => ([], .error e)
    | .ok f r =>
      let (fs, rest) := frames context n r
      (f :: fs, rest)

end NodeStore.Result
