import NodeStore.Value
import NodeStore.Wire.Writer

/-!
# Write instructions

A batch is a run of instructions. Selectors say which type, node and separate field the following instructions go to;
the others change what is selected.

* `Instr` with `Instr.encode`.
* `RefEntry`: one reference as it is written, with the offsets of the entries of a list (`RefEntry.offsets`).
-/

namespace NodeStore.Write

/-- What a written reference names. -/
inductive RefId where
  | node (n : NodeId)
  | tmp (n : UInt32)
  /-- Not known yet; the bytes are replaced once it is. -/
  | deferred
  deriving DecidableEq, Inhabited

/-- A written reference with the block of what its link stores. -/
structure RefEntry where
  target : RefId
  edges : Option Bytes
  deriving DecidableEq, Inhabited

namespace RefEntry

/-- The target is the number of a create. -/
def tmpFlag : UInt8 := 1

/-- A block for the link follows. -/
def edgesFlag : UInt8 := 2

/-- The target is not known yet. -/
def deferredFlag : UInt8 := 4

def flags (e : RefEntry) : UInt8 :=
  (match e.target with
    | .node _ => 0
    | .tmp _ => tmpFlag
    | .deferred => deferredFlag) ||| (if e.edges.isSome then edgesFlag else 0)

def word (e : RefEntry) : UInt32 :=
  match e.target with
  | .node n => n
  | .tmp n => n
  | .deferred => 0

/-- Flags, target, and the block if there is one. -/
def encode (e : RefEntry) : Bytes :=
  e.flags :: leBytes 4 e.word.toNat
    ++ (match e.edges with
      | some block => Wire.sized block
      | none => [])

/-- Where the entries of a list start, the first of them at `pos`. -/
def offsets (pos : Nat) : List RefEntry → List Nat
  | [] => []
  | e :: es => pos :: offsets (pos + e.encode.length) es

end RefEntry

/-- One write instruction. -/
inductive Instr where
  | selectType (type : TypeId)
  | selectNode (n : NodeId)
  | selectTmp (n : UInt32)
  | createNode (tmp : UInt32)
  | selectField (slot tag : UInt8)
  /-- The whole main block. -/
  | mainBlock (block : Bytes)
  /-- Bytes of the main block from an offset on. -/
  | mainField (offset : Nat) (bytes : Bytes)
  | updateField (payload : Bytes)
  | deleteField
  | deleteNode
  | count (decrement : Bool) (tag : UInt8) (offset : Nat) (amount : Bytes)
  | setRef (item : RefEntry)
  | setRefs (items : List RefEntry)
  | addRefs (items : List RefEntry)
  | removeRefs (targets : List RefEntry)
  | deleteText (locale : UInt8)
  deriving DecidableEq, Inhabited

namespace Instr

def opSelectType : UInt8 := 0x01
def opSelectNode : UInt8 := 0x02
def opSelectTmp : UInt8 := 0x03
def opCreateNode : UInt8 := 0x04
def opSelectField : UInt8 := 0x05
def opMainBlock : UInt8 := 0x06
def opMainField : UInt8 := 0x07
def opUpdateField : UInt8 := 0x08
def opDeleteField : UInt8 := 0x09
def opDeleteNode : UInt8 := 0x0a
def opIncrement : UInt8 := 0x0b
def opDecrement : UInt8 := 0x0c
def opSetRef : UInt8 := 0x0d
def opSetRefs : UInt8 := 0x0e
def opAddRefs : UInt8 := 0x0f
def opRemoveRefs : UInt8 := 0x10
def opDeleteText : UInt8 := 0x11

/-- A number of references and the references. -/
def encodeItems (items : List RefEntry) : Bytes := leBytes 4 items.length ++ items.flatMap RefEntry.encode

/-- The bytes of an instruction: its opcode and its operands. -/
def encode : Instr → Bytes
  | selectType type => opSelectType :: leBytes 2 type.toNat
  | selectNode n => opSelectNode :: leBytes 4 n.toNat
  | selectTmp n => opSelectTmp :: leBytes 4 n.toNat
  | createNode tmp => opCreateNode :: leBytes 4 tmp.toNat
  | selectField slot tag => [opSelectField, slot, tag]
  | mainBlock block => opMainBlock :: Wire.sized block
  | mainField offset bytes => opMainField :: leBytes 4 offset ++ leBytes 2 bytes.length ++ bytes
  | updateField payload => opUpdateField :: Wire.sized payload
  | deleteField => [opDeleteField]
  | deleteNode => [opDeleteNode]
  | count decrement tag offset amount =>
    (if decrement then opDecrement else opIncrement) :: tag :: leBytes 4 offset ++ amount
  | setRef item => opSetRef :: item.encode
  | setRefs items => opSetRefs :: encodeItems items
  | addRefs items => opAddRefs :: encodeItems items
  | removeRefs targets => opRemoveRefs :: encodeItems targets
  | deleteText locale => [opDeleteText, locale]

/-- Where the references of an instruction start, counted from its first byte. -/
def refOffsets : Instr → List Nat
  | setRef _ => [1]
  | setRefs items | addRefs items => RefEntry.offsets 5 items
  | _ => []

end Instr

end NodeStore.Write
