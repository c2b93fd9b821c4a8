import NodeStore.Engine.Links
import NodeStore.Engine.Payload
import NodeStore.Engine.Scan
import NodeStore.Write.Instr

/-!
# Written references

A reference is written as flags, a node and, if its link stores something, a block of instructions for that. The block
is executed on a fresh node of the link's own layout.

* `Known`: what references may name.
* `readEntry` / `readEntries`: links from written references.
* `edgeNode`: what a link stores.
-/

namespace NodeStore.Engine

open Write (Instr RefEntry)

/-- What references may name: the nodes of the store, and those that the batch has created, by their numbers. -/
structure Known where
  store : Store
  created : List (TypeId × NodeId)

/-- The id of the node with that number among the created ones. -/
def createdId (created : List (TypeId × NodeId)) (tmp : UInt32) (type : TypeId) : Except Fault NodeId :=
  match created[tmp.toNat]? with
  | some (t, id) => if t = type then .ok id else .error (.tmpOfOtherType tmp)
  | none => .error (.tmpUnknown tmp)

/-- The node that a written reference names, which has to exist. -/
def targetOf {L : Type} (k : Known) (p : PropDef L) (flags : UInt8) (raw : UInt32) : Except Fault NodeId := do
  let target ← orFail (.notReference p.name) p.target
  let id ← if flags &&& RefEntry.tmpFlag ≠ 0 then createdId k.created raw target.id else pure raw
  if (k.store.node? target.id id).isNone then throw (.missingTarget p.name id)
  return id

/-- Reads the block of what a link stores, if the flags announce one. -/
def readBlock (flags : UInt8) : Scan (Option Bytes) :=
  if flags &&& RefEntry.edgesFlag ≠ 0 then some <$> (Wire.Read.sized "reference edges" : Scan _) else return none

/-- The link to a node; `edgesOf` makes what the link stores from its block. -/
def linkTo {L E : Type} (edgesOf : L → Bytes → Except Fault E) (p : PropDef L) (id : NodeId) (block : Option Bytes) :
    Except Fault (Link E) :=
  match block, p.edges with
  | none, _ => return ⟨id, none⟩
  | some block, some t => return ⟨id, some (← edgesOf t block)⟩
  | some _, none => throw (.noEdges p.name)

/-- Reads one written reference. One to a node that is not known yet is passed over. -/
def readEntry {L E : Type} (k : Known) (edgesOf : L → Bytes → Except Fault E) (p : PropDef L) :
    Scan (Option (Link E)) := do
  let flags ← Wire.Read.byte "reference flags"
  let raw ← Wire.Read.u32 "reference target"
  let block ← readBlock flags
  if flags &&& RefEntry.deferredFlag ≠ 0 then return none
  let id ← targetOf k p flags raw
  let l ← linkTo edgesOf p id block
  return some l

/-- Reads some written references. -/
def readEntries {L E : Type} (k : Known) (edgesOf : L → Bytes → Except Fault E) (p : PropDef L) :
    Nat → Scan (List (Link E))
  | 0 => return []
  | n + 1 => do
    let l ← readEntry k edgesOf p
    let ls ← readEntries k edgesOf p n
    return l.toList ++ ls

/-- The field selected by a slot and a type tag. -/
def fieldAt {L : Type} (t : Layout L) (slot tag : UInt8) : Except Fault (PropDef L) :=
  match t.propBySlot? slot with
  | none => .error (.wire (.unknownSlot t.name slot))
  | some p => if p.type.tag = tag then .ok p else .error (.wire (.badTypeTag tag))

/-! ## What links store -/

/-- Links that start from a link store nothing. -/
def nothing : Empty → Bytes → Except Fault Empty := nofun

/-- What a link stores while its block is executed, with the selected field. -/
structure EdgeRun where
  node : EdgeNode
  field : Option (PropDef Empty)

/-- Puts links into the selected field. -/
def EdgeRun.putLinks (e : EdgeRun) (p : PropDef Empty) (links : List (Link Empty)) : EdgeRun :=
  { e with node := links.foldl (fun n l => n.putLink p (slotOf p) l) e.node }

/-- Executes one instruction of the block of a link. -/
def edgeInstr (k : Known) (t : EdgeLayout) (e : EdgeRun) : Scan EdgeRun := do
  let opcode ← Wire.Read.byte "edge opcode"
  if opcode = Instr.opSelectField then
    let slot ← Wire.Read.byte "field slot"
    let tag ← Wire.Read.byte "field type"
    let p ← fieldAt t slot tag
    return { e with field := some p }
  else if opcode = Instr.opMainBlock then
    let block ← Wire.Read.sized "edge main block"
    if block.length ≠ t.mainLen then throw .edgeMainLength
    return { e with node := { e.node with main := block } }
  else
    let p ← orFail .noEdgeFieldSelected e.field
    if opcode = Instr.opUpdateField then
      let payload ← Wire.Read.sized "edge payload"
      let node ← e.node.writePayload p (slotOf p) payload
      return { e with node }
    else if opcode = Instr.opSetRef then
      let l ← readEntry k nothing p
      return e.putLinks p l.toList
    else if opcode = Instr.opSetRefs ∨ opcode = Instr.opAddRefs then
      let n ← Wire.Read.nat 4 "reference count"
      let links ← readEntries k nothing p n
      return e.putLinks p links
    else throw (.wire (.badOpcode opcode "edge block"))

/-- Executes at most `n` instructions of the block of a link. -/
def edgeInstrs (k : Known) (t : EdgeLayout) : Nat → EdgeRun → Scan EdgeRun
  | 0, e => return e
  | n + 1, e => do
    if (← get).isEmpty then return e
    let e ← edgeInstr k t e
    edgeInstrs k t n e

/-- What a link stores, from its block. Every instruction takes a byte, so there are no more than bytes. -/
def edgeNode (k : Known) (t : EdgeLayout) (block : Bytes) : Except Fault EdgeNode := do
  return (← (edgeInstrs k t block.length ⟨.fresh t, none⟩).run block).node

end NodeStore.Engine
