import NodeStore.Engine.Entry
import NodeStore.Engine.Number

/-!
# Executing batches

A batch is executed one instruction after the other. Selectors move the cursor of the run; the other instructions
change the node or the field that it is on. A batch that fails at any instruction changes nothing.

* `Run` and `RunM`: the state of a run, and actions on it.
* `runInstr`: one instruction; `applyBatch`: a whole batch.
-/

namespace NodeStore.Engine

open Write (Instr)

/-- The state of a run. -/
structure Run where
  /-- What is left of the batch. -/
  reader : Wire.Reader
  store : Store
  /-- The types and the ids of the created nodes in their order. -/
  created : List (TypeId × NodeId)
  /-- The selected type, node and field. -/
  type : Option TypeLayout
  node : Option NodeId
  field : Option (PropDef EdgeLayout)

/-- What references may name. -/
def Run.known (s : Run) : Known := ⟨s.store, s.created⟩

/-- An action on a run. -/
abbrev RunM := StateT Run (Except Fault)

/-- Takes from what is left of the batch. -/
def ofScan {α : Type} (x : Scan α) : RunM α := fun s =>
  match x s.reader with
  | .ok a reader => .ok (a, { s with reader })
  | .error e _ => .error e

instance : MonadLift Scan RunM := ⟨ofScan⟩

/-- The selected type and node. -/
def current : RunM (TypeLayout × NodeId) := do
  let s ← get
  match s.type, s.node with
  | some t, some id => return (t, id)
  | _, _ => throw .noNodeSelected

/-- The selected type, node and field. -/
def currentField : RunM (TypeLayout × NodeId × PropDef EdgeLayout) := do
  let (t, id) ← current
  let p ← orFail .noFieldSelected (← get).field
  return (t, id, p)

/-- The field that an instruction for a type of properties is for. -/
def currentOfType (type : PropType) : RunM (TypeLayout × NodeId × PropDef EdgeLayout) := do
  let (t, id, p) ← currentField
  if p.type ≠ type then throw (.notOfType p.name type)
  return (t, id, p)

/-- Changes the store. -/
def onStore (f : Store → Except Fault Store) : RunM Unit := do
  let store ← f (← get).store
  modify fun s => { s with store }

/-- Changes a node, which has to exist. -/
def onNode (type : TypeId) (id : NodeId) (f : StoredNode → Except Fault StoredNode) : RunM Unit :=
  onStore fun store => return store.setNode type id (← f (← store.node type id))

/-- The bytes from an offset on replaced by others made from them; they have to be inside. -/
def changeBytes (offset width : Nat) (f : Bytes → Bytes) (outside : Fault) (bs : Bytes) : Except Fault Bytes :=
  if bs.length < offset + width then .error outside
  else .ok (Bytes.overwrite offset (f ((bs.drop offset).take width)) bs)

/-- Changes bytes of a main block. -/
def changeMain (offset width : Nat) (f : Bytes → Bytes) (outside : Fault) (n : StoredNode) : Except Fault StoredNode :=
  return { n with main := ← changeBytes offset width f outside n.main }

/-! ## Instructions -/

/-- Selects a type. -/
def selectType (schema : SchemaLayout) : RunM Unit := do
  let id ← Wire.Read.u16 "type id"
  let t ← layoutOf schema id
  modify fun s => { s with type := some t, node := none, field := none }

/-- Selects a node of the selected type, by its id or by its number among the created ones. -/
def selectNode (tmp : Bool) : RunM Unit := do
  let raw ← Wire.Read.u32 "node id"
  let s ← get
  let t ← orFail .nodeBeforeType s.type
  let id ← if tmp then createdId s.created raw t.id else pure raw
  let _ ← s.store.node t.id id
  set { s with node := some id, field := none }

/-- Creates a node of the selected type and selects it. -/
def createNode : RunM Unit := do
  let tmp ← Wire.Read.u32 "tmp id"
  let s ← get
  let t ← orFail .createBeforeType s.type
  if tmp.toNat ≠ s.created.length then throw (.tmpOutOfOrder tmp)
  if s.store.exhausted t.id then throw (.idsExhausted t.id)
  let (id, store) := s.store.create t
  set { s with store, created := s.created ++ [(t.id, id)], node := some id, field := none }

/-- Selects a field of the selected node. -/
def selectField : RunM Unit := do
  let slot ← Wire.Read.byte "field slot"
  let tag ← Wire.Read.byte "field type"
  let (t, _) ← current
  let p ← fieldAt t slot tag
  modify fun s => { s with field := some p }

/-- Replaces the main block. -/
def setMain : RunM Unit := do
  let block ← Wire.Read.sized "main block"
  let (t, id) ← current
  if block.length ≠ t.mainLen then throw .mainLength
  onNode t.id id fun n => return { n with main := block }

/-- Replaces a part of the main block. -/
def setMainPart : RunM Unit := do
  let offset ← Wire.Read.nat 4 "main offset"
  let length ← Wire.Read.nat 2 "main length"
  let bytes ← Wire.Read.bytes length "main bytes"
  let (t, id) ← current
  onNode t.id id (changeMain offset bytes.length (fun _ => bytes) .mainWrite)

/-- Adds to a number of the main block, or subtracts from it. -/
def count (decrement : Bool) : RunM Unit := do
  let tag ← Wire.Read.byte "counter type"
  let offset ← Wire.Read.nat 4 "counter offset"
  let type ← orFail (.wire (.badTypeTag tag)) ((PropType.ofTag? tag).filter (·.isNumeric))
  let width := type.fixedWidth.getD 0
  let delta ← Wire.Read.bytes width "counter delta"
  let (t, id) ← current
  onNode t.id id (changeMain offset width (addDelta type decrement delta) .counterPlace)

/-- Deletes the selected node; nothing is selected but the type then. -/
def deleteCurrent (schema : SchemaLayout) : RunM Unit := do
  let (t, id) ← current
  onStore (deleteNode schema t id)
  modify fun s => { s with node := none, field := none }

/-- Writes a payload to the selected field. -/
def updateField : RunM Unit := do
  let payload ← Wire.Read.sized "field payload"
  let (t, id, p) ← currentField
  onNode t.id id (·.writePayload p (slotOf p) payload)

/-- Deletes the content of the selected field. -/
def deleteField (schema : SchemaLayout) : RunM Unit := do
  let (t, id, p) ← currentField
  if p.type.isReference then onStore (disconnectField schema t.id id p)
  else onNode t.id id fun n => return n.dropField (slotOf p)

/-- Deletes the text of the selected field in one locale. -/
def deleteText : RunM Unit := do
  let locale ← Wire.Read.byte "text locale"
  let (t, id, p) ← currentField
  onNode t.id id fun n => return n.dropText (slotOf p) locale

/-- Sets the selected reference. -/
def setRef (schema : SchemaLayout) : RunM Unit := do
  let (t, id, p) ← currentOfType .reference
  let k := (← get).known
  let l ← readEntry k (edgeNode k) p
  onStore (connectAll schema t.id id p l.toList)

/-- Sets or extends the selected collection. -/
def linkRefs (schema : SchemaLayout) (replace : Bool) : RunM Unit := do
  let (t, id, p) ← currentOfType .references
  let n ← Wire.Read.nat 4 "reference count"
  let k := (← get).known
  let links ← readEntries k (edgeNode k) p n
  if replace then
    onStore fun s => do
      let old ← linkedIds s t.id id (slotOf p)
      disconnectAll schema t.id id p (old.filter fun target => !links.any (·.id = target)) s
  onStore (connectAll schema t.id id p links)

/-- Takes one written reference out of the selected collection. -/
def removeRef (schema : SchemaLayout) (t : TypeLayout) (id : NodeId) (p : PropDef EdgeLayout) : RunM Unit := do
  let flags ← Wire.Read.byte "reference flags"
  let raw ← Wire.Read.u32 "reference target"
  let target ← targetOf (← get).known p flags raw
  onStore (disconnect schema t.id id p target)

/-- Takes some written references out of the selected collection. -/
def removeRefs (schema : SchemaLayout) (t : TypeLayout) (id : NodeId) (p : PropDef EdgeLayout) : Nat → RunM Unit
  | 0 => return ()
  | n + 1 => do
    removeRef schema t id p
    removeRefs schema t id p n

/-- Shrinks the selected collection. -/
def unlinkRefs (schema : SchemaLayout) : RunM Unit := do
  let (t, id, p) ← currentOfType .references
  let n ← Wire.Read.nat 4 "reference count"
  removeRefs schema t id p n

/-- Executes one instruction. -/
def runInstr (schema : SchemaLayout) : RunM Unit := do
  let opcode ← Wire.Read.byte "opcode"
  if opcode = Instr.opSelectType then selectType schema
  else if opcode = Instr.opSelectNode then selectNode false
  else if opcode = Instr.opSelectTmp then selectNode true
  else if opcode = Instr.opCreateNode then createNode
  else if opcode = Instr.opSelectField then selectField
  else if opcode = Instr.opMainBlock then setMain
  else if opcode = Instr.opMainField then setMainPart
  else if opcode = Instr.opIncrement then count false
  else if opcode = Instr.opDecrement then count true
  else if opcode = Instr.opDeleteNode then deleteCurrent schema
  else if opcode = Instr.opUpdateField then updateField
  else if opcode = Instr.opDeleteField then deleteField schema
  else if opcode = Instr.opDeleteText then deleteText
  else if opcode = Instr.opSetRef then setRef schema
  else if opcode = Instr.opSetRefs then linkRefs schema true
  else if opcode = Instr.opAddRefs then linkRefs schema false
  else if opcode = Instr.opRemoveRefs then unlinkRefs schema
  else throw (.wire (.badOpcode opcode "write batch"))

/-- Executes at most `n` instructions. -/
def runInstrs (schema : SchemaLayout) : Nat → RunM Unit
  | 0 => return ()
  | n + 1 => do
    if (← get).reader.isEmpty then return ()
    runInstr schema
    runInstrs schema n

/-- A run at the start of a batch. -/
def Run.start (store : Store) (batch : Bytes) : Run := ⟨.ofBytes batch, store, [], none, none, none⟩

/-- Executes a batch; the answer lists the ids of the created nodes. Every instruction takes a byte, so a batch has no
more of them than bytes. -/
def applyBatch (schema : SchemaLayout) (store : Store) (batch : Bytes) : Except Fault (List NodeId × Store) := do
  let (_, s) ← (runInstrs schema batch.length).run (.start store batch)
  return (s.created.map (·.2), s.store)

end NodeStore.Engine
