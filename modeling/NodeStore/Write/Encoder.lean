import NodeStore.Codec.Payload
import NodeStore.Write.Fields
import NodeStore.Write.Instr
import NodeStore.Write.Registry

/-!
# Encoding records as instructions

The cursor remembers which type, node and field the next instruction goes to, so that selectors are written only when
the target changes. Every instruction lands in the buffer together with the selectors that it needs, or not at all.

* `Cursor` and `Encoder`: the open buffer with its cursor; `Encoder.rollback` undoes all since a checkpoint.
* `EncodeM`: actions on the open buffer that also note the placeholders they write.
* `writeCreate`, `writeUpdate`, `writeDelete`, `writeCount`: the calls.
-/

namespace NodeStore.Write

/-- The node that the cursor is on. -/
inductive NodeTarget where
  | id (n : NodeId)
  | tmp (n : UInt32)
  /-- The one node of a block that a link stores. -/
  | link
  deriving DecidableEq, Inhabited

/-- What the next instruction goes to. -/
inductive Cursor where
  | idle
  | main (type : TypeId) (node : NodeTarget)
  | separate (type : TypeId) (node : NodeTarget) (slot : UInt8)
  deriving DecidableEq, Inhabited

namespace Cursor

/-- The type and the node that the cursor is on. -/
def node? : Cursor → Option (TypeId × NodeTarget)
  | idle => none
  | main type node => some (type, node)
  | separate type node _ => some (type, node)

/-- The field that the cursor is on. -/
def slot? : Cursor → Option UInt8
  | separate _ _ slot => some slot
  | _ => none

/-- The selector of a type, unless the cursor is on it. -/
def selectType (c : Cursor) (type : TypeId) : List Instr :=
  if c.node?.map (·.1) = some type then [] else [.selectType type]

/-- The selector of a field, unless the cursor is on it. -/
def selectField (c : Cursor) (slot tag : UInt8) : List Instr :=
  if c.slot? = some slot then [] else [.selectField slot tag]

end Cursor

/-- The open buffer with its cursor. -/
structure Encoder where
  buffer : Buffer
  cursor : Cursor
  deriving DecidableEq, Inhabited

/-- A state of the encoder to return to. -/
structure Checkpoint where
  length : Nat
  cursor : Cursor
  deriving DecidableEq, Inhabited

namespace Encoder

def new (max : Nat) : Encoder := ⟨.new max, .idle⟩

/-- The encoder of a block that a link stores. -/
def forLink : Encoder := ⟨.unbounded, .main 0 .link⟩

def checkpoint (e : Encoder) : Checkpoint := ⟨e.buffer.length, e.cursor⟩

def rollback (e : Encoder) (c : Checkpoint) : Encoder := ⟨e.buffer.truncate c.length, c.cursor⟩

/-- Takes the written instructions; the cursor is on nothing then. -/
def close (e : Encoder) : Bytes × Encoder := (e.buffer.bytes, ⟨e.buffer.take.2, .idle⟩)

/-- Settles a placeholder that is still in the buffer: its flag goes and its target becomes a node. -/
def patchPlaceholder (e : Encoder) (pos : Nat) (id : NodeId) : Encoder :=
  let flags := (e.buffer.bytes[pos]?.getD 0) &&& ~~~RefEntry.deferredFlag
  { e with buffer := (e.buffer.patchByte pos flags).patchWord (pos + 1) id }

end Encoder

/-! ## Actions -/

/-- The encoder of a call with the placeholders that the call has written. -/
structure Draft where
  encoder : Encoder
  placeholders : List Placeholder
  deriving Inhabited

/-- An action on the open buffer; what was written before a failure stays in the state. -/
abbrev EncodeM := EStateM Error Draft

/-- What needs no buffer can fail without touching it. -/
instance : MonadLift (Except Error) EncodeM where
  monadLift x := fun d =>
    match x with
    | .ok a => .ok a d
    | .error e => .error e d

/-- The bytes of some instructions. -/
def encodeAll (is : List Instr) : Bytes := is.flatMap Instr.encode

/-- Appends instructions as a whole; the answer is where they start. -/
def emit (is : List Instr) : EncodeM Nat := do
  let d ← get
  match d.encoder.buffer.append (encodeAll is) with
  | .ok (start, buffer) =>
    set { d with encoder := { d.encoder with buffer } }
    return start
  | .error e => throw (.bufferFull e)

def cursor : EncodeM Cursor := return (← get).encoder.cursor

def moveTo (c : Cursor) : EncodeM Unit := modify fun d => { d with encoder := { d.encoder with cursor := c } }

def note (hs : List Placeholder) : EncodeM Unit := modify fun d => { d with placeholders := d.placeholders ++ hs }

/-- The type and the node that the cursor is on. -/
def activeNode : EncodeM (TypeId × NodeTarget) := do
  match (← cursor).node? with
  | some n => return n
  | none => throw .noActiveNode

/-- Creates a node and goes to it. -/
def createNode (type : TypeId) (tmp : UInt32) : EncodeM Unit := do
  let _ ← emit ((← cursor).selectType type ++ [.createNode tmp])
  moveTo (.main type (.tmp tmp))

/-- Goes to an existing node. -/
def selectNode (type : TypeId) (node : NodeTarget) : EncodeM Unit := do
  let c ← cursor
  if c.node? = some (type, node) then return
  let selector ← match node with
    | .id n => pure (Instr.selectNode n)
    | .tmp n => pure (Instr.selectTmp n)
    | .link => throw .noActiveNode
  let _ ← emit (c.selectType type ++ [selector])
  moveTo (.main type node)

/-- Writes an instruction for the node that the cursor is on. -/
def nodeInstr (i : Instr) : EncodeM Unit := do
  let _ ← activeNode
  let _ ← emit [i]

/-- Writes an instruction for a field and goes to it; the answer is where the instruction starts. -/
def fieldInstr {E : Type} (p : PropDef E) (i : Instr) : EncodeM Nat := do
  let (type, node) ← activeNode
  match p.slot? with
  | none => throw .noActiveNode
  | some slot =>
    let selector := (← cursor).selectField slot p.type.tag
    let start ← emit (selector ++ [i])
    moveTo (.separate type node slot)
    return start + (encodeAll selector).length

/-! ## References -/

/-- What the fields of one call share. -/
structure Context where
  registry : Registry
  /-- The locale of texts written as plain strings. -/
  locale : UInt8
  lenient : Bool
  /-- Inside the block of a link: is the target of that link in flight? -/
  linkDeferred : Option Bool

/-- Encodes what a link stores, where the flag tells whether its target is in flight. -/
abbrev EdgeEncoder (E : Type) := E → Record → Bool → Except Error Bytes

def invalid {E α : Type} (p : PropDef E) (v : Value) (reason : Refusal) : Except Error α :=
  .error (.invalid p.name v reason)

/-- The reference that a value stands for. -/
def asRefItem {E : Type} (p : PropDef E) (v : Value) : Except Error RefItem :=
  match v with
  | .ref target edges => .ok (target, edges)
  | .int i => if 0 ≤ i.toInt ∧ i.toInt < 2 ^ 32 then .ok (.id (UInt32.ofNat i.toInt.toNat), []) else invalid p v .badNodeId
  | _ => invalid p v .wantsReference

/-- Inside the block of a link, may a target be written? Its bytes there are never replaced. -/
def unresolvedInLink (linkDeferred : Bool) : WireTarget → Bool
  | .id _ => false
  | .tmp _ => linkDeferred
  | .deferred _ => true

/-- How a target is written. -/
def WireTarget.refId : WireTarget → RefId
  | .id n => .node n
  | .tmp n => .tmp n
  | .deferred _ => .deferred

/-- The node in flight that a target waits for. -/
def WireTarget.waits : WireTarget → Option PendingId
  | .deferred p => some p
  | _ => none

/-- The block of what a link stores, if it stores anything. -/
def linkBlock {E : Type} (c : Context) (edgesOf : EdgeEncoder E) (p : PropDef E) (edges : Record)
    (deferred : Bool) : Except Error (Option Bytes) :=
  match edges with
  | [] => .ok none
  | (name, _) :: _ =>
    match p.edges with
    | some t => some <$> edgesOf t edges deferred
    | none => if c.lenient then .ok none else .error (.unknownProperty p.name name)

/-- A created node has to have the type that the property leads to. -/
def checkTargetType {E : Type} (c : Context) (p : PropDef E) (item : RefItem) : Except Error Unit :=
  match c.registry.pendingType? item.1, p.target with
  | some type, some expected =>
    if type = expected.id then .ok () else .error (.invalid p.name (.ref item.1 item.2) .wrongTargetType)
  | _, _ => .ok ()

/-- The test of a target inside the block of a link. -/
def checkInLink {E : Type} (c : Context) (p : PropDef E) (wire : WireTarget) : Except Error Unit :=
  match c.linkDeferred with
  | some linkDeferred => if unresolvedInLink linkDeferred wire then .error (.unresolvedEdgeReference p.name) else .ok ()
  | none => .ok ()

/-- One reference as it is written, and the node it waits for if that is in flight. -/
def refEntry {E : Type} (c : Context) (edgesOf : EdgeEncoder E) (p : PropDef E) (item : RefItem) :
    Except Error (RefEntry × Option PendingId) := do
  let wire ← c.registry.wireTarget item.1
  checkTargetType c p item
  checkInLink c p wire
  let block ← linkBlock c edgesOf p item.2 wire.waits.isSome
  return (⟨wire.refId, block⟩, wire.waits)

/-- The placeholders among written references, given where each of them starts. -/
def placeholdersOf (prop : String) (many : Bool) :
    List (RefItem × Option PendingId) → List Nat → List Placeholder
  | (item, some target) :: items, pos :: ps => ⟨target, prop, many, item.2, pos⟩ :: placeholdersOf prop many items ps
  | (_, none) :: items, _ :: ps => placeholdersOf prop many items ps
  | _, _ => []

/-- Writes an instruction that holds references, and notes those to nodes in flight. -/
def refInstr {E : Type} (p : PropDef E) (many : Bool) (items : List RefItem) (entries : List (RefEntry × Option PendingId))
    (i : Instr) : EncodeM Unit := do
  let start ← fieldInstr p i
  note (placeholdersOf p.name many (items.zip (entries.map (·.2))) (i.refOffsets.map (start + ·)))

/-- Writes a list of references. -/
def writeRefs {E : Type} (c : Context) (edgesOf : EdgeEncoder E) (p : PropDef E) (make : List RefEntry → Instr)
    (items : List RefItem) : EncodeM Unit := do
  let entries ← (items.mapM (refEntry c edgesOf p) : Except Error _)
  refInstr p true items entries (make (entries.map (·.1)))

/-- One reference to be removed; it cannot wait for a node in flight. -/
def removedRef {E : Type} (c : Context) (p : PropDef E) (v : Value) (target : NodeRef) : Except Error RefEntry := do
  match ← c.registry.wireTarget target with
  | .id n => return ⟨.node n, none⟩
  | .tmp n => return ⟨.tmp n, none⟩
  | .deferred _ => throw (.invalid p.name v .removesUnacknowledged)

/-- Writes the references that replace a collection, if there are any to do so. -/
def writeReplaced {E : Type} (c : Context) (edgesOf : EdgeEncoder E) (p : PropDef E) :
    Option (List RefItem) → EncodeM Unit
  | some items => writeRefs c edgesOf p .setRefs items
  | none => pure ()

/-- Writes the references that are added to a collection. -/
def writeAdded {E : Type} (c : Context) (edgesOf : EdgeEncoder E) (p : PropDef E) (items : List RefItem) :
    EncodeM Unit :=
  if items.isEmpty then pure () else writeRefs c edgesOf p .addRefs items

/-- Writes the references that are removed from a collection. -/
def writeRemoved {E : Type} (c : Context) (p : PropDef E) (v : Value) (targets : List NodeRef) : EncodeM Unit := do
  if !targets.isEmpty then
    let entries ← (targets.mapM (removedRef c p v) : Except Error _)
    let _ ← fieldInstr p (.removeRefs entries)

/-! ## Fields -/

/-- Writes a text in one locale. On an update the empty string deletes it. -/
def writeText {E : Type} (create : Bool) (p : PropDef E) (v : Value) (entry : String × String) : EncodeM Unit := do
  match Locale.idOf? entry.1 with
  | none => throw (.invalid p.name v .unknownLocale)
  | some locale =>
    if !entry.2.isEmpty then
      let _ ← fieldInstr p (.updateField (Payload.localized locale entry.2))
    else if !create then
      let _ ← fieldInstr p (.deleteText locale)

/-- Writes a valid value of a separate property. -/
def writeSeparate {E : Type} (c : Context) (edgesOf : EdgeEncoder E) (create : Bool) (p : PropDef E) (v : Value) :
    EncodeM Unit := do
  match p.type, v with
  | _, .null =>
    if !create then
      let _ ← fieldInstr p .deleteField
  | .text, .string s =>
    if c.locale = Locale.none then throw (.invalid p.name v .noLocale)
    let _ ← fieldInstr p (.updateField (Payload.localized c.locale s))
  | .text, .text entries => entries.forM (writeText create p v)
  | .reference, v =>
    let item ← (asRefItem p v : Except Error _)
    let entry ← (refEntry c edgesOf p item : Except Error _)
    refInstr p false [item] [entry] (.setRef entry.1)
  | .references, .list vs =>
    let items ← (vs.mapM (asRefItem p) : Except Error _)
    writeRefs c edgesOf p .setRefs items
  | .references, .refs replace add remove =>
    writeReplaced c edgesOf p replace
    writeAdded c edgesOf p add
    writeRemoved c p v remove
  | _, v =>
    match p.encodeSeparate v with
    | .ok payload =>
      let _ ← fieldInstr p (.updateField payload)
    | .error e => throw (.invalid p.name v (.unencodable e))

/-- A block with the bytes of a main field in their place; the block has to reach to the end of the field. -/
def placeField {E : Type} (block : Bytes) (f : Field E) : Except Error Bytes :=
  match f.prop.offset? with
  | none => .ok block
  | some offset =>
    if block.length < offset + f.prop.len then invalid f.prop f.value .outsideBlock
    else
      match f.prop.encodeFixed f.prop.len f.value with
      | .ok bytes => .ok (Bytes.overwrite offset bytes block)
      | .error e => invalid f.prop f.value (.unencodable e)

/-- The main block of a new node. -/
def mainBlock {E : Type} (t : Layout E) (fields : List (Field E)) : Except Error Bytes :=
  (fields.filter fun f => f.prop.isMain && !f.value.isNull).foldlM placeField t.mainDefaults

/-- Writes all fields of a new node. -/
def writeCreateWith {E : Type} (c : Context) (edgesOf : EdgeEncoder E) (t : Layout E) (fields : List (Field E)) :
    EncodeM Unit := do
  if 0 < t.mainLen then
    let block ← (mainBlock t fields : Except Error _)
    nodeInstr (.mainBlock block)
  (fields.filter fun f => !f.prop.isMain).forM fun f => writeSeparate c edgesOf true f.prop f.value

/-- Writes one changed field. A null gives a main field its default back. -/
def writeChange {E : Type} (c : Context) (edgesOf : EdgeEncoder E) (t : Layout E) (f : Field E) : EncodeM Unit := do
  match f.prop.offset? with
  | none => writeSeparate c edgesOf false f.prop f.value
  | some offset =>
    let bytes := (t.mainDefaults.drop offset).take f.prop.len
    let bytes ← (if f.value.isNull then .ok bytes else placeField bytes f : Except Error _)
    nodeInstr (.mainField offset bytes)

/-- Writes the changed fields of a node. -/
def writeUpdateWith {E : Type} (c : Context) (edgesOf : EdgeEncoder E) (t : Layout E) (fields : List (Field E)) :
    EncodeM Unit :=
  fields.forM (writeChange c edgesOf t)

/-! ## Links -/

/-- A name of a link's property may be given with the mark of such names. -/
def plainName (name : String) : String := String.ofList (name.toList.dropWhile (· = '$'))

/-- The links of links store nothing. -/
def nothingOnLinks : EdgeEncoder Empty := nofun

/-- The block of what a link stores, written like the fields of a new node. -/
def encodeEdges (c : Context) : EdgeEncoder EdgeLayout := fun t edges deferred => do
  let record := Record.ofList (edges.map fun (name, v) => (plainName name, v))
  let fields ← collectFields t c.lenient true record
  match writeCreateWith { c with linkDeferred := some deferred } nothingOnLinks t fields ⟨.forLink, []⟩ with
  | .ok _ d => return d.encoder.buffer.bytes
  | .error e _ => throw e

/-! ## Calls -/

/-- Writes all fields of a new node. -/
def writeCreate (c : Context) (t : TypeLayout) (fields : List (Field EdgeLayout)) : EncodeM Unit :=
  writeCreateWith c (encodeEdges c) t fields

/-- Writes the changed fields of a node. -/
def writeUpdate (c : Context) (t : TypeLayout) (fields : List (Field EdgeLayout)) : EncodeM Unit :=
  writeUpdateWith c (encodeEdges c) t fields

/-- Deletes the node that the cursor is on. -/
def writeDelete : EncodeM Unit := do
  nodeInstr .deleteNode
  moveTo .idle

/-- The amount of a counter as its property stores numbers. -/
def amountBytes {E : Type} (p : PropDef E) (amount : Value) : Except Error Bytes :=
  if p.type = .number then
    match amount.asDouble? with
    | some x => .ok x.toBytes
    | none => invalid p amount .wantsNumber
  else
    match amount.asInt? with
    | some i => .ok (intBytes p.len i.toInt)
    | none => invalid p amount .wantsInteger

/-- Adds an amount to a numeric main field, or subtracts it. -/
def writeCount {E : Type} (p : PropDef E) (amount : Value) (decrement : Bool) : EncodeM Unit := do
  match p.offset? with
  | some offset =>
    if !p.type.isNumeric then throw (.invalid p.name amount .notCounter)
    let bytes ← (amountBytes p amount : Except Error _)
    nodeInstr (.count decrement p.type.tag offset bytes)
  | none => throw (.invalid p.name amount .notCounter)

end NodeStore.Write
