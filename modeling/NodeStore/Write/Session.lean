import NodeStore.Limits
import NodeStore.Schema.Error
import NodeStore.Write.Encoder

/-!
# Write sessions

A session turns calls into batches. Calls write to the open buffer; a full buffer is closed as a batch and the call is
tried again on an empty one. When a batch is acknowledged its nodes get their ids, the writes that waited for them are
made up for, and references to them are settled.

* `Session.create`, `update`, `delete`, `count`: the calls.
* `Session.drain`, `acknowledge`: the two ends of a batch's way.
* `Session.flush`: the whole way, against an engine given as a function, until nothing is left.
-/

namespace NodeStore.Write

/-- How a session writes. -/
structure Options where
  /-- The capacity of one batch. -/
  maxBuffer : Nat := Limits.defaultMaxBuffer
  /-- Skip unknown names and the properties' own validators. -/
  lenient : Bool := false
  /-- The locale of texts written as plain strings; the schema's first one if none is chosen. -/
  locale : Option String := none

/-- Instructions for the engine. -/
structure Batch where
  seq : Nat
  bytes : Bytes
  /-- The number of nodes it creates; the engine answers that many ids. -/
  creates : Nat
  deriving DecidableEq, Inhabited

/-- The state of a session. -/
structure Session where
  schema : SchemaLayout
  maxBuffer : Nat
  lenient : Bool
  locale : UInt8
  encoder : Encoder
  registry : Registry
  /-- Closed batches that nobody has taken. -/
  outbox : List Batch
  nextSeq : Nat

/-- A call; what it changed before a failure stays changed. -/
abbrev SessionM := EStateM Error Session

namespace Session

/-- A fresh session; the chosen locale has to be enabled. -/
def start (schema : SchemaLayout) (options : Options) : Except Schema.Error Session := do
  let locale ← match options.locale with
    | some code =>
      match schema.localeByCode? code with
      | some l => pure l.id
      | none => throw (.unknownLocale code)
    | none => pure ((schema.locales.head?.map (·.id)).getD Locale.none)
  return { schema, maxBuffer := options.maxBuffer, lenient := options.lenient, locale,
           encoder := .new options.maxBuffer, registry := .empty, outbox := [], nextSeq := 1 }

/-- The bytes in the open buffer. -/
def bufferedLength (s : Session) : Nat := s.encoder.buffer.length

/-- The references that wait on a node. -/
def outstanding (s : Session) : Nat := s.registry.outstanding

def context (s : Session) : Context := ⟨s.registry, s.locale, s.lenient, none⟩

/-! ## Batches -/

/-- Closes the open buffer as a batch, unless it is empty. -/
def close (s : Session) : Session :=
  if s.encoder.buffer.isEmpty then s
  else
    let (bytes, encoder) := s.encoder.close
    let (creates, registry) := s.registry.close s.nextSeq
    { s with encoder, registry, nextSeq := s.nextSeq + 1, outbox := s.outbox ++ [⟨s.nextSeq, bytes, creates⟩] }

/-- Closes the open buffer and takes all batches, the oldest first. -/
def drain (s : Session) : List Batch × Session :=
  let s := s.close
  (s.outbox, { s with outbox := [] })

/-! ## Calls -/

/-- One try of a call on the open buffer; a failed one leaves the session as it was. -/
def attempt {α : Type} (s : Session) (call : Context → EncodeM α) : Except Error ((α × List Placeholder) × Session) :=
  match call s.context ⟨s.encoder, []⟩ with
  | .ok a d => .ok ((a, d.placeholders), { s with encoder := d.encoder })
  | .error e _ => .error e

/-- What does not fit into an empty buffer never fits. -/
def tooLarge (s : Session) : Error → Error
  | .bufferFull e => .recordTooLarge e.needed s.maxBuffer
  | e => e

/-- Tries a call, and tries it again on an empty buffer if the open one is full. -/
def run {α : Type} (call : Context → EncodeM α) : SessionM (α × List Placeholder) := fun s =>
  match s.attempt call with
  | .ok (a, s') => .ok a s'
  | .error (.bufferFull e) =>
    if s.encoder.buffer.isEmpty then .error (s.tooLarge (.bufferFull e)) s
    else
      let s := s.close
      match s.attempt call with
      | .ok (a, s') => .ok a s'
      | .error e => .error (s.tooLarge e) s
  | .error e => .error e s

/-- Fails with the first error of a computation that needs no session. -/
def ofExcept {α : Type} : Except Error α → SessionM α
  | .ok a => pure a
  | .error e => throw e

/-- The type of that name. -/
def typeNamed (name : String) : SessionM TypeLayout := do
  match (← get).schema.typeByName? name with
  | some t => return t
  | none => throw (.unknownType name)

/-- The type with that id. -/
def typeWithId (id : TypeId) : SessionM TypeLayout := do
  match (← get).schema.typeById? id with
  | some t => return t
  | none => throw (.unknownType (toString id.toNat))

def oblige (owner : NodeRef) (type : TypeId) (hs : List Placeholder) : SessionM Unit :=
  modify fun s => { s with registry := hs.foldl (fun r h => r.oblige owner type h) s.registry }

/-- Creates a node; the answer is its handle. -/
def create (type : String) (record : Record) : SessionM PendingId := do
  let t ← typeNamed type
  let fields ← ofExcept (collectFields t (← get).lenient true record)
  let (_, hs) ← run fun c => do
    createNode t.id c.registry.nextTmp
    writeCreate c t fields
  let (p, registry) := (← get).registry.register t.id
  modify fun s => { s with registry }
  oblige (.pending p) t.id hs
  return p

/-- Writes to a node, or answers the handle of its create if that is in flight. -/
def writeTo (type : TypeId) (target : NodeRef) (write : Context → EncodeM Unit) (c : Context) :
    EncodeM (Option PendingId) := do
  match ← (c.registry.wireTarget target : Except Error _) with
  | .id n =>
    selectNode type (.id n)
    write c
    return none
  | .tmp n =>
    selectNode type (.tmp n)
    write c
    return none
  | .deferred p => return some p

/-- Writes to a node now, or puts the write behind the create of the node. -/
def perform (type : TypeId) (target : NodeRef) (op : QueuedOp) (write : Context → EncodeM Unit) : SessionM Unit := do
  let (waits, hs) ← run (writeTo type target write)
  match waits with
  | none => oblige target type hs
  | some p => modify fun s => { s with registry := s.registry.queue p op }

/-- Updates a node of a type given by its id. -/
def updateNode (type : TypeId) (target : NodeRef) (record : Record) : SessionM Unit := do
  let t ← typeWithId type
  let fields ← ofExcept (collectFields t (← get).lenient false record)
  perform type target (.update record) fun c => writeUpdate c t fields

/-- Deletes a node of a type given by its id. -/
def deleteNode (type : TypeId) (target : NodeRef) : SessionM Unit :=
  perform type target .delete fun _ => writeDelete

/-- Adds to a number of a node, or subtracts from it. -/
def countNode (type : TypeId) (target : NodeRef) (field : String) (amount : Value) (decrement : Bool) :
    SessionM Unit := do
  let t ← typeWithId type
  match t.prop? field with
  | none => throw (.unknownProperty t.name field)
  | some p =>
    if !p.isMain || !p.type.isNumeric || amount.asDouble?.isNone then
      throw (.invalid p.name amount .notCounterOrAmount)
    perform type target (.increment field amount decrement) fun _ => writeCount p amount decrement

/-- Updates the fields of a node; a null takes a field away. -/
def update (type : String) (target : NodeRef) (record : Record) : SessionM Unit := do
  updateNode (← typeNamed type).id target record

/-- Deletes a node. -/
def delete (type : String) (target : NodeRef) : SessionM Unit := do
  deleteNode (← typeNamed type).id target

/-- Adds to a number without reading it, or subtracts from it. -/
def count (type : String) (target : NodeRef) (field : String) (amount : Value) (decrement : Bool) :
    SessionM Unit := do
  countNode (← typeNamed type).id target field amount decrement

/-! ## Acknowledgment -/

/-- Runs all calls, whichever of them fail; the answer is the first error. -/
def runAll : List (SessionM Unit) → Session → Option Error × Session
  | [], s => (none, s)
  | call :: calls, s =>
    match call s with
    | .ok _ s => runAll calls s
    | .error e s => (some e, (runAll calls s).2)

/-- A write that waited for a node's id. -/
def replay (type : TypeId) (id : NodeId) : QueuedOp → SessionM Unit
  | .update record => updateNode type (.id id) record
  | .delete => deleteNode type (.id id)
  | .increment field amount decrement => countNode type (.id id) field amount decrement

/-- Settles a reference to a node that got its id. -/
def settleObligation (id : NodeId) (o : Obligation) : SessionM Unit :=
  match o.pos with
  | some pos => modify fun s => { s with encoder := s.encoder.patchPlaceholder pos id }
  | none => updateNode o.type o.owner (o.followUp id)

/-- Makes up for the writes and settles the references that waited for a node. -/
def settle (p : PendingId) (id : NodeId) : SessionM Unit := fun s =>
  match s.registry.typeOf? p with
  | none => .error (.unknownPending p) s
  | some type =>
    let (ops, registry) := s.registry.takeQueue p
    let (e₁, s) := runAll (ops.map (replay type id)) { s with registry }
    let (obligations, registry) := s.registry.takeObligations p
    let (e₂, s) := runAll (obligations.map (settleObligation id)) { s with registry }
    match e₁ <|> e₂ with
    | none => .ok () s
    | some e => .error e s

/-- Fails all creates of a batch. -/
def failBatch (seq : Nat) (creates : List PendingId) (error : Engine.Error) (s : Session) : Session :=
  { s with registry := creates.foldl (fun r p => r.fail p (.batch seq error)) s.registry }

/-- Gives the nodes of a batch their ids; the answer lists those that had not failed before. -/
def resolveAll : List (PendingId × NodeId) → Registry → List (PendingId × NodeId) × Registry
  | [], r => ([], r)
  | (p, id) :: rest, r =>
    let (ok, r) := r.resolve p id
    let (others, r) := resolveAll rest r
    (if ok then (p, id) :: others else others, r)

/-- The reason to fail a batch that answered a wrong number of ids. -/
def wrongCount (seq ids creates : Nat) : Engine.Error :=
  ⟨s!"batch {seq} returned {ids} ids for {creates} creates"⟩

/-- Takes in the engine's answer to a batch: an id for each create, or the reason why the batch failed. -/
def acknowledge (seq : Nat) (result : Except Engine.Error (List NodeId)) : SessionM Unit := fun s =>
  match s.registry.takeInFlight seq with
  | (none, _) => .error (.unknownBatch seq) s
  | (some creates, registry) =>
    let s := { s with registry }
    match result with
    | .error e => .ok () (s.failBatch seq creates e)
    | .ok ids =>
      if ids.length = creates.length then
        let (resolved, registry) := resolveAll (creates.zip ids) s.registry
        match runAll (resolved.map fun (p, id) => settle p id) { s with registry } with
        | (none, s) => .ok () s
        | (some e, s) => .error e s
      else
        let e := wrongCount seq ids.length creates.length
        .error (.engine e) (s.failBatch seq creates e)

/-! ## Flushing -/

/-- An engine: what it answers to the bytes of a batch, and the engine afterwards. -/
abbrev EngineStep (σ : Type) := Bytes → σ → Except Engine.Error (List NodeId) × σ

/-- Hands batches to an engine and acknowledges each at once; the answer is the first error. -/
def applyBatches {σ : Type} (apply : EngineStep σ) : List Batch → σ → Session → Option Error × σ × Session
  | [], engine, s => (none, engine, s)
  | b :: bs, engine, s =>
    let (result, engine) := apply b.bytes engine
    let refused := match result with
      | .ok _ => none
      | .error e => some (Error.engine e)
    let (failed, s) := match acknowledge b.seq result s with
      | .ok _ s => (none, s)
      | .error e s => (some e, s)
    let (later, engine, s) := applyBatches apply bs engine s
    (refused <|> failed <|> later, engine, s)

/-- The created nodes whose state can still change. -/
def unsettled (s : Session) : Nat := s.registry.entries.countP fun e => !e.state.settled

/-- At most `n` rounds of handing over all batches. -/
def flushRounds {σ : Type} (apply : EngineStep σ) : Nat → σ → Session → Option Error × σ × Session
  | 0, engine, s => (none, engine, s)
  | n + 1, engine, s =>
    match s.drain with
    | ([], s) => (none, engine, s)
    | (bs, s) =>
      let (e, engine, s) := applyBatches apply bs engine s
      let (later, engine, s) := flushRounds apply n engine s
      (e <|> later, engine, s)

/-- Hands everything to an engine, with the writes that acknowledgments add, and answers the first error. A round that
resolves no node adds no writes, so there are at most two rounds more than nodes without an id. -/
def flush {σ : Type} (apply : EngineStep σ) (engine : σ) (s : Session) : Except Error Unit × σ × Session :=
  match flushRounds apply (s.unsettled + 2) engine s with
  | (none, engine, s) => (.ok (), engine, s)
  | (some e, engine, s) => (.error e, engine, s)

/-! ## Handles -/

/-- The id of a created node, if it has one already. -/
def resolved? (s : Session) (p : PendingId) : Except Error (Option NodeId) := do
  match ← s.registry.status p with
  | .resolved id => return some id
  | .failed f => throw (.pending f)
  | _ => return none

end Session

end NodeStore.Write
