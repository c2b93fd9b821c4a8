import NodeStore.Assoc
import NodeStore.Record
import NodeStore.Write.Error

/-!
# Created nodes without an id

A created node is buffered while its create sits in the open buffer, in flight once its batch is closed, and resolved
or failed when the batch is acknowledged. A reference to a node in flight is written as a placeholder; the obligation
to settle it is kept here.

* `Registry`: the states of all created nodes with the obligations.
* `Registry.close`, `resolve`, `fail`: the moves of a batch; a failure reaches every node that waits on a failed one.
* `Registry.takeQueue`, `takeObligations`: what has to be made up for once a node has its id.
-/

namespace NodeStore.Write

/-- How a reference is written. -/
inductive WireTarget where
  | id (n : NodeId)
  /-- The number of a create of the same batch. -/
  | tmp (n : UInt32)
  /-- A node of an earlier batch that is not acknowledged. -/
  | deferred (p : PendingId)
  deriving DecidableEq, Inhabited

/-- The state of a created node. -/
inductive PendingState where
  /-- In the open buffer, as its create number `tmp`. -/
  | buffered (tmp : UInt32)
  | inFlight (seq : Nat)
  | resolved (id : NodeId)
  | failed (failure : PendingFailure)
  deriving DecidableEq, Inhabited

/-- A write to a node whose create is in flight. -/
inductive QueuedOp where
  | update (record : Record)
  | delete
  | increment (field : String) (by_ : Value) (decrement : Bool)
  deriving Inhabited

/-- A reference to a node in flight that the current call wrote. -/
structure Placeholder where
  target : PendingId
  prop : String
  /-- Is the property a collection? -/
  many : Bool
  edges : Record
  /-- The position of the item in the open buffer. -/
  pos : Nat
  deriving Inhabited

/-- A placeholder that has to be settled, with the node that holds it. Once it left with a batch it has no position. -/
structure Obligation where
  target : PendingId
  owner : NodeRef
  type : TypeId
  prop : String
  many : Bool
  edges : Record
  pos : Option Nat
  deriving Inhabited

/-- The update that sets the reference once its target has an id. -/
def Obligation.followUp (o : Obligation) (id : NodeId) : Record :=
  let v := if o.many then .refs none [(.id id, o.edges)] [] else .ref (.id id) o.edges
  [(o.prop, v)]

/-- A created node with the writes that wait for its id. -/
structure PendingEntry where
  type : TypeId
  state : PendingState
  queue : List QueuedOp
  deriving Inhabited

/-- All created nodes; the handle of the first one is 1. -/
structure Registry where
  entries : List PendingEntry
  /-- The creates of the open buffer in their order. -/
  buffered : List PendingId
  /-- The creates of each batch in flight. -/
  inFlight : List (Nat × List PendingId)
  obligations : List Obligation
  deriving Inhabited

namespace PendingState

/-- Will the state never change again? -/
def settled : PendingState → Bool
  | buffered _ | inFlight _ => false
  | resolved _ | failed _ => true

end PendingState

namespace Registry

def empty : Registry := ⟨[], [], [], []⟩

/-- The entry of a handle. -/
def entry? (r : Registry) (p : PendingId) : Option PendingEntry :=
  if p.raw = 0 then none else r.entries[p.raw - 1]?

/-- Changes the entry of a handle. -/
def modifyEntry (r : Registry) (p : PendingId) (f : PendingEntry → PendingEntry) : Registry :=
  if p.raw = 0 then r else { r with entries := r.entries.modify (p.raw - 1) f }

/-- The number that the next create of the open buffer gets. -/
def nextTmp (r : Registry) : UInt32 := UInt32.ofNat r.buffered.length

/-- Enters a create that was written to the open buffer. -/
def register (r : Registry) (type : TypeId) : PendingId × Registry :=
  let p : PendingId := ⟨r.entries.length + 1⟩
  (p, { r with entries := r.entries ++ [⟨type, .buffered r.nextTmp, []⟩], buffered := r.buffered ++ [p] })

def typeOf? (r : Registry) (p : PendingId) : Option TypeId := (r.entry? p).map (·.type)

/-- The state of a handle. -/
def status (r : Registry) (p : PendingId) : Except Error PendingState :=
  match r.entry? p with
  | some e => .ok e.state
  | none => .error (.unknownPending p)

/-- How a node is referred to. -/
def wireTarget (r : Registry) : NodeRef → Except Error WireTarget
  | .id n => .ok (.id n)
  | .pending p => do
    match ← r.status p with
    | .buffered tmp => return .tmp tmp
    | .inFlight _ => return .deferred p
    | .resolved n => return .id n
    | .failed f => throw (.pending f)

/-- The type of the node behind a handle. -/
def pendingType? (r : Registry) : NodeRef → Option TypeId
  | .id _ => none
  | .pending p => r.typeOf? p

/-- Keeps a placeholder in the open buffer to be settled. -/
def oblige (r : Registry) (owner : NodeRef) (type : TypeId) (h : Placeholder) : Registry :=
  { r with obligations := r.obligations ++ [⟨h.target, owner, type, h.prop, h.many, h.edges, some h.pos⟩] }

/-- Puts a write behind those that already wait for a node's id. -/
def queue (r : Registry) (p : PendingId) (op : QueuedOp) : Registry :=
  r.modifyEntry p fun e => { e with queue := e.queue ++ [op] }

/-- Closes the open buffer: its creates are on their way as batch `seq`. -/
def close (r : Registry) (seq : Nat) : Nat × Registry :=
  let send (e : PendingEntry) : PendingEntry :=
    match e.state with
    | .buffered _ => { e with state := .inFlight seq }
    | _ => e
  let sent := r.buffered.foldl (fun r p => r.modifyEntry p send) r
  (r.buffered.length,
    { sent with
      buffered := []
      inFlight := Assoc.insert seq r.buffered r.inFlight
      obligations := r.obligations.map fun o => { o with pos := none } })

/-- Takes the creates of a batch in flight out of the registry. -/
def takeInFlight (r : Registry) (seq : Nat) : Option (List PendingId) × Registry :=
  (Assoc.find? seq r.inFlight, { r with inFlight := Assoc.erase seq r.inFlight })

/-- Gives a node in flight its id; the answer is false for any other state. -/
def resolve (r : Registry) (p : PendingId) (id : NodeId) : Bool × Registry :=
  match r.entry? p with
  | some { state := .inFlight _, .. } => (true, r.modifyEntry p fun e => { e with state := .resolved id })
  | _ => (false, r)

/-- Takes the writes that wait for a node's id. -/
def takeQueue (r : Registry) (p : PendingId) : List QueuedOp × Registry :=
  (((r.entry? p).map (·.queue)).getD [], r.modifyEntry p fun e => { e with queue := [] })

/-- Takes the obligations that wait on a node. -/
def takeObligations (r : Registry) (target : PendingId) : List Obligation × Registry :=
  (r.obligations.filter (·.target = target),
    { r with obligations := r.obligations.filter fun o => !decide (o.target = target) })

/-- The nodes that fail with a failed one, each with its reason. -/
def dependents (p : PendingId) (failure : PendingFailure) (taken : List Obligation) :
    List (PendingId × PendingFailure) :=
  taken.filterMap fun o =>
    match o.owner with
    | .pending owner => some (owner, .dependency p failure)
    | .id _ => none

/-- Marks a node as failed and drops its obligations and the writes that wait for it. -/
def markFailed (r : Registry) (p : PendingId) (failure : PendingFailure) : Registry :=
  let r := r.modifyEntry p fun e => { e with state := .failed failure, queue := [] }
  { r with obligations := r.obligations.filter fun o => !decide (o.owner = .pending p) }

theorem modifyEntry_obligations (r : Registry) (p : PendingId) (f : PendingEntry → PendingEntry) :
    (r.modifyEntry p f).obligations = r.obligations := by
  unfold modifyEntry
  split <;> rfl

theorem length_obligations_markFailed (r : Registry) (p : PendingId) (failure : PendingFailure) :
    (r.markFailed p failure).obligations.length ≤ r.obligations.length := by
  simp only [markFailed, modifyEntry_obligations]
  exact List.length_filter_le ..

theorem length_dependents (p : PendingId) (failure : PendingFailure) (taken : List Obligation) :
    (dependents p failure taken).length ≤ taken.length := List.length_filterMap_le ..

theorem length_takeObligations (r : Registry) (p : PendingId) :
    (r.takeObligations p).1.length + (r.takeObligations p).2.obligations.length = r.obligations.length := by
  simp only [takeObligations]
  induction r.obligations with
  | nil => rfl
  | cons o os ih => by_cases h : o.target = p <;> simp_all <;> omega

/-- Fails the nodes of a worklist, its last entry first, and all that wait on them. Each step takes one entry off the
list and puts at most one entry on it for each obligation that it removes. -/
def failAll (r : Registry) : List (PendingId × PendingFailure) → Registry
  | [] => r
  | (p, failure) :: work =>
    if ((r.entry? p).map (·.state.settled)).getD true then r.failAll work
    else
      let marked := r.markFailed p failure
      let taken := marked.takeObligations p
      taken.2.failAll ((dependents p failure taken.1).reverse ++ work)
  termination_by work => work.length + r.obligations.length
  decreasing_by
    · simp
    · have h₁ := length_obligations_markFailed r p failure
      have h₂ := length_takeObligations (r.markFailed p failure) p
      have h₃ := length_dependents p failure ((r.markFailed p failure).takeObligations p).1
      simp only [List.length_append, List.length_reverse, List.length_cons]
      omega

/-- Fails a node and, through the references that wait, every node that depends on it. -/
def fail (r : Registry) (p : PendingId) (failure : PendingFailure) : Registry := r.failAll [(p, failure)]

/-- The number of references that wait on a node. -/
def outstanding (r : Registry) : Nat := r.obligations.length

end Registry

end NodeStore.Write
