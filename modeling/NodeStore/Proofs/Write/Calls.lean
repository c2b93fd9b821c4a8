import Mathlib.Logic.Relation
import NodeStore.Proofs.Write.Addressing
import NodeStore.Proofs.Write.Tracking

/-!
# What a call does to a session

A call closes the open buffer if it has to, and then writes to a node, enters a create, or puts a write behind a create.

* `Session.Move`: these steps; `Session.Called`: a call as the steps that it takes; `Session.Wrote`: without a create.
* `Session.Continues`, `Session.Follows`: what all calls keep; a node that has its id is owed what it was.
* `create_called`, `updateNode_wrote`, `deleteNode_wrote`, `countNode_wrote`, `replay_wrote`.
* `perform_eq_ok`, `updateNode_eq_ok`, `update_eq_ok_iff`: what a write that succeeds has done.
-/

namespace NodeStore.Write

namespace Session

variable {s s' s'' : Session}

/-! ### Steps of calls -/

/-- One step of a call, apart from closing the open buffer. -/
inductive Move (s : Session) : Session → Prop
  /-- Instructions for one node, with the obligations for them. -/
  | write {owner : NodeRef} {type : TypeId} {wire : WireTarget} {node : NodeTarget} {enc : Encoder}
      {hs : List Placeholder} {js : List Instr} (howner : s.registry.wireTarget owner = .ok wire)
      (hnode : wire.node? = some node) (happ : AppendsAll s.schema (s.Notes owner type node) ⟨s.encoder, []⟩ ⟨enc, hs⟩ js hs) :
      Move s { s with encoder := enc, registry := hs.foldl (fun r x => r.oblige owner type x) s.registry }
  | register (type : TypeId) : Move s { s with registry := (s.registry.register type).2 }
  | queue (p : PendingId) (op : QueuedOp) : Move s { s with registry := s.registry.queue p op }

/-- A session with its open buffer, or with that buffer closed. -/
def Opened (s s' : Session) : Prop := s' = s ∨ s.encoder.buffer.isEmpty = false ∧ s' = s.close

/-- A call closes the open buffer at most once, before anything else. -/
def Called (s s' : Session) : Prop := ∃ s₀, s.Opened s₀ ∧ Relation.ReflTransGen Move s₀ s'

theorem Opened.called (h : s.Opened s') : s.Called s' := ⟨s', h, .refl⟩

theorem Called.refl (s : Session) : s.Called s := Opened.called (.inl rfl)

/-- A call that creates no node. -/
structure Wrote (s s' : Session) : Prop where
  called : s.Called s'
  length : s'.registry.entries.length = s.registry.entries.length

theorem Wrote.refl (s : Session) : s.Wrote s := ⟨.refl s, rfl⟩

theorem length_entries_foldl {f : PendingEntry → PendingEntry} (ps : List PendingId) (r : Registry) :
    (ps.foldl (fun r p => r.modifyEntry p f) r).entries.length = r.entries.length := by
  induction ps generalizing r with
  | nil => rfl
  | cons p ps ih => exact (ih _).trans (Registry.length_entries_modifyEntry ..)

theorem length_entries_close (s : Session) : s.close.registry.entries.length = s.registry.entries.length := by
  cases h : s.encoder.buffer.isEmpty with
  | true => rw [close_of_empty h]
  | false =>
    rw [close_of_nonempty h]
    exact length_entries_foldl s.registry.buffered s.registry

theorem Opened.wrote (h : s.Opened s') : s.Wrote s' := by
  refine ⟨h.called, ?_⟩
  rcases h with rfl | ⟨-, rfl⟩
  · rfl
  · exact length_entries_close s

/-! ### What calls keep -/

/-- The obligations on a node. -/
def owed (s : Session) (p : PendingId) : List Obligation := (s.registry.takeObligations p).1

/-- The same obligations, or those whose placeholders have left since. -/
def Kept (os os' : List Obligation) : Prop := os' = os ∨ os' = os.map Obligation.flushed

theorem Kept.trans {os os' os'' : List Obligation} (h : Kept os os') (h' : Kept os' os'') : Kept os os'' := by
  have hflushed : (os.map Obligation.flushed).map Obligation.flushed = os.map Obligation.flushed := by
    rw [List.map_map]
    rfl
  rcases h with rfl | rfl
  · exact h'
  · rcases h' with rfl | rfl
    · exact .inr rfl
    · exact .inr hflushed

/-- What has left does not come back. -/
theorem Kept.left {os os' : List Obligation} (h : Kept os os') (hos : ∀ o ∈ os, o.pos = none) : ∀ o ∈ os', o.pos = none := by
  rcases h with rfl | rfl
  · exact hos
  · intro o ho
    obtain ⟨o', -, rfl⟩ := List.mem_map.1 ho
    rfl

/-- What calls and acknowledgments' own writes keep: nodes are only sent, and batches only closed. -/
structure Continues (s s' : Session) : Prop where
  alike : s.Alike s'
  sends : s.registry.Sends s'.registry
  seq : s.nextSeq ≤ s'.nextSeq
  awaits : ∀ seq, s'.registry.Awaits seq ↔ s.registry.Awaits seq ∨ s.nextSeq ≤ seq ∧ seq < s'.nextSeq

theorem Continues.refl (s : Session) : s.Continues s :=
  ⟨.refl s, .refl _, Nat.le_refl _, fun _ => (or_iff_left (by omega)).symm⟩

theorem Continues.trans (h : s.Continues s') (h' : s'.Continues s'') : s.Continues s'' where
  alike := h.alike.trans h'.alike
  sends := h.sends.trans h'.sends
  seq := Nat.le_trans h.seq h'.seq
  awaits seq := by
    have hle := h.seq
    have hle' := h'.seq
    rw [h'.awaits, h.awaits, or_assoc]
    refine or_congr Iff.rfl ?_
    omega

/-- What writes to nodes, creates and waiting writes do not touch. -/
theorem Continues.of_registry {enc : Encoder} {r : Registry} (hsends : s.registry.Sends r)
    (hflight : r.inFlight = s.registry.inFlight) : s.Continues { s with encoder := enc, registry := r } := by
  refine ⟨⟨rfl, rfl, rfl, rfl⟩, hsends, Nat.le_refl _, fun seq => ?_⟩
  unfold Registry.Awaits
  rw [hflight]
  exact (or_iff_left (by dsimp only; omega)).symm

/-- What calls keep besides: what has been closed, and what a node that has its id is owed. -/
structure Follows (s s' : Session) : Prop extends Continues s s' where
  owed : ∀ p id, s.registry.status p = .ok (.resolved id) → Kept (s.owed p) (s'.owed p)
  outbox : s.outbox <+: s'.outbox

theorem Follows.refl (s : Session) : s.Follows s := ⟨.refl s, fun _ _ _ => .inl rfl, List.prefix_rfl⟩

theorem Follows.trans (h : s.Follows s') (h' : s'.Follows s'') : s.Follows s'' where
  toContinues := h.toContinues.trans h'.toContinues
  owed p id hp := (h.owed p id hp).trans (h'.owed p id (h.sends.later.status_resolved hp))
  outbox := h.outbox.trans h'.outbox

/-- The placeholders that are written wait on nodes in flight. -/
theorem flight_of_appends {owner : NodeRef} {type : TypeId} {node : NodeTarget} {enc : Encoder} {hs : List Placeholder}
    {js : List Instr} (happ : AppendsAll s.schema (s.Notes owner type node) ⟨s.encoder, []⟩ ⟨enc, hs⟩ js hs) :
    ∀ x ∈ hs, ∃ seq, s.registry.status x.target = .ok (.inFlight seq) := by
  intro x hx
  obtain ⟨sel, hsel⟩ := s.encoder.cursor.exists_within
  obtain ⟨it, -, hnotes⟩ := exists_of_forall₂_left (happ.stand sel hsel) hx
  exact hnotes.flight

theorem Move.continues (h : s.Move s') : s.Continues s' := by
  cases h with
  | write =>
    rw [Registry.foldl_oblige]
    exact .of_registry (.of_entries rfl) rfl
  | register type => exact .of_registry (Registry.Sends.register s.registry type) rfl
  | queue p op => exact .of_registry (Registry.Sends.queue s.registry p op) (Registry.modifyEntry_batches ..).2

/-- Only a write adds obligations, and it adds them for nodes in flight. -/
theorem Move.follows (h : s.Move s') : s.Follows s' := by
  refine ⟨h.continues, fun p id hp => .inl ?_, ?_⟩
  · change s'.registry.obligations.filter (·.target = p) = s.registry.obligations.filter (·.target = p)
    cases h with
    | @write owner type wire node enc hs js howner hnode happ =>
      have hnone : (hs.map (Placeholder.obligation owner type)).filter (·.target = p) = [] := by
        refine List.filter_eq_nil_iff.2 fun o ho htarget => ?_
        obtain ⟨x, hx, rfl⟩ := List.mem_map.1 ho
        obtain ⟨seq, hseq⟩ := flight_of_appends happ x hx
        have htarget : x.target = p := of_decide_eq_true htarget
        rw [htarget, hp] at hseq
        cases hseq
      dsimp only
      rw [Registry.foldl_oblige, List.filter_append, hnone, List.append_nil]
    | register type => rfl
    | queue q op => exact congrArg _ (Registry.modifyEntry_obligations ..)
  · cases h <;> exact List.prefix_rfl

theorem Move.nextSeq (h : s.Move s') : s'.nextSeq = s.nextSeq := by cases h <;> rfl

theorem Move.outbox (h : s.Move s') : s'.outbox = s.outbox := by cases h <;> rfl

theorem Move.tracks {is : List Instr} {held : List Obligation} {due : List PendingId} (h : s.Move s')
    (ht : s.Tracks is held due) : ∃ is', s'.Tracks is' held due := by
  cases h with
  | write howner hnode happ => exact ⟨_, ht.append howner hnode happ⟩
  | register type => exact ⟨is, ht.register type⟩
  | queue p op =>
    refine ⟨is, ht.sameStates (Registry.Sends.queue s.registry p op).later ?_ (Registry.modifyEntry_obligations ..)⟩
    exact .modifyEntry _ _ fun _ => rfl

/-- What some steps keep. -/
theorem follows_of_moves (h : Relation.ReflTransGen Move s s') :
    s.Follows s' ∧ s'.nextSeq = s.nextSeq ∧ s'.outbox = s.outbox := by
  induction h with
  | refl => exact ⟨.refl s, rfl, rfl⟩
  | tail _ hmove ih => exact ⟨ih.1.trans hmove.follows, hmove.nextSeq.trans ih.2.1, hmove.outbox.trans ih.2.2⟩

theorem tracks_of_moves {is : List Instr} {held : List Obligation} {due : List PendingId}
    (h : Relation.ReflTransGen Move s s') (ht : s.Tracks is held due) : ∃ is', s'.Tracks is' held due := by
  induction h with
  | refl => exact ⟨is, ht⟩
  | tail _ hmove ih =>
    obtain ⟨is', ht'⟩ := ih
    exact hmove.tracks ht'

/-- A closed buffer takes the positions from obligations, and nothing else. -/
theorem owed_close (s : Session) (p : PendingId) : Kept (s.owed p) (s.close.owed p) := by
  cases h : s.encoder.buffer.isEmpty with
  | true =>
    rw [close_of_empty h]
    exact .inl rfl
  | false =>
    rw [close_of_nonempty h]
    exact .inr List.filter_map

theorem continues_close (s : Session) : s.Continues s.close := by
  have halike := alike_close s
  cases h : s.encoder.buffer.isEmpty with
  | true =>
    rw [close_of_empty h]
    exact .refl s
  | false =>
    rw [close_of_nonempty h] at halike ⊢
    refine ⟨halike, Registry.Sends.close s.registry s.nextSeq, Nat.le_succ _, fun seq => ?_⟩
    have hfind : Assoc.find? seq (s.registry.close s.nextSeq).2.inFlight =
        if seq = s.nextSeq then some s.registry.buffered else Assoc.find? seq s.registry.inFlight :=
      Assoc.find?_insert ..
    change (∃ ps, Assoc.find? seq (s.registry.close s.nextSeq).2.inFlight = some ps) ↔
      _ ∨ s.nextSeq ≤ seq ∧ seq < s.nextSeq + 1
    rw [hfind]
    by_cases hseq : seq = s.nextSeq
    · rw [if_pos hseq]
      exact ⟨fun _ => .inr (by omega), fun _ => ⟨_, rfl⟩⟩
    · rw [if_neg hseq]
      exact (or_iff_left (by omega)).symm

theorem follows_close (s : Session) : s.Follows s.close := by
  refine ⟨continues_close s, fun p _ _ => owed_close s p, ?_⟩
  cases h : s.encoder.buffer.isEmpty with
  | true =>
    have hsame : s.close.outbox = s.outbox := congrArg Session.outbox (close_of_empty h)
    exact hsame ▸ List.prefix_rfl
  | false =>
    rw [close_of_nonempty h]
    exact List.prefix_append ..

theorem Called.follows (h : s.Called s') : s.Follows s' := by
  obtain ⟨s₀, hopened, hmoves⟩ := h
  have hfollows := (follows_of_moves hmoves).1
  rcases hopened with rfl | ⟨-, rfl⟩
  · exact hfollows
  · exact (follows_close s).trans hfollows

/-- A call that closes the open buffer needs all held references to have left. -/
theorem Called.tracks {is : List Instr} {held : List Obligation} {due : List PendingId} (h : s.Called s')
    (ht : s.Tracks is held due) (hheld : s'.nextSeq ≠ s.nextSeq → ∀ o ∈ held, o.pos = none) :
    ∃ is', s'.Tracks is' held due := by
  obtain ⟨s₀, hopened, hmoves⟩ := h
  rcases hopened with rfl | ⟨hbuffer, rfl⟩
  · exact tracks_of_moves hmoves ht
  · refine tracks_of_moves hmoves (ht.close (hheld ?_) hbuffer)
    rw [(follows_of_moves hmoves).2.1, close_of_nonempty hbuffer]
    exact Nat.succ_ne_self _

/-! ### Actions -/

section

variable {α β : Type}

theorem after_of_ok {x : SessionM α} {a : α} (h : x s = .ok a s') : after x s = s' := by
  unfold after
  rw [h]

theorem after_of_error {x : SessionM α} {e : Error} (h : x s = .error e s') : after x s = s' := by
  unfold after
  rw [h]

theorem after_bind_of_ok {x : SessionM α} {f : α → SessionM β} {a : α} (h : x s = .ok a s') :
    after (x >>= f) s = after (f a) s' := by
  unfold after
  rw [EStateM.bind_of_ok h]

/-- What follows on an action that only looks at the session. -/
theorem after_bind_of_look {x : SessionM α} {f : α → SessionM β} {P : Session → Prop} (hx : after x s = s) (hs : P s)
    (hf : ∀ a, x s = .ok a s → P (after (f a) s)) : P (after (x >>= f) s) := by
  cases h : x s with
  | error e s' =>
    have hs' : s' = s := (after_of_error h).symm.trans hx
    rw [after_of_error (EStateM.bind_of_error h), hs']
    exact hs
  | ok a s' =>
    have hs' : s' = s := (after_of_ok h).symm.trans hx
    rw [hs'] at h
    rw [after_bind_of_ok h]
    exact hf a h

theorem ofExcept_look (x : Except Error α) (s : Session) : after (ofExcept x) s = s := by cases x <;> rfl

theorem ofExcept_eq_ok {x : Except Error α} {a : α} : ofExcept x s = .ok a s' ↔ x = .ok a ∧ s = s' := by
  cases x with
  | ok b => exact ⟨fun h => by cases h; exact ⟨rfl, rfl⟩, fun ⟨hx, hs⟩ => by cases hx; cases hs; rfl⟩
  | error e => exact ⟨nofun, fun ⟨hx, _⟩ => nomatch hx⟩

theorem typeNamed_eq (name : String) (s : Session) :
    typeNamed name s = (s.schema.typeByName? name).elim (.error (.unknownType name) s) (.ok · s) := by
  unfold typeNamed
  rw [EStateM.bind_of_ok (rfl : (get : SessionM Session) s = .ok s s)]
  cases s.schema.typeByName? name <;> rfl

theorem typeWithId_eq (id : TypeId) (s : Session) :
    typeWithId id s = (s.schema.typeById? id).elim (.error (.unknownType (toString id.toNat)) s) (.ok · s) := by
  unfold typeWithId
  rw [EStateM.bind_of_ok (rfl : (get : SessionM Session) s = .ok s s)]
  cases s.schema.typeById? id <;> rfl

/-- A lookup leaves the session as it is. -/
theorem lookup_spec {x : SessionM α} {o : Option α} {e : Error} (h : x s = o.elim (.error e s) (.ok · s)) :
    after x s = s ∧ ∀ a, x s = .ok a s → o = some a := by
  cases o with
  | none => exact ⟨after_of_error h, fun a ha => by rw [h] at ha; cases ha⟩
  | some b => exact ⟨after_of_ok h, fun a ha => by rw [h] at ha; cases ha; rfl⟩

/-- A lookup that succeeds has found something. -/
theorem lookup_eq_ok {x : SessionM α} {o : Option α} {e : Error} {a : α} (h : x s = o.elim (.error e s) (.ok · s)) :
    x s = .ok a s' ↔ o = some a ∧ s = s' := by
  rw [h]
  cases o with
  | none => exact ⟨nofun, fun ⟨ho, _⟩ => nomatch ho⟩
  | some b => exact ⟨fun h => by cases h; exact ⟨rfl, rfl⟩, fun ⟨ho, hs⟩ => by cases ho; cases hs; rfl⟩

theorem typeNamed_eq_ok {name : String} {t : TypeLayout} :
    typeNamed name s = .ok t s' ↔ s.schema.typeByName? name = some t ∧ s = s' := lookup_eq_ok (typeNamed_eq name s)

theorem typeWithId_eq_ok {id : TypeId} {t : TypeLayout} :
    typeWithId id s = .ok t s' ↔ s.schema.typeById? id = some t ∧ s = s' := lookup_eq_ok (typeWithId_eq id s)

/-! ### Running a call -/

theorem attempt_eq_ok {call : Context → EncodeM α} {a : α} {hs : List Placeholder} :
    s.attempt call = .ok ((a, hs), s') ↔
      ∃ enc, call s.context ⟨s.encoder, []⟩ = .ok a ⟨enc, hs⟩ ∧ s' = { s with encoder := enc } := by
  unfold attempt
  cases h : call s.context ⟨s.encoder, []⟩ with
  | error e d => exact ⟨nofun, fun ⟨_, h, _⟩ => nomatch h⟩
  | ok b d =>
    obtain ⟨enc, hs'⟩ := d
    constructor
    · intro h
      cases h
      exact ⟨enc, rfl, rfl⟩
    · rintro ⟨enc', h, rfl⟩
      cases h
      rfl

/-- A call that succeeds was tried with success on the open buffer or on an empty one. -/
theorem run_eq_ok {call : Context → EncodeM α} {a : α} {hs : List Placeholder} (h : run call s = .ok (a, hs) s') :
    ∃ s₀ enc, s.Opened s₀ ∧ call s₀.context ⟨s₀.encoder, []⟩ = .ok a ⟨enc, hs⟩ ∧ s' = { s₀ with encoder := enc } := by
  unfold run at h
  split at h
  · rename_i x hattempt
    cases h
    obtain ⟨enc, hcall, rfl⟩ := attempt_eq_ok.1 hattempt
    exact ⟨s, enc, .inl rfl, hcall, rfl⟩
  · split at h
    · cases h
    · rename_i hbuffer
      dsimp only at h
      split at h
      · rename_i hattempt
        cases h
        obtain ⟨enc, hcall, rfl⟩ := attempt_eq_ok.1 hattempt
        exact ⟨s.close, enc, .inr ⟨by simpa using hbuffer, rfl⟩, hcall, rfl⟩
      · cases h
  · cases h

/-- A call that fails may have closed the open buffer. -/
theorem run_eq_error {call : Context → EncodeM α} {e : Error} (h : run call s = .error e s') : s.Opened s' := by
  unfold run at h
  split at h
  · cases h
  · split at h
    · cases h
      exact .inl rfl
    · rename_i hbuffer
      dsimp only at h
      split at h
      · cases h
      · cases h
        exact .inr ⟨by simpa using hbuffer, rfl⟩
  · cases h
    exact .inl rfl

theorem run_of_ok {call : Context → EncodeM α} {a : α × List Placeholder} (h : s.attempt call = .ok (a, s')) : run call s = .ok a s' := by
  unfold run
  rw [h]

theorem run_of_error {call : Context → EncodeM α} {e : Error} (h : s.attempt call = .error e) (he : ∀ f, e = .bufferFull f → s.encoder.buffer.isEmpty = true) :
    ∃ e', run call s = .error e' s := by
  unfold run
  rw [h]
  cases e with
  | bufferFull f =>
    dsimp only
    rw [if_pos (he f rfl)]
    exact ⟨_, rfl⟩
  | _ => exact ⟨_, rfl⟩

/-- A call that finds the open buffer full is tried again on the next one. -/
theorem run_of_full {call : Context → EncodeM α} {f : BufferFull} (h : s.attempt call = .error (.bufferFull f))
    (hbuffer : s.encoder.buffer.isEmpty = false) :
    (∀ a s', s.close.attempt call = .ok (a, s') → run call s = .ok a s') ∧
      ∀ e, s.close.attempt call = .error e → ∃ e', run call s = .error e' s.close := by
  constructor
  · intro a s' hclosed
    simp [run, h, hbuffer, hclosed]
  · intro e hclosed
    simp [run, h, hbuffer, hclosed]

end

/-! ### Writing to a node -/

section

variable {type : TypeId} {target : NodeRef} {write : Context → EncodeM Unit} {c : Context} {wire : WireTarget}

theorem lift_eq {x : Except Error WireTarget} {f : WireTarget → EncodeM (Option PendingId)} (h : x = .ok wire)
    (d : Draft) : ((liftM x : EncodeM WireTarget) >>= f) d = f wire d := by
  rw [h]
  rfl

theorem writeTo_of_deferred {p : PendingId} (h : c.registry.wireTarget target = .ok (.deferred p)) (d : Draft) :
    writeTo type target write c d = .ok (some p) d := lift_eq h d

theorem writeTo_of_node (h : c.registry.wireTarget target = .ok wire) {node : NodeTarget} (hnode : wire.node? = some node)
    (d : Draft) :
    writeTo type target write c d = (do selectNode type node; write c; return none : EncodeM (Option PendingId)) d := by
  refine (lift_eq h d).trans ?_
  cases wire with
  | id n => cases hnode; rfl
  | tmp n => cases hnode; rfl
  | deferred p => cases hnode

theorem WireTarget.node?_ne_link {node : NodeTarget} (h : wire.node? = some node) : node ≠ .link := by
  cases wire <;> cases h <;> exact nofun

/-- A write goes to the node at once, or has to wait for it. -/
theorem writeTo_eq_ok {waits : Option PendingId} {d d' : Draft} (h : writeTo type target write c d = .ok waits d') :
    (∃ p, waits = some p ∧ c.registry.wireTarget target = .ok (.deferred p) ∧ d' = d) ∨
      waits = none ∧ ∃ wire node d₁, c.registry.wireTarget target = .ok wire ∧ wire.node? = some node ∧
        selectNode type node d = .ok () d₁ ∧ write c d₁ = .ok () d' := by
  cases hwire : c.registry.wireTarget target with
  | error e =>
    unfold writeTo at h
    obtain ⟨w, d₁, hl, -⟩ := EStateM.bind_eq_ok.1 h
    rw [hwire] at hl
    cases hl
  | ok wire =>
    cases hnode : wire.node? with
    | none =>
      cases wire with
      | deferred p =>
        rw [writeTo_of_deferred hwire] at h
        cases h
        exact .inl ⟨p, rfl, rfl, rfl⟩
      | _ => cases hnode
    | some node =>
      rw [writeTo_of_node hwire hnode] at h
      obtain ⟨_, d₁, hselect, hwrite⟩ := EStateM.bind_eq_ok.1 h
      obtain ⟨_, d₂, hwrite, hreturn⟩ := EStateM.bind_eq_ok.1 hwrite
      cases hreturn
      exact .inr ⟨rfl, wire, node, d₁, rfl, hnode, hselect, hwrite⟩

/-- A write that succeeds goes to the open buffer, or to an empty one; one to a node in flight waits. -/
theorem perform_eq_ok {op : QueuedOp} (h : perform type target op write s = .ok () s') :
    ∃ s₀ enc hs waits, s.Opened s₀ ∧ writeTo type target write s₀.context ⟨s₀.encoder, []⟩ = .ok waits ⟨enc, hs⟩ ∧
      s' = match waits with
        | none => { s₀ with encoder := enc, registry := hs.foldl (fun r x => r.oblige target type x) s₀.registry }
        | some q => { s₀ with encoder := enc, registry := s₀.registry.queue q op } := by
  obtain ⟨⟨waits, hs⟩, s₁, hrun, h⟩ := EStateM.bind_eq_ok.1 h
  obtain ⟨s₀, enc, hopened, hcall, rfl⟩ := run_eq_ok hrun
  refine ⟨s₀, enc, hs, waits, hopened, hcall, ?_⟩
  cases waits <;> cases h <;> rfl

/-- A write to a node is a call, if what it writes is noted. -/
theorem perform_wrote {op : QueuedOp}
    (hwrite : ∀ s₀ : Session, s.Alike s₀ → ∀ node d u d', d.encoder.cursor.node? = some (type, node) →
      write s₀.context d = .ok u d' → Appends s₀.schema (s₀.Notes target type node) d d') :
    s.Wrote (after (perform type target op write) s) := by
  unfold perform
  cases hrun : run (writeTo type target write) s with
  | error e s' =>
    rw [after_of_error (EStateM.bind_of_error hrun)]
    exact (run_eq_error hrun).wrote
  | ok a s' =>
    obtain ⟨waits, hs⟩ := a
    obtain ⟨s₀, enc, hopened, hcall, rfl⟩ := run_eq_ok hrun
    have halike : s.Alike s₀ := (Called.follows hopened.called).alike
    rw [after_bind_of_ok hrun]
    rcases writeTo_eq_ok hcall with ⟨p, rfl, -, hd⟩ | ⟨rfl, wire, node, d₁, howner, hnode, hselect, hw⟩
    · cases hd
      refine ⟨⟨s₀, hopened, .single (.queue p op)⟩, ?_⟩
      exact (Registry.length_entries_modifyEntry ..).trans hopened.wrote.length
    · obtain ⟨hselected, hactive⟩ := selectNode_appends (P := s₀.Notes target type node)
        (WireTarget.node?_ne_link hnode) hselect
      obtain ⟨js, xs, happ⟩ := hselected.trans (hwrite s₀ halike node d₁ () _ hactive hw)
      have hxs : hs = xs := happ.noted
      rw [← hxs] at happ
      refine ⟨⟨s₀, hopened, .single (.write howner hnode happ)⟩, ?_⟩
      exact (congrArg (·.entries.length) (Registry.foldl_oblige ..)).trans hopened.wrote.length

theorem after_perform_of_written {op : QueuedOp} (h : run (writeTo type target write) s = .ok (none, []) s') :
    after (perform type target op write) s = s' := by
  unfold perform
  rw [after_bind_of_ok h]
  rfl

theorem after_perform_of_queued {op : QueuedOp} {q : PendingId} (h : run (writeTo type target write) s = .ok (some q, []) s') :
    after (perform type target op write) s = { s' with registry := s'.registry.queue q op } := by
  unfold perform
  rw [after_bind_of_ok h]
  rfl

theorem after_perform_of_error {op : QueuedOp} {e : Error} (h : run (writeTo type target write) s = .error e s') :
    after (perform type target op write) s = s' := by
  unfold perform
  exact after_of_error (EStateM.bind_of_error h)

end

/-! ### The calls -/

section

variable {type : TypeId} {target : NodeRef}

/-- The fields of a record are noted as those of the node that they are written to. -/
theorem notes_of_writes {s₀ : Session} (halike : s.Alike s₀) {t : TypeLayout} (ht : s.schema.typeById? t.id = some t)
    {node : NodeTarget} {x : EncodeM Unit}
    (hx : Writes s.schema (Placeholder.Marks s₀.context (encodeEdges s₀.context) t.props t.id node) t.id node x) {d d' : Draft}
    {u : Unit} (hd : d.encoder.cursor.node? = some (t.id, node)) (h : x d = .ok u d') :
    Appends s₀.schema (s₀.Notes target t.id node) d d' := by
  rw [halike.schema]
  refine (hx d u d' hd h).1.mono fun x it hmarks => ?_
  exact notes_of_marks (c := s₀.context) rfl rfl (fun _ _ hseq => hseq) (by rw [halike.schema]; exact ht) target hmarks

/-- An update is a write of the fields of its record. -/
theorem updateNode_eq_ok {record : Record} : updateNode type target record s = .ok () s' ↔
    ∃ t fields, s.schema.typeById? type = some t ∧ collectFields t s.lenient false record = .ok fields ∧
      perform type target (.update record) (fun c => writeUpdate c t fields) s = .ok () s' := by
  unfold updateNode
  rw [EStateM.bind_eq_ok]
  constructor
  · rintro ⟨t, s₁, ht, h⟩
    obtain ⟨htype, rfl⟩ := typeWithId_eq_ok.1 ht
    obtain ⟨_, _, hget, h⟩ := EStateM.bind_eq_ok.1 h
    cases hget
    obtain ⟨fields, s₂, hfields, h⟩ := EStateM.bind_eq_ok.1 h
    obtain ⟨hcollect, rfl⟩ := ofExcept_eq_ok.1 hfields
    exact ⟨t, fields, htype, hcollect, h⟩
  · rintro ⟨t, fields, htype, hcollect, h⟩
    refine ⟨t, s, typeWithId_eq_ok.2 ⟨htype, rfl⟩, EStateM.bind_eq_ok.2 ⟨s, s, rfl, ?_⟩⟩
    exact EStateM.bind_eq_ok.2 ⟨fields, s, ofExcept_eq_ok.2 ⟨hcollect, rfl⟩, h⟩

/-- The type of an update is found by its name first. -/
theorem update_eq_ok_iff {name : String} {record : Record} : update name target record s = .ok () s' ↔
    ∃ t, s.schema.typeByName? name = some t ∧ updateNode t.id target record s = .ok () s' := by
  unfold update
  rw [EStateM.bind_eq_ok]
  constructor
  · rintro ⟨t, s₁, ht, h⟩
    obtain ⟨hname, rfl⟩ := typeNamed_eq_ok.1 ht
    exact ⟨t, hname, h⟩
  · rintro ⟨t, hname, h⟩
    exact ⟨t, s, typeNamed_eq_ok.2 ⟨hname, rfl⟩, h⟩

theorem updateNode_wrote (hs : s.Compiled) (record : Record) : s.Wrote (after (updateNode type target record) s) := by
  obtain ⟨hlook, hfound⟩ := lookup_spec (typeWithId_eq type s)
  refine after_bind_of_look hlook (.refl s) fun t ht => ?_
  refine after_bind_of_look (x := get) rfl (.refl s) fun _ hget => ?_
  refine after_bind_of_look (ofExcept_look _ s) (.refl s) fun fields hfields => ?_
  have hvalid := collectFields_valid (ofExcept_eq_ok.1 hfields).1
  obtain ⟨hmem, rfl⟩ := hs.placed.found type t (hfound t ht)
  refine perform_wrote fun s₀ halike node d u d' hd h => ?_
  refine notes_of_writes halike (hfound t ht) ?_ hd h
  exact writeUpdateWith_writes (hfound t ht) (hs.placed.types t hmem) (hs.packed t hmem) hvalid

theorem deleteNode_wrote (s : Session) : s.Wrote (after (deleteNode type target) s) :=
  perform_wrote fun _ _ _ _ _ _ _ h => writeDelete_appends h

theorem countNode_wrote (hs : s.Compiled) (field : String) (amount : Value) (decrement : Bool) :
    s.Wrote (after (countNode type target field amount decrement) s) := by
  obtain ⟨hlook, hfound⟩ := lookup_spec (typeWithId_eq type s)
  refine after_bind_of_look hlook (.refl s) fun t ht => ?_
  split
  · exact .refl s
  · rename_i p hp
    split
    · exact .refl s
    · have htype := hfound t ht
      obtain ⟨hmem, -⟩ := hs.placed.found type t htype
      obtain ⟨hp, -⟩ := Layout.mem_of_prop? hp
      refine perform_wrote fun s₀ halike node d u d' hd h => ?_
      rw [← halike.schema] at htype
      exact (writeCount_writes (s₀.Notes target type node) htype ((hs.placed.types t hmem).measured p hp) hp amount decrement
        d u d' hd h).1

theorem create_called (hs : s.Compiled) (type : String) (record : Record) :
    s.Called (after (create type record) s) := by
  obtain ⟨hlook, hfound⟩ := lookup_spec (typeNamed_eq type s)
  refine after_bind_of_look hlook (.refl s) fun t ht => ?_
  refine after_bind_of_look (x := get) rfl (.refl s) fun _ hget => ?_
  refine after_bind_of_look (ofExcept_look _ s) (.refl s) fun fields hfields => ?_
  have hvalid := collectFields_valid (ofExcept_eq_ok.1 hfields).1
  have hmem : t ∈ s.schema.types := List.mem_of_find?_eq_some (hfound t ht)
  have ht : s.schema.typeById? t.id = some t := hs.placed.ids t hmem
  have hplaced := hs.placed.types t hmem
  have hpacked := hs.packed t hmem
  cases hrun : run (fun c => do createNode t.id c.registry.nextTmp; writeCreate c t fields) s with
  | error e s' =>
    rw [after_of_error (EStateM.bind_of_error hrun)]
    exact (run_eq_error hrun).called
  | ok a s' =>
    obtain ⟨⟨⟩, hs⟩ := a
    obtain ⟨s₀, enc, hopened, hcall, rfl⟩ := run_eq_ok hrun
    have halike : s.Alike s₀ := (Called.follows hopened.called).alike
    refine ⟨s₀, hopened, ?_⟩
    rw [after_bind_of_ok hrun]
    obtain ⟨_, d₁, hcreate, hwrite⟩ := EStateM.bind_eq_ok.1 hcall
    let s₁ : Session := { s₀ with registry := (s₀.registry.register t.id).2 }
    have ht₁ : s₁.schema.typeById? t.id = some t := halike.schema ▸ ht
    obtain ⟨hcreated, hactive⟩ : Appends s₁.schema
        (s₁.Notes (.pending (s₀.registry.register t.id).1) t.id (.tmp s₀.registry.nextTmp)) _ d₁ ∧ _ := createNode_appends hcreate
    have hwritten := writeCreateWith_writes ht₁ hplaced hpacked hvalid d₁ () _ hactive hwrite
    have hnoted : Appends s₁.schema (s₁.Notes (.pending (s₀.registry.register t.id).1) t.id (.tmp s₀.registry.nextTmp)) d₁
        ⟨enc, hs⟩ := by
      refine hwritten.1.mono fun x it hmarks => ?_
      exact notes_of_marks (s := s₁) (c := s₀.context) rfl rfl (fun _ _ hseq => Registry.status_register hseq)
        ht₁ _ hmarks
    obtain ⟨js, xs, happ⟩ := hcreated.trans hnoted
    have hxs : hs = xs := happ.noted
    rw [← hxs] at happ
    have howner := Registry.wireTarget_register_self s₀.registry t.id
    exact .head (.register t.id) (.single (.write (s := s₁) howner rfl happ))

/-- A write that waited is a call like any other. -/
theorem replay_wrote (hs : s.Compiled) (id : NodeId) (op : QueuedOp) : s.Wrote (after (replay type id op) s) := by
  cases op with
  | update record => exact updateNode_wrote hs record
  | delete => exact deleteNode_wrote s
  | increment field amount decrement => exact countNode_wrote hs field amount decrement

end

end Session

end NodeStore.Write
