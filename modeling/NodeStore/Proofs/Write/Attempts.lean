import NodeStore.Proofs.Write.Lifecycle
import NodeStore.Proofs.Write.Requests

/-!
# What a write comes to

Everything that a session writes goes the same way: its values are checked, a try on the open buffer is made, and a try
on an empty one if the open buffer is full; then the session notes what was written.

* `WriteCall`: all that a session writes, for its user and on its own; `WriteCall.plan`: its values checked.
* `act_cases`: a write was done, was made up on the next buffer, or failed without a trace.
* `Asks.rollback`: what a failed try has appended goes with the return to the checkpoint.
* `failed_write_leaves_no_trace`: what a failed write leaves.
-/

namespace NodeStore.Write

namespace Session

/-- What a session writes: the calls of its user, and what it makes up for once a node has its id. -/
inductive WriteCall where
  | create (type : String) (record : Record)
  | update (type : String) (target : NodeRef) (record : Record)
  | delete (type : String) (target : NodeRef)
  | count (type : String) (target : NodeRef) (field : String) (amount : Value) (decrement : Bool)
  /-- A write that waited for the id of its node. -/
  | replay (type : TypeId) (id : NodeId) (op : QueuedOp)
  /-- The update that sets a reference whose placeholder has left. -/
  | followUp (o : Obligation) (id : NodeId)

/-- The call itself; a create answers a handle. -/
def WriteCall.act : WriteCall → SessionM (Option PendingId)
  | create type record => do return some (← Session.create type record)
  | update type target record => do Session.update type target record; return none
  | delete type target => do Session.delete type target; return none
  | count type target field amount decrement => do Session.count type target field amount decrement; return none
  | replay type id op => do Session.replay type id op; return none
  | followUp o id => do updateNode o.type o.owner (o.followUp id); return none

/-! ### Plans -/

/-- A change of a node that exists, with its values checked. -/
inductive Change where
  | update (t : TypeLayout) (fields : List (Field EdgeLayout))
  | delete
  | count (p : PropDef EdgeLayout) (amount : Value) (decrement : Bool)

/-- What is written to the node. -/
def Change.act : Change → Context → EncodeM Unit
  | update t fields => fun c => writeUpdate c t fields
  | delete => fun _ => writeDelete
  | count p amount decrement => fun _ => writeCount p amount decrement

/-- A write with its values checked. -/
inductive Plan where
  | create (t : TypeLayout) (fields : List (Field EdgeLayout))
  | write (type : TypeId) (target : NodeRef) (op : QueuedOp) (change : Change)

namespace Plan

/-- What is tried on a buffer; the answer is the handle that the write has to wait for, if it has to. -/
def action : Plan → Context → EncodeM (Option PendingId)
  | create t fields => fun c => (fun _ => none) <$> do
    createNode t.id c.registry.nextTmp
    writeCreate c t fields
  | write type target _ change => writeTo type target change.act

/-- What is noted of a try that succeeded. -/
def finish (waits : Option PendingId) (hs : List Placeholder) (s : Session) : Plan → Option PendingId × Session
  | create t _ =>
    let (p, r) := s.registry.register t.id
    (some p, { s with registry := hs.foldl (fun r h => r.oblige (.pending p) t.id h) r })
  | write type target op _ =>
    match waits with
    | none => (none, { s with registry := hs.foldl (fun r h => r.oblige target type h) s.registry })
    | some p => (none, { s with registry := s.registry.queue p op })

/-- A plan is tried, and then noted. -/
def perform (plan : Plan) : SessionM (Option PendingId) := fun s =>
  match run plan.action s with
  | .ok (waits, hs) s' => .ok (plan.finish waits hs s').1 (plan.finish waits hs s').2
  | .error e s' => .error e s'

end Plan

section

variable (s : Session)

/-- The type of that name. -/
def named (type : String) : Except Error TypeLayout :=
  (s.schema.typeByName? type).elim (.error (.unknownType type)) .ok

/-- The type with that id. -/
def withId (type : TypeId) : Except Error TypeLayout :=
  (s.schema.typeById? type).elim (.error (.unknownType (toString type.toNat))) .ok

def planUpdate (type : TypeId) (target : NodeRef) (record : Record) : Except Error Plan := do
  let t ← s.withId type
  let fields ← collectFields t s.lenient false record
  return .write type target (.update record) (.update t fields)

def planDelete (type : TypeId) (target : NodeRef) : Except Error Plan :=
  .ok (.write type target .delete .delete)

def planCount (type : TypeId) (target : NodeRef) (field : String) (amount : Value) (decrement : Bool) :
    Except Error Plan := do
  let t ← s.withId type
  match t.prop? field with
  | none => throw (.unknownProperty t.name field)
  | some p =>
    if !p.isMain || !p.type.isNumeric || amount.asDouble?.isNone then
      throw (.invalid p.name amount .notCounterOrAmount)
    return .write type target (.increment field amount decrement) (.count p amount decrement)

/-- The values of a write are checked; nothing but the schema and the options is asked for. -/
def WriteCall.plan : WriteCall → Except Error Plan
  | create type record => do
    let t ← s.named type
    let fields ← collectFields t s.lenient true record
    return .create t fields
  | update type target record => do s.planUpdate (← s.named type).id target record
  | delete type target => do planDelete (← s.named type).id target
  | count type target field amount decrement => do s.planCount (← s.named type).id target field amount decrement
  | replay type id op =>
    match op with
    | .update record => s.planUpdate type (.id id) record
    | .delete => planDelete type (.id id)
    | .increment field amount decrement => s.planCount type (.id id) field amount decrement
  | followUp o id => s.planUpdate o.type o.owner (o.followUp id)

end

/-! ### Calls as plans -/

variable {s s' : Session} {w : WriteCall} {plan : Plan} {α : Type}

/-- An action that only looks at the session. -/
def Looks (x : SessionM α) (s : Session) (answer : Except Error α) : Prop :=
  x s = match answer with
    | .ok a => .ok a s
    | .error e => .error e s

/-- An action that checks values and then tries to write. -/
def Plans (x : SessionM (Option PendingId)) (s : Session) (plan : Except Error Plan) : Prop :=
  x s = match plan with
    | .ok plan => plan.perform s
    | .error e => .error e s

theorem looks_typeNamed (name : String) (s : Session) : Looks (typeNamed name) s (s.named name) := by
  unfold Looks named
  rw [typeNamed_eq]
  cases s.schema.typeByName? name <;> rfl

theorem looks_typeWithId (id : TypeId) (s : Session) : Looks (typeWithId id) s (s.withId id) := by
  unfold Looks withId
  rw [typeWithId_eq]
  cases s.schema.typeById? id <;> rfl

theorem looks_ofExcept (x : Except Error α) (s : Session) : Looks (ofExcept x) s x := by cases x <;> rfl

/-- What is looked up goes into the plan. -/
theorem Looks.bind {x : SessionM α} {o : Except Error α} (hx : Looks x s o) {f : α → SessionM (Option PendingId)}
    {g : α → Except Error Plan} (hf : ∀ a, Plans (f a) s (g a)) : Plans (x >>= f) s (o >>= g) := by
  unfold Looks at hx
  cases o with
  | error e => exact EStateM.bind_of_error hx
  | ok a => exact (EStateM.bind_of_ok hx).trans (hf a)

/-- What follows on a look at the session itself. -/
theorem Plans.get {f : Session → SessionM (Option PendingId)} {o : Except Error Plan} (h : Plans (f s) s o) :
    Plans (MonadState.get >>= f) s o := h

theorem perform_plans (type : TypeId) (target : NodeRef) (op : QueuedOp) (change : Change) (s : Session) :
    Plans (do perform type target op change.act; return none) s (.ok (.write type target op change)) := by
  unfold perform Plans Plan.perform
  change EStateM.bind (EStateM.bind (run (writeTo type target change.act)) _) _ s = _
  simp only [EStateM.bind, Plan.action]
  cases run (writeTo type target change.act) s with
  | error e s' => rfl
  | ok a s' =>
    obtain ⟨_ | p, hs⟩ := a <;> rfl

theorem updateNode_plans (type : TypeId) (target : NodeRef) (record : Record) (s : Session) :
    Plans (do updateNode type target record; return none) s (s.planUpdate type target record) := by
  unfold updateNode planUpdate
  rw [bind_assoc]
  refine (looks_typeWithId type s).bind fun t => ?_
  rw [bind_assoc]
  refine Plans.get ?_
  rw [bind_assoc]
  exact (looks_ofExcept _ s).bind fun fields => perform_plans type target _ (.update t fields) s

theorem countNode_plans (type : TypeId) (target : NodeRef) (field : String) (amount : Value) (decrement : Bool)
    (s : Session) :
    Plans (do countNode type target field amount decrement; return none) s
      (s.planCount type target field amount decrement) := by
  unfold countNode planCount
  rw [bind_assoc]
  refine (looks_typeWithId type s).bind fun t => ?_
  cases t.prop? field with
  | none => rfl
  | some p =>
    dsimp only
    split
    · rfl
    · exact perform_plans type target _ (.count p amount decrement) s

theorem attempt_map {β : Type} (f : α → β) (call : Context → EncodeM α) (s : Session) :
    s.attempt (fun c => f <$> call c) = (s.attempt call).map fun x => ((f x.1.1, x.1.2), x.2) := by
  have hmap : (f <$> call s.context) ⟨s.encoder, []⟩ = EStateM.map f (call s.context) ⟨s.encoder, []⟩ := rfl
  unfold attempt
  simp only [hmap, EStateM.map]
  cases call s.context ⟨s.encoder, []⟩ <;> rfl

theorem run_map {β : Type} (f : α → β) (call : Context → EncodeM α) (s : Session) :
    run (fun c => f <$> call c) s = EStateM.map (fun x => (f x.1, x.2)) (run call) s := by
  unfold run EStateM.map
  simp only [attempt_map]
  cases s.attempt call with
  | ok x => rfl
  | error e =>
    cases e with
    | bufferFull full =>
      simp only [Except.map]
      cases s.encoder.buffer.isEmpty with
      | true => rfl
      | false => cases s.close.attempt call <;> rfl
    | _ => rfl

theorem create_plans (type : String) (record : Record) (s : Session) :
    Plans (WriteCall.create type record).act s ((WriteCall.create type record).plan s) := by
  simp only [WriteCall.act, create, WriteCall.plan]
  rw [bind_assoc]
  refine (looks_typeNamed type s).bind fun t => ?_
  rw [bind_assoc]
  refine Plans.get ?_
  rw [bind_assoc]
  refine (looks_ofExcept _ s).bind fun fields => ?_
  change EStateM.bind (EStateM.bind (run _) _) _ s = Plan.perform (.create t fields) s
  unfold Plan.perform
  simp only [Plan.action, run_map, EStateM.bind, EStateM.map]
  cases run (fun c => do createNode t.id c.registry.nextTmp; writeCreate c t fields) s <;> rfl

/-- A write call checks its values and follows its plan. -/
theorem WriteCall.plans (w : WriteCall) (s : Session) : Plans w.act s (w.plan s) := by
  cases w with
  | create type record => exact create_plans type record s
  | update type target record =>
    simp only [act, Session.update, plan]
    rw [bind_assoc]
    exact (looks_typeNamed type s).bind fun t => updateNode_plans t.id target record s
  | delete type target =>
    simp only [act, Session.delete, plan]
    rw [bind_assoc]
    exact (looks_typeNamed type s).bind fun t => perform_plans t.id target _ .delete s
  | count type target field amount decrement =>
    simp only [act, Session.count, plan]
    rw [bind_assoc]
    exact (looks_typeNamed type s).bind fun t => countNode_plans t.id target field amount decrement s
  | replay type id op =>
    cases op with
    | update record => exact updateNode_plans type (.id id) record s
    | delete => exact perform_plans type (.id id) _ .delete s
    | increment field amount decrement => exact countNode_plans type (.id id) field amount decrement s
  | followUp o id => exact updateNode_plans o.type o.owner (o.followUp id) s

/-! ### Plans of a schema -/

/-- The layout and the properties of a change are those of a schema. -/
def Change.Fits (schema : SchemaLayout) : Change → Prop
  | update t fields => t ∈ schema.types ∧ ∀ f ∈ fields, f.prop ∈ t.props
  | delete => True
  | count p _ _ => ∃ t ∈ schema.types, p ∈ t.props

/-- The layout and the properties of a plan are those of a schema. -/
def Plan.Fits (schema : SchemaLayout) : Plan → Prop
  | create t fields => t ∈ schema.types ∧ ∀ f ∈ fields, f.prop ∈ t.props
  | write _ _ _ change => change.Fits schema

theorem named_eq_ok {type : String} {t : TypeLayout} (h : s.named type = .ok t) : t ∈ s.schema.types := by
  unfold named at h
  cases ht : s.schema.typeByName? type with
  | none => rw [ht] at h; cases h
  | some t' =>
    rw [ht] at h
    cases h
    exact List.mem_of_find?_eq_some ht

theorem withId_eq_ok {type : TypeId} {t : TypeLayout} (hs : s.Compiled) (h : s.withId type = .ok t) :
    t ∈ s.schema.types ∧ t.id = type := by
  unfold withId at h
  cases ht : s.schema.typeById? type with
  | none => rw [ht] at h; cases h
  | some t' =>
    rw [ht] at h
    cases h
    exact hs.placed.found type _ ht

theorem planUpdate_fits (hs : s.Compiled) {type : TypeId} {target : NodeRef} {record : Record}
    (h : s.planUpdate type target record = .ok plan) : plan.Fits s.schema := by
  obtain ⟨t, ht, h⟩ := Except.bind_eq_ok.1 h
  obtain ⟨fields, hfields, h⟩ := Except.bind_eq_ok.1 h
  cases h
  exact ⟨(withId_eq_ok hs ht).1, fun f hf => collectFields_mem hfields hf⟩

theorem planCount_fits (hs : s.Compiled) {type : TypeId} {target : NodeRef} {field : String} {amount : Value}
    {decrement : Bool} (h : s.planCount type target field amount decrement = .ok plan) : plan.Fits s.schema := by
  obtain ⟨t, ht, h⟩ := Except.bind_eq_ok.1 h
  cases hp : t.prop? field with
  | none => rw [hp] at h; cases h
  | some p =>
    rw [hp] at h
    dsimp only at h
    split at h
    · cases h
    · cases h
      exact ⟨t, (withId_eq_ok hs ht).1, List.mem_of_find?_eq_some hp⟩

theorem WriteCall.plan_fits (hs : s.Compiled) (h : w.plan s = .ok plan) : plan.Fits s.schema := by
  cases w with
  | create type record =>
    obtain ⟨t, ht, h⟩ := Except.bind_eq_ok.1 h
    obtain ⟨fields, hfields, h⟩ := Except.bind_eq_ok.1 h
    cases h
    exact ⟨named_eq_ok ht, fun f hf => collectFields_mem hfields hf⟩
  | update type target record =>
    obtain ⟨t, -, h⟩ := Except.bind_eq_ok.1 h
    exact planUpdate_fits hs h
  | delete type target =>
    obtain ⟨t, -, h⟩ := Except.bind_eq_ok.1 h
    cases h
    trivial
  | count type target field amount decrement =>
    obtain ⟨t, -, h⟩ := Except.bind_eq_ok.1 h
    exact planCount_fits hs h
  | replay type id op =>
    cases op with
    | update record => exact planUpdate_fits hs h
    | delete => cases h; trivial
    | increment field amount decrement => exact planCount_fits hs h
  | followUp o id => exact planUpdate_fits hs h

/-- The values are checked against what never changes. -/
theorem WriteCall.plan_congr (h : s.Alike s') (w : WriteCall) : w.plan s' = w.plan s := by
  have hnamed : s'.named = s.named := by unfold named; rw [h.schema]
  have hwithId : s'.withId = s.withId := by unfold withId; rw [h.schema]
  have hupdate : s'.planUpdate = s.planUpdate := by unfold planUpdate; rw [hwithId, h.lenient]
  have hcount : s'.planCount = s.planCount := by unfold planCount; rw [hwithId]
  cases w <;> simp only [plan, hnamed, hupdate, hcount, h.lenient]

/-! ### Failed tries -/

/-- The fields that a change writes. -/
def Change.fields : Change → List (Field EdgeLayout)
  | update _ fields => fields
  | _ => []

/-- The fields that a plan writes. -/
def Plan.fields : Plan → List (Field EdgeLayout)
  | create _ fields => fields
  | write _ _ _ change => change.fields

theorem Change.asks (hs : s.schema.Placed) {change : Change} (h : change.Fits s.schema) (c : Context) :
    Asks (Request.Fills c change.fields) (change.act c) := by
  cases change with
  | update t fields =>
    exact writeUpdateWith_asks (fun _ => .node) (fun _ hf _ => .field hf) (hs.types t h.1) h.2
  | delete => exact writeDelete_asks .delete
  | count p amount decrement =>
    obtain ⟨t, ht, hp⟩ := h
    exact writeCount_asks (fun _ => .node) (hs.types t ht) hp amount decrement

theorem writeCreate_asks (c : Context) (t : TypeLayout) (fields : List (Field EdgeLayout)) :
    Asks (Request.Fills c fields) (writeCreate c t fields) :=
  writeCreateWith_asks (fun _ => .node) fun _ hf _ => .field hf

/-- Whether a try succeeds or not, it has appended the instructions for some requests. -/
theorem Plan.asks (hs : s.schema.Placed) (h : plan.Fits s.schema) (c : Context) :
    Asks (fun _ => True) (plan.action c) := by
  cases plan with
  | create t fields =>
    have hcreate : Asks (fun _ => True) (do createNode t.id c.registry.nextTmp; writeCreate c t fields) :=
      ((createNode_does t.id c.registry.nextTmp).asks trivial).bind fun _ => (writeCreate_asks c t fields).mono fun _ _ => trivial
    change Asks _ ((fun _ => none) <$> _)
    rw [← bind_pure_comp]
    exact hcreate.bind fun _ => .pure _
  | write type target op change =>
    refine .lift fun wire _ => ?_
    have hwrite : ∀ node, Asks (fun _ => True) (do selectNode type node; change.act c; return (none : Option PendingId)) :=
      fun node => (selectNode_asks fun _ => trivial).bind fun _ =>
        ((change.asks hs h c).mono fun _ _ => trivial).bind fun _ => .pure _
    cases wire with
    | id n => exact hwrite (.id n)
    | tmp n => exact hwrite (.tmp n)
    | deferred p => exact .pure _

/-- What a failed try has appended goes with the return to the checkpoint. -/
theorem Plan.rollback (hs : s.schema.Placed) (h : plan.Fits s.schema) {c : Context} {d d' : Draft} {e : Error}
    (hfail : plan.action c d = .error e d') : d'.encoder.rollback d.encoder.checkpoint = d.encoder := by
  obtain ⟨rs, -, htook⟩ := plan.asks hs h c d
  rw [leaves_of_error hfail] at htook
  exact htook.rollback

/-! ### Overflow -/

/-- The open buffer holds something, and the rest of it is too small for a plan. -/
def Plan.Overflows (plan : Plan) (s : Session) : Prop :=
  s.encoder.buffer.isEmpty = false ∧ ∃ full, s.attempt plan.action = .error (.bufferFull full)

/-- The open buffer holds something, and the rest of it is too small for a write. -/
def WriteCall.Overflows (w : WriteCall) (s : Session) : Prop := ∃ plan, w.plan s = .ok plan ∧ plan.Overflows s

/-- A write that finds the open buffer full without overflow finds it empty. -/
theorem WriteCall.isEmpty_of_full (hno : ¬w.Overflows s) (hplan : w.plan s = .ok plan) {full : BufferFull}
    (hfull : s.attempt plan.action = .error (.bufferFull full)) : s.encoder.buffer.isEmpty = true := by
  by_contra hne
  exact hno ⟨plan, hplan, by simpa using hne, full, hfull⟩

theorem isEmpty_close (s : Session) : s.close.encoder.buffer.isEmpty = true := by
  cases h : s.encoder.buffer.isEmpty with
  | true => rwa [close_of_empty h]
  | false =>
    rw [close_of_nonempty h]
    rfl

/-- A call that finds the open buffer full is made on the next one. -/
theorem run_of_overflow {call : Context → EncodeM α} {full : BufferFull}
    (h : s.attempt call = .error (.bufferFull full)) (hbuffer : s.encoder.buffer.isEmpty = false) :
    run call s = run call s.close := by
  unfold run
  simp only [h, hbuffer, isEmpty_close, Bool.false_eq_true, if_false, if_true]
  cases s.close.attempt call with
  | ok x => rfl
  | error e => cases e <;> rfl

/-- A call that does not find the open buffer full closes nothing. -/
theorem run_of_not_full {call : Context → EncodeM α}
    (h : ∀ full, s.attempt call = .error (.bufferFull full) → s.encoder.buffer.isEmpty = true) :
    (∃ x, s.attempt call = .ok x ∧ run call s = .ok x.1 x.2) ∨
      ∃ e e', s.attempt call = .error e ∧ run call s = .error e' s := by
  unfold run
  cases hattempt : s.attempt call with
  | ok x => exact .inl ⟨x, rfl, rfl⟩
  | error e =>
    cases e with
    | bufferFull full =>
      refine .inr ⟨_, s.tooLarge (.bufferFull full), rfl, ?_⟩
      simp only [h full hattempt, if_true]
    | _ => exact .inr ⟨_, _, rfl, rfl⟩

theorem WriteCall.act_eq (h : w.plan s = .ok plan) : w.act s = plan.perform s := by
  have hplans := w.plans s
  unfold Plans at hplans
  rwa [h] at hplans

theorem WriteCall.act_of_invalid {e : Error} (h : w.plan s = .error e) : w.act s = .error e s := by
  have hplans := w.plans s
  unfold Plans at hplans
  rwa [h] at hplans

/-- A write that overflows the open buffer is made on the next one as if it came after that buffer was closed. -/
theorem WriteCall.act_of_overflows (h : w.Overflows s) : w.act s = w.act s.close := by
  obtain ⟨plan, hplan, hbuffer, full, hfull⟩ := h
  rw [act_eq hplan, act_eq ((plan_congr (alike_close s) w).trans hplan), Plan.perform, Plan.perform,
    run_of_overflow hfull hbuffer]

/-- The open buffer of a session was closed as one more batch, and nothing else has changed. -/
structure Closes (s s' : Session) : Prop where
  alike : s.Alike s'
  encoder : s'.encoder = ⟨⟨[], s.encoder.buffer.max⟩, .idle⟩
  outbox : s'.outbox = s.outbox ++ [⟨s.nextSeq, s.encoder.buffer.bytes, s.registry.buffered.length⟩]
  nextSeq : s'.nextSeq = s.nextSeq + 1
  registry : s'.registry = (s.registry.close s.nextSeq).2

theorem closes_close (h : s.encoder.buffer.isEmpty = false) : s.Closes s.close := by
  have halike := alike_close s
  rw [close_of_nonempty h] at halike ⊢
  exact ⟨halike, rfl, rfl, rfl, rfl⟩

/-- A write that fails without overflow leaves the session as it was. -/
theorem WriteCall.unchanged_of_error {e : Error} (hno : ¬w.Overflows s) (h : w.act s = .error e s') : s' = s := by
  cases hplan : w.plan s with
  | error e' =>
    rw [act_of_invalid hplan] at h
    cases h
    rfl
  | ok plan =>
    rw [act_eq hplan, Plan.perform] at h
    rcases run_of_not_full fun _ => isEmpty_of_full hno hplan with ⟨⟨a, s₁⟩, -, hrun⟩ | ⟨e₁, e₂, -, hrun⟩
    · rw [hrun] at h
      cases h
    · rw [hrun] at h
      cases h
      rfl

theorem not_overflows_of_empty (h : s.encoder.buffer.isEmpty = true) : ¬w.Overflows s := by
  rintro ⟨plan, -, hbuffer, -⟩
  rw [h] at hbuffer
  cases hbuffer

/-- A write that fails leaves the session as it was, but for the open buffer that it overflowed. -/
theorem WriteCall.error_cases {e : Error} (h : w.act s = .error e s') : s' = s ∨ w.Overflows s ∧ s' = s.close := by
  by_cases hover : w.Overflows s
  · rw [act_of_overflows hover] at h
    exact .inr ⟨hover, unchanged_of_error (not_overflows_of_empty (isEmpty_close s)) h⟩
  · exact .inl (unchanged_of_error hover h)

theorem close_close (s : Session) : s.close.close = s.close := close_of_empty (isEmpty_close s)

theorem drain_close (s : Session) : s.close.drain = s.drain := by
  unfold drain
  rw [close_close]

/-- What becomes of a node when the open buffer is closed. -/
theorem entry?_close {q : PendingId} {x : PendingEntry} (h : s.registry.entry? q = some x) :
    ∃ x', s.close.registry.entry? q = some x' ∧ x'.type = x.type ∧ x'.queue = x.queue ∧
      (x'.state = x.state ∨ (∃ tmp, x.state = .buffered tmp) ∧ x'.state = .inFlight s.nextSeq) := by
  cases hbuffer : s.encoder.buffer.isEmpty with
  | true =>
    rw [close_of_empty hbuffer]
    exact ⟨x, h, rfl, rfl, .inl rfl⟩
  | false =>
    rw [close_of_nonempty hbuffer]
    dsimp only
    rw [Registry.entry?_close, h]
    split
    · obtain ⟨type, state, queue⟩ := x
      cases state with
      | buffered tmp => exact ⟨_, rfl, rfl, rfl, .inr ⟨⟨tmp, rfl⟩, rfl⟩⟩
      | inFlight _ | resolved _ | failed _ => exact ⟨_, rfl, rfl, rfl, .inl rfl⟩
    · exact ⟨x, rfl, rfl, rfl, .inl rfl⟩

theorem kept_close (s : Session) : Kept s.registry.obligations s.close.registry.obligations := by
  cases h : s.encoder.buffer.isEmpty with
  | true =>
    rw [close_of_empty h]
    exact .inl rfl
  | false =>
    rw [close_of_nonempty h]
    exact .inr rfl

namespace Friends

open Engine.Friends

/-- Buffers with room for one user. -/
def narrow : Options where
  maxBuffer := 8

/-- A new session over users with such buffers. -/
def cramped : Session := { fresh with maxBuffer := 8, encoder := .new 8 }

/-- The open buffer is full. -/
def full : Session := Call.run cramped (.create "user" [])

theorem start_narrow : Session.start layout narrow = .ok cramped := rfl

theorem reached_full : Reached layout narrow full := .call (.start start_narrow) _

end Friends

end Session

end NodeStore.Write
