import NodeStore.Proofs.Write.KnownLinks

/-!
# Lenient sessions

A lenient session skips names that are unknown. Its creates and updates do what a session that is not lenient does with the
record without these names, as long as no link is left with unknown names only.

* `SameCall`: how two calls come out; `Session.SameOutput`: the same bytes are in the open buffer and in the batches.
* `run_agrees`, `perform_agrees`: attempts that agree make calls that do the same.
* `TypeLayout.KeepsLinks`: no link is left with unknown names only.
* `lenient_skips_unknown`: what lenient sessions do.
-/

namespace NodeStore

/-- No link that a record sets is given unknown names only. -/
def TypeLayout.KeepsLinks (t : TypeLayout) (record : Record) : Prop :=
  ∀ p ∈ t.props, ∀ v ∈ Record.writesAt p.path record, ∀ item ∈ v.refItems, p.KeepsSome item.2

namespace Write

namespace Session

/-- The session, lenient or not. -/
def inMode (s : Session) (lenient : Bool) : Session := { s with lenient }

/-- The same bytes are in the open buffer and in the closed batches, and the same batches come next. -/
structure SameOutput (s s' : Session) : Prop where
  encoder : s'.encoder = s.encoder
  outbox : s'.outbox = s.outbox
  nextSeq : s'.nextSeq = s.nextSeq
  buffered : s'.registry.buffered = s.registry.buffered

/-- The same batches are drained. -/
theorem SameOutput.drain {s s' : Session} (h : s.SameOutput s') : s'.drain.1 = s.drain.1 := by
  unfold Session.drain Session.close
  rw [h.encoder]
  cases s.encoder.buffer.isEmpty with
  | true => exact h.outbox
  | false =>
    simp only [Bool.false_eq_true, if_false, Registry.close, h.outbox, h.nextSeq, h.buffered]

end Session

open Session

/-- Both calls succeed with answers that `V` relates, or both fail, and neither of them because of a name; `S` relates the
sessions that they leave. If `X` holds, the second one may be refused because of a name instead. -/
inductive SameCall {α : Type} (X : Prop) (V : α → α → Prop) (S : Session → Session → Prop) :
    EStateM.Result Error Session α → EStateM.Result Error Session α → Prop
  | ok {a a' : α} {s s' : Session} (ha : V a a') (hs : S s s') : SameCall X V S (.ok a s) (.ok a' s')
  | error {e e' : Error} {s s' : Session} (he : ¬e.IsUnknown) (he' : ¬e'.IsUnknown) (hs : S s s') :
      SameCall X V S (.error e s) (.error e' s')
  | refused {r : EStateM.Result Error Session α} {e' : Error} {s' : Session} (hx : X) (he' : e'.IsUnknown) :
      SameCall X V S r (.error e' s')

namespace SameCall

variable {α : Type} {X : Prop} {V : α → α → Prop} {S : Session → Session → Prop}
  {r r' : EStateM.Result Error Session α}

/-- What nobody refuses fails for another reason than a name. -/
theorem not_unknown (h : SameCall False V S r r') {e : Error} {s : Session} (hr : r = .error e s) : ¬e.IsUnknown := by
  subst hr
  cases h with
  | error he _ _ => exact he
  | refused hX _ => exact hX.elim

/-- Where the second call succeeds, the first one does. -/
theorem left_ok (h : SameCall X V S r r') {a' : α} {s' : Session} (hr : r' = .ok a' s') :
    ∃ a s, r = .ok a s ∧ V a a' ∧ S s s' := by
  subst hr
  cases h with
  | ok ha hs => exact ⟨_, _, rfl, ha, hs⟩

end SameCall

namespace Session

variable {α : Type} {X : Prop} {b : Bool} {s : Session}

/-! ### Attempts -/

theorem attempt_eq_outcome (s : Session) (call : Context → EncodeM α) : s.attempt call =
    (fun r => ((r.1, r.2.placeholders), { s with encoder := r.2.encoder })) <$>
      outcome (call s.context) ⟨s.encoder, []⟩ := by
  unfold attempt outcome
  cases call s.context ⟨s.encoder, []⟩ <;> rfl

/-- Actions that agree on the open buffer. -/
def Calls (X : Prop) (b : Bool) (call call' : Context → EncodeM α) : Prop :=
  ∀ c : Context, c.lenient = true → Concur X (call c) (call' { c with lenient := b })

/-- The same session, but for being lenient, and the same answer, but for the placeholders that are noted. -/
theorem attempt_agrees {call call' : Context → EncodeM α} (h : Calls X b call call') (hs : s.lenient = true) :
    Agree X (fun r r' => r'.1.1 = r.1.1 ∧ r'.2 = r.2.inMode b) (s.attempt call)
      ((s.inMode b).attempt call') := by
  rw [attempt_eq_outcome, attempt_eq_outcome]
  refine (h s.context hs ⟨s.encoder, []⟩ ⟨s.encoder, []⟩ rfl).map fun r r' hr => ⟨hr.1, ?_⟩
  rw [hr.2]
  rfl

theorem close_inMode (s : Session) (b : Bool) : (s.inMode b).close = s.close.inMode b := by
  unfold close inMode
  dsimp only
  split <;> rfl

/-- What a try comes to that is not made again. -/
def concluded (s : Session) : Except Error ((α × List Placeholder) × Session) →
    EStateM.Result Error Session (α × List Placeholder)
  | .ok (a, s') => .ok a s'
  | .error e => .error (s.tooLarge e) s

/-- A try is not made again on an empty buffer, nor if it does not find the buffer full. -/
theorem run_of_concluded {call : Context → EncodeM α}
    (h : s.encoder.buffer.isEmpty = true ∨ ∀ e, s.attempt call = .error e → ¬e.IsFull) :
    run call s = concluded s (s.attempt call) := by
  unfold run
  cases hattempt : s.attempt call with
  | ok x => rfl
  | error e =>
    cases e with
    | bufferFull full => exact if_pos (h.resolve_right fun hnot => hnot _ hattempt trivial)
    | _ => rfl

theorem tooLarge_known {e : Error} (h : ¬e.IsUnknown) : ¬(s.tooLarge e).IsUnknown := by
  cases e with
  | bufferFull full => exact id
  | _ => exact h

theorem tooLarge_unknown {e : Error} (h : e.IsUnknown) : (s.tooLarge e).IsUnknown := by
  cases e with
  | unknownProperty _ _ => trivial
  | _ => cases h

theorem concluded_agrees {x y : Except Error ((α × List Placeholder) × Session)}
    (h : Agree X (fun r r' => r'.1.1 = r.1.1 ∧ r'.2 = r.2.inMode b) x y) :
    SameCall X (fun a a' => a'.1 = a.1) (fun s s' => s' = s.inMode b) (concluded s x)
      (concluded (s.inMode b) y) := by
  cases h with
  | ok h => exact .ok h.1 h.2
  | error h => exact .error (tooLarge_known h.left) (tooLarge_known h.right) rfl
  | refused hX h => exact .refused hX (tooLarge_unknown h)

/-- Tries that agree on the open buffer and on an empty one. -/
theorem run_agrees {call call' : Context → EncodeM α} (h : Calls X b call call') (hs : s.lenient = true) :
    SameCall X (fun a a' => a'.1 = a.1) (fun s s' => s' = s.inMode b) (run call s)
      (run call' (s.inMode b)) := by
  have hopen := attempt_agrees h hs
  cases hbuffer : s.encoder.buffer.isEmpty with
  | true =>
    rw [run_of_concluded (.inl hbuffer), run_of_concluded (s := s.inMode b) (.inl hbuffer)]
    exact concluded_agrees hopen
  | false =>
    by_cases hfull : ∃ full full', s.attempt call = .error (.bufferFull full) ∧
        (s.inMode b).attempt call' = .error (.bufferFull full')
    · obtain ⟨full, full', hx, hy⟩ := hfull
      rw [run_of_overflow hx hbuffer, run_of_overflow hy hbuffer, close_inMode, run_of_concluded (.inl (isEmpty_close s)),
        run_of_concluded (s := s.close.inMode b) (.inl (isEmpty_close s))]
      exact concluded_agrees (attempt_agrees h ((alike_close s).lenient.trans hs))
    · generalize hx : s.attempt call = x at hopen hfull
      generalize hy : (s.inMode b).attempt call' = y at hopen hfull
      have hright : ∀ e', y = .error e' → ¬e'.IsFull := fun e' he' hroom => by
        subst he'
        cases hopen with
        | error hres =>
          obtain ⟨full, rfl⟩ := (hres.full.1 hroom).eq
          obtain ⟨full', rfl⟩ := hroom.eq
          exact hfull ⟨full, full', rfl, rfl⟩
        | refused _ hu => exact hu.not_full hroom
      rw [run_of_concluded (s := s.inMode b) (.inr (hy ▸ hright)), hy]
      by_cases hleft : ∀ e, x = .error e → ¬e.IsFull
      · rw [run_of_concluded (.inr (hx ▸ hleft)), hx]
        exact concluded_agrees hopen
      · -- If only the first try finds the buffer full, the second one was refused because of a name.
        simp only [not_forall, not_not] at hleft
        obtain ⟨e, rfl, hroom⟩ := hleft
        cases hopen with
        | error hres => exact absurd (hres.full.2 hroom) (hright _ rfl)
        | refused hX hu => exact .refused hX (tooLarge_unknown hu)

/-! ### Plans -/

theorem buffered_queue (r : Registry) (p : PendingId) (op : QueuedOp) : (r.queue p op).buffered = r.buffered := by
  unfold Registry.queue Registry.modifyEntry
  split <;> rfl

/-- Two plans that differ in what is written: the same node is created, or the same one is changed. -/
inductive Plan.Parallel : Plan → Plan → Prop
  | create (t : TypeLayout) (fields fields' : List (Field EdgeLayout)) : Plan.Parallel (.create t fields) (.create t fields')
  | write (type : TypeId) (target : NodeRef) (op op' : QueuedOp) (change change' : Change) :
      Plan.Parallel (.write type target op change) (.write type target op' change')

/-- What is noted of tries that come out alike. -/
theorem finish_sameOutput {plan plan' : Plan} (h : plan.Parallel plan') (waits : Option PendingId)
    (hs hs' : List Placeholder) (s : Session) (b : Bool) :
    (plan'.finish waits hs' (s.inMode b)).1 = (plan.finish waits hs s).1 ∧
      (plan.finish waits hs s).2.SameOutput (plan'.finish waits hs' (s.inMode b)).2 := by
  cases h with
  | create t fields fields' =>
    refine ⟨rfl, rfl, rfl, rfl, ?_⟩
    simp only [Plan.finish, Registry.foldl_oblige]
    rfl
  | write type target op op' change change' =>
    cases waits with
    | none =>
      refine ⟨rfl, rfl, rfl, rfl, ?_⟩
      simp only [Plan.finish, Registry.foldl_oblige]
      rfl
    | some p =>
      refine ⟨rfl, rfl, rfl, rfl, ?_⟩
      simp only [Plan.finish, buffered_queue]
      rfl

/-- Plans whose tries agree are performed alike. -/
theorem perform_agrees {plan plan' : Plan} (hplan : plan.Parallel plan') (h : Calls X b plan.action plan'.action)
    (hs : s.lenient = true) : SameCall X Eq SameOutput (plan.perform s) (plan'.perform (s.inMode b)) := by
  have hrun := run_agrees h hs
  unfold Plan.perform
  generalize run plan.action s = r at hrun ⊢
  generalize run plan'.action (s.inMode b) = r' at hrun ⊢
  cases hrun with
  | @ok a a' s₁ s₁' ha hstate =>
    obtain ⟨waits, hs⟩ := a
    obtain ⟨waits', hs'⟩ := a'
    obtain rfl : waits' = waits := ha
    subst hstate
    obtain ⟨hanswer, hout⟩ := finish_sameOutput hplan waits' hs hs' s₁ b
    exact .ok hanswer.symm hout
  | error he he' hstate =>
    subst hstate
    exact .error he he' ⟨rfl, rfl, rfl, rfl⟩
  | refused hX hu => exact .refused hX hu

/-- Calls whose plans are performed alike. -/
theorem act_agrees {w w' : WriteCall} (h : Agree X (fun plan plan' : Plan => plan.Parallel plan' ∧
    Calls X b plan.action plan'.action) (w.plan s) (w'.plan (s.inMode b))) (hs : s.lenient = true) :
    SameCall X Eq SameOutput (w.act s) (w'.act (s.inMode b)) := by
  rw [(w.plans s : w.act s = _), (w'.plans (s.inMode b) : w'.act (s.inMode b) = _)]
  generalize w.plan s = x at h ⊢
  generalize w'.plan (s.inMode b) = y at h ⊢
  cases h with
  | ok h => exact perform_agrees h.1 h.2 hs
  | error h => exact .error h.left h.right ⟨rfl, rfl, rfl, rfl⟩
  | refused hX h => exact .refused hX h

/-! ### Creates and updates -/

theorem create_calls {t : TypeLayout} {fields fields' : List (Field EdgeLayout)}
    (h : Calls X b (fun c => writeCreate c t fields) fun c => writeCreate c t fields') :
    Calls X b (Plan.create t fields).action (Plan.create t fields').action := by
  intro c hc
  simp only [Plan.action, map_eq_pure_bind]
  refine Concur.bind ((Concur.createNode _ _).bind fun _ => h c hc) fun _ => .pure _

theorem update_calls {t : TypeLayout} {fields fields' : List (Field EdgeLayout)} (type : TypeId) (target : NodeRef)
    (op op' : QueuedOp) (h : Calls X b (fun c => writeUpdate c t fields) fun c => writeUpdate c t fields') :
    Calls X b (Plan.write type target op (.update t fields)).action
      (Plan.write type target op' (.update t fields')).action := by
  intro c hc
  unfold Plan.action writeTo
  refine Concur.lift (Agree.self fun e => wireTarget_known) ?_
  rintro wire _ rfl
  cases wire with
  | deferred p => exact .pure _
  | _ => exact (Concur.selectNode _ _).bind fun _ => (h c hc).bind fun _ => .pure _

section

variable {t : TypeLayout} {type : String}

theorem plan_create (ht : s.schema.typeByName? type = some t) (lenient : Bool) (record : Record) :
    (WriteCall.create type record).plan (s.inMode lenient) =
      collectFields t lenient true record >>= fun fields => pure (.create t fields) := by
  have hnamed : (s.inMode lenient).named type = .ok t := by
    unfold named inMode
    rw [ht]
    rfl
  simp only [WriteCall.plan, hnamed]
  rfl

theorem plan_update (ht : s.schema.typeByName? type = some t) (hid : s.schema.typeById? t.id = some t) (target : NodeRef)
    (lenient : Bool) (record : Record) :
    (WriteCall.update type target record).plan (s.inMode lenient) =
      collectFields t lenient false record >>= fun fields =>
        pure (.write t.id target (.update record) (.update t fields)) := by
  have hnamed : (s.inMode lenient).named type = .ok t := by
    unfold named inMode
    rw [ht]
    rfl
  have hwithId : (s.inMode lenient).withId t.id = .ok t := by
    unfold withId inMode
    rw [hid]
    rfl
  simp only [WriteCall.plan, hnamed]
  change (s.inMode lenient).planUpdate t.id target record = _
  unfold planUpdate
  rw [hwithId]
  rfl

/-- A create or an update of a type, from records that give fields that are written alike. -/
theorem write_agrees (ht : s.schema.typeByName? type = some t) (hid : s.schema.typeById? t.id = some t)
    {write : Record → WriteCall} (hwrite : write = .create type ∨ ∃ target, write = .update type target)
    {record record' : Record} {g : PropDef EdgeLayout → Record → Record} (hg : ∀ p, g p [] = [])
    (hfields : ∀ create, Agree X (fun fields fields' => fields.map (Field.relink g) = fields')
      (collectFields t true create record) (collectFields t b create record'))
    (hagree : ∀ create fields, collectFields t true create record = .ok fields → ∀ c : Context, c.lenient = true →
      FieldsAgree X c { c with lenient := b } (encodeEdges c) (encodeEdges { c with lenient := b }) g fields) :
    SameCall X Eq SameOutput ((write record).act (s.inMode true)) ((write record').act (s.inMode b)) := by
  refine act_agrees (s := s.inMode true) ?_ rfl
  change Agree X _ ((write record).plan (s.inMode true)) ((write record').plan (s.inMode b))
  rcases hwrite with rfl | ⟨target, rfl⟩
  · rw [plan_create ht, plan_create ht]
    refine (hfields true).remember.bind ?_
    rintro fields _ ⟨rfl, hcollect⟩
    exact .ok ⟨.create t _ _, create_calls fun c hc => writeCreateWith_agrees hg (hagree true fields hcollect c hc) t⟩
  · rw [plan_update ht hid, plan_update ht hid]
    refine (hfields false).remember.bind ?_
    rintro fields _ ⟨rfl, hcollect⟩
    exact .ok ⟨.write t.id target _ _ _ _, update_calls t.id target _ _ fun c hc =>
      writeUpdateWith_agrees hg (hagree false fields hcollect c hc) t⟩

end

/-! ### Schemas -/

section

variable {decl : SchemaDecl} {priority : Priority} {schema : SchemaLayout}

/-- Compiling has checked all but the validators. -/
theorem compile_unchecked (hschema : decl.compile priority = .ok schema) {E : Type} {t : Layout E} (ht : schema.HasLayout t)
    (hown : ∀ p ∈ t.props, p.validator = none) : t.Unchecked := by
  obtain ⟨hplaced, -, hpacked⟩ := compile_hasLayout hschema ht
  refine ⟨hown, fun p hp href => ?_, fun p hp hmain => ?_⟩
  · cases hdefault : p.default with
    | none => rfl
    | some v =>
      have := ((hpacked.declared p hp).default v hdefault).1
      rw [href] at this
      cases this
  · have hseparate := (hplaced.measured p hp).separate
    rw [hmain] at hseparate
    cases htype : p.type <;> rw [htype] at hseparate <;> first | rfl | cases hseparate rfl

/-- What a record gives to a property with links is written as it is. -/
theorem mem_writesAt {t : TypeLayout} (ht : t.Addressed) (hu : t.Unchecked) {lenient create : Bool} {record : Record}
    {fields : List (Field EdgeLayout)} (h : collectFields t lenient create record = .ok fields) {f : Field EdgeLayout}
    (hf : f ∈ fields) (href : f.prop.type.isReference = true) : f.value ∈ Record.writesAt f.prop.path record := by
  obtain ⟨hmem, hvalues⟩ := collectFields_values ht h
  have hprop := (hmem f hf).1
  have hgiven : f.value ∈ givenTo create record f.prop := (hvalues f.index f.prop hprop).mem_iff.1
    (List.mem_map_of_mem (List.mem_filter.2 ⟨hf, by simp⟩))
  unfold givenTo at hgiven
  rw [hu.default f.prop (List.mem_of_getElem? hprop) href] at hgiven
  split at hgiven
  · split at hgiven <;> cases hgiven
  · exact hgiven

theorem fieldsAgree_known {t : TypeLayout} (ht : t.Addressed) (hu : t.Unchecked)
    (hedges : ∀ p ∈ t.props, ∀ e, p.edges = some e → e.Unchecked) {record : Record} (hkeeps : t.KeepsLinks record)
    {create : Bool} {fields : List (Field EdgeLayout)} (h : collectFields t true create record = .ok fields) {c : Context}
    (hc : c.lenient = true) :
    FieldsAgree False c { c with lenient := b } (encodeEdges c) (encodeEdges { c with lenient := b })
      PropDef.knownEdges fields where
  values f hf href item hitem :=
    have hp := collectFields_mem h hf
    links_known hc (hedges f.prop hp) (hkeeps f.prop hp f.value (mem_writesAt ht hu h hf href) item hitem)
  plain f hf := hu.separate f.prop (collectFields_mem h hf)

theorem fieldsAgree_lenient (hb : b = true ∨ X) {t : TypeLayout} (hu : t.Unchecked)
    (hedges : ∀ p ∈ t.props, ∀ e, p.edges = some e → e.Unchecked) {record : Record} {create : Bool}
    {fields : List (Field EdgeLayout)} (h : collectFields t true create record = .ok fields) {c : Context}
    (hc : c.lenient = true) :
    FieldsAgree X c { c with lenient := b } (encodeEdges c) (encodeEdges { c with lenient := b })
      (fun _ edges => edges) fields where
  values f hf _ item _ := links_lenient hb hc (hedges f.prop (collectFields_mem h hf)) item.2
  plain f hf := hu.separate f.prop (collectFields_mem h hf)

section

variable (hschema : decl.compile priority = .ok schema)
  (hown : ∀ {E : Type} {t : Layout E}, schema.HasLayout t → ∀ p ∈ t.props, p.validator = none) (hs : s.schema = schema)

include hschema hown

theorem links_unchecked {t : TypeLayout} (ht : t ∈ schema.types) :
    ∀ p ∈ t.props, ∀ e, p.edges = some e → e.Unchecked := fun _ hp _ he =>
  compile_unchecked hschema (.ofLinks ht hp he) (hown (.ofLinks ht hp he))

include hs

/-- The same record, for a lenient session and for one that is lenient too or may refuse names. -/
theorem record_agrees (hb : b = true ∨ X) {type : String} {write : Record → WriteCall}
    (hwrite : write = .create type ∨ ∃ target, write = .update type target) (record : Record) :
    SameCall X Eq SameOutput ((write record).act (s.inMode true)) ((write record).act (s.inMode b)) := by
  subst hs
  cases hname : s.schema.typeByName? type with
  | none =>
    have hnamed : ∀ lenient, (s.inMode lenient).named type = .error (.unknownType type) := fun lenient => by
      unfold named inMode
      rw [hname]
      rfl
    have hplan : ∀ lenient, (write record).plan (s.inMode lenient) = .error (.unknownType type) := fun lenient => by
      rcases hwrite with rfl | ⟨target, rfl⟩ <;> simp only [WriteCall.plan, hnamed] <;> rfl
    refine act_agrees (s := s.inMode true) ?_ rfl
    change Agree X _ ((write record).plan (s.inMode true)) ((write record).plan (s.inMode b))
    rw [hplan, hplan]
    exact .error (.refl id)
  | some t =>
    have ht : t ∈ s.schema.types := List.mem_of_find?_eq_some hname
    have hu := compile_unchecked hschema (.ofType ht) (hown (.ofType ht))
    exact write_agrees hname ((compile_placed hschema).ids t ht) hwrite (fun _ => rfl)
      (fun create => collectFields_agrees hu create (addressEach_layout_lenient hb t record))
      fun create fields hfields c hc => fieldsAgree_lenient hb hu (links_unchecked hschema hown ht) hfields hc

/-- The record without the unknown names, for a session that is not lenient. -/
theorem known_agrees {type : String} {write : Record → WriteCall}
    (hwrite : write = .create type ∨ ∃ target, write = .update type target) {t : TypeLayout}
    (hname : schema.typeByName? type = some t) {record : Record} (hkeeps : t.KeepsLinks record) :
    SameCall False Eq SameOutput ((write record).act (s.inMode true)) ((write (t.known record)).act (s.inMode b)) := by
  subst hs
  have ht : t ∈ s.schema.types := List.mem_of_find?_eq_some hname
  have hu := compile_unchecked hschema (.ofType ht) (hown (.ofType ht))
  refine write_agrees hname ((compile_placed hschema).ids t ht) hwrite (fun p => ?_)
    (fun create => collectFields_agrees hu create (addressEach_layout_known t PropDef.knownEdges record))
    fun create fields hfields c hc =>
      fieldsAgree_known (compile_addressed hschema t ht) hu (links_unchecked hschema hown ht) hkeeps hfields hc
  unfold PropDef.knownEdges
  cases p.edges <;> rfl

end

end

end Session

end Write

end NodeStore
