import NodeStore.Proofs.Codec.MainBlock
import NodeStore.Proofs.Write.Blocks
import NodeStore.Proofs.Write.Lifecycle

/-!
# Follow-ups

A reference whose placeholder left with a batch is made up for by an update of the node that holds it. The update sets
this one reference, and it always fits into an empty buffer.

* `Obligation.setting`: the instruction that sets the reference.
* `Session.MakesUp`: the reference was set, or its update waits, or it was refused.
* `attempt_tries`, `perform_makesUp`: what a try of the update answers, and what comes of it.
-/

namespace NodeStore.Write

/-- The value that sets the reference of an obligation. -/
def Obligation.value (o : Obligation) (id : NodeId) : Value :=
  if o.many then .refs none [(.id id, o.edges)] [] else .ref (.id id) o.edges

/-- The instruction that sets it. -/
def Obligation.setting (o : Obligation) (e : RefEntry) : Instr := if o.many then .addRefs [e] else .setRef e

theorem Obligation.length_setting (o : Obligation) (e : RefEntry) :
    (o.setting e).encode.length = (if o.many then 5 else 1) + e.encode.length := by
  unfold setting
  split <;> simp [Instr.encode, Instr.encodeItems] <;> omega

variable {c : Context} {o : Obligation} {id : NodeId} {t : TypeLayout} {p : PropDef EdgeLayout} {slot : UInt8}
  {block : Option Bytes} {wire : WireTarget} {node : NodeTarget}

/-! ### The fields of a follow-up -/

/-- A reference to a node with an id is encoded with what its link stores. -/
theorem refEntry_id (hlink : c.linkDeferred = none) (id : NodeId) (edges : Record) :
    refEntry c (encodeEdges c) p (.id id, edges) =
      (fun block => (⟨.node id, block⟩, none)) <$> linkBlock c (encodeEdges c) p edges false := by
  unfold refEntry checkInLink
  rw [hlink]
  change (linkBlock c (encodeEdges c) p edges false >>= fun block => Except.ok _) = _
  cases linkBlock c (encodeEdges c) p edges false <;> rfl

/-- A reference of known target notes no placeholder. -/
theorem refInstr_id (many : Bool) (item : RefItem) (e : RefEntry) {i : Instr} (hi : i.Holds many [e]) (d : Draft) :
    refInstr p many [item] [(e, none)] i d = (do let _ ← fieldInstr p i : EncodeM Unit) d := by
  have hnone : ∀ start, placeholdersOf p.name many ([item].zip ([(e, none)].map (·.2))) (i.refOffsets.map (start + ·)) = [] := by
    intro start
    rcases hi with ⟨-, e', he, rfl⟩ | ⟨-, rfl | rfl⟩ <;> rfl
  unfold refInstr
  change EStateM.bind _ _ d = EStateM.bind _ _ d
  simp only [EStateM.bind]
  cases fieldInstr p i d with
  | error e d' => rfl
  | ok start d' =>
    dsimp only
    rw [hnone, (note_eq_ok (u := ())).2 (congrArg _ rfl)]
    simp [pure, EStateM.pure]

/-- The value of a follow-up is written as one instruction for its field. -/
theorem writeSeparate_value (hlink : c.linkDeferred = none)
    (hkind : p.type = if o.many then .references else .reference) (d : Draft) :
    writeSeparate c (encodeEdges c) false p (o.value id) d =
      (do
        let block ← (linkBlock c (encodeEdges c) p o.edges false : Except Error _)
        let _ ← fieldInstr p (o.setting ⟨.node id, block⟩) : EncodeM Unit) d := by
  have hentry := refEntry_id (p := p) hlink id o.edges
  unfold writeSeparate Obligation.value Obligation.setting
  cases hmany : o.many with
  | false =>
    rw [hmany] at hkind
    simp only [hkind, Bool.false_eq_true, if_false, asRefItem]
    change EStateM.bind (liftM (refEntry c (encodeEdges c) p (.id id, o.edges))) _ d = EStateM.bind _ _ d
    rw [hentry]
    simp only [EStateM.bind]
    cases linkBlock c (encodeEdges c) p o.edges false with
    | error e => rfl
    | ok block => exact refInstr_id false (.id id, o.edges) ⟨.node id, block⟩ (.inl ⟨rfl, _, rfl, rfl⟩) d
  | true =>
    rw [hmany] at hkind
    have hone : [((.id id : NodeRef), o.edges)].mapM (refEntry c (encodeEdges c) p) =
        (fun block => [((⟨.node id, block⟩ : RefEntry), (none : Option PendingId))]) <$>
          linkBlock c (encodeEdges c) p o.edges false := by
      rw [List.mapM_cons, List.mapM_nil, hentry]
      cases linkBlock c (encodeEdges c) p o.edges false <;> rfl
    simp only [hkind, if_true, writeReplaced, writeAdded, writeRemoved, writeRefs, List.isEmpty_cons, List.isEmpty_nil,
      Bool.false_eq_true, if_false, Bool.not_true, pure_bind, bind_pure_unit, hone]
    cases linkBlock c (encodeEdges c) p o.edges false with
    | error e => rfl
    | ok block => exact refInstr_id true (.id id, o.edges) ⟨.node id, block⟩ (.inr ⟨rfl, .inr rfl⟩) d

/-- A follow-up writes one instruction for the field. -/
theorem writeUpdate_value (hlink : c.linkDeferred = none) (hslot : p.slot? = some slot)
    (hkind : p.type = if o.many then .references else .reference) (i : Nat) (d : Draft) :
    writeUpdate c t [⟨i, p, o.value id⟩] d =
      (do
        let block ← (linkBlock c (encodeEdges c) p o.edges false : Except Error _)
        let _ ← fieldInstr p (o.setting ⟨.node id, block⟩) : EncodeM Unit) d := by
  have hoffset := PropDef.offset?_of_slot? hslot
  rw [← writeSeparate_value hlink hkind]
  simp [writeUpdate, writeUpdateWith, writeChange, hoffset]

/-! ### Tries of a follow-up -/

namespace Session

section

variable (hlink : c.linkDeferred = none) (hslot : p.slot? = some slot)
  (hkind : p.type = if o.many then .references else .reference)
  (howner : c.registry.wireTarget o.owner = .ok wire) (hnode : wire.node? = some node)

include hlink hslot hkind howner hnode

/-- A follow-up that fits is written. -/
theorem writeTo_value_of_room (d : Draft) (id : NodeId) (t : TypeLayout) (i : Nat)
    (hblock : linkBlock c (encodeEdges c) p o.edges false = .ok block)
    (hroom : d.encoder.buffer.Room
      (encodeAll (d.encoder.cursor.selectFieldOf o.type node slot p.type.tag ++ [o.setting ⟨.node id, block⟩])).length) :
    writeTo o.type o.owner (fun c => writeUpdate c t [⟨i, p, o.value id⟩]) c d = .ok none
      ((d.append (d.encoder.cursor.selectFieldOf o.type node slot p.type.tag ++ [o.setting ⟨.node id, block⟩])).at
        (.separate o.type node slot)) := by
  rw [Cursor.selectFieldOf, List.append_assoc] at hroom ⊢
  obtain ⟨hselect, hfield⟩ := (room_append d (d.encoder.cursor.on o.type node) _ _).1 hroom
  let d₁ := (d.append (d.encoder.cursor.selectNode o.type node)).at (d.encoder.cursor.on o.type node)
  let js := (d.encoder.cursor.on o.type node).selectField slot p.type.tag ++ [o.setting ⟨.node id, block⟩]
  have hwritten : fieldInstr p (o.setting ⟨.node id, block⟩) d₁ = .ok _ ((d₁.append js).at (.separate o.type node slot)) :=
    (fieldInstr_eq_ok (d := d₁) (Cursor.node?_on ..)).2 ⟨slot, hslot, hfield, rfl, rfl⟩
  have hupdate : writeUpdate c t [⟨i, p, o.value id⟩] d₁ = .ok () ((d₁.append js).at (.separate o.type node slot)) := by
    rw [writeUpdate_value hlink hslot hkind, EStateM.bind_of_ok (liftExcept_eq_ok.2 ⟨hblock, rfl⟩),
      EStateM.bind_of_ok hwritten]
    rfl
  have hboth : (d₁.append js).at (.separate o.type node slot) =
      (d.append (d.encoder.cursor.selectNode o.type node ++ js)).at (.separate o.type node slot) := by
    simp [d₁, Draft.append, Draft.at]
  rw [writeTo_of_node howner hnode, EStateM.bind_of_ok (selectNode_of_room (WireTarget.node?_ne_link hnode) hselect),
    EStateM.bind_of_ok hupdate, hboth]
  rfl

/-- A follow-up that does not fit is refused as such. -/
theorem writeTo_value_of_full (d : Draft) (id : NodeId) (t : TypeLayout) (i : Nat)
    (hblock : linkBlock c (encodeEdges c) p o.edges false = .ok block)
    (hroom : ¬d.encoder.buffer.Room
      (encodeAll (d.encoder.cursor.selectFieldOf o.type node slot p.type.tag ++ [o.setting ⟨.node id, block⟩])).length) :
    ∃ e d', writeTo o.type o.owner (fun c => writeUpdate c t [⟨i, p, o.value id⟩]) c d = .error (.bufferFull e) d' := by
  rw [Cursor.selectFieldOf, List.append_assoc, room_append d (d.encoder.cursor.on o.type node)] at hroom
  have hne := WireTarget.node?_ne_link hnode
  rw [writeTo_of_node howner hnode]
  by_cases hselect : d.encoder.buffer.Room (encodeAll (d.encoder.cursor.selectNode o.type node)).length
  · let d₁ := (d.append (d.encoder.cursor.selectNode o.type node)).at (d.encoder.cursor.on o.type node)
    obtain ⟨e, he⟩ : ∃ e, fieldInstr p (o.setting ⟨.node id, block⟩) d₁ = .error (.bufferFull e) d₁ :=
      fieldInstr_of_full (Cursor.node?_on ..) hslot fun hfield => hroom ⟨hselect, hfield⟩
    have hupdate : writeUpdate c t [⟨i, p, o.value id⟩] d₁ = .error (.bufferFull e) d₁ := by
      rw [writeUpdate_value hlink hslot hkind, EStateM.bind_of_ok (liftExcept_eq_ok.2 ⟨hblock, rfl⟩)]
      exact EStateM.bind_of_error he
    exact ⟨e, d₁, (EStateM.bind_of_ok (selectNode_of_room hne hselect)).trans (EStateM.bind_of_error hupdate)⟩
  · obtain ⟨e, he⟩ := selectNode_of_full hne hselect
    exact ⟨e, _, EStateM.bind_of_error he⟩

/-- A follow-up with a link that cannot be encoded fails. -/
theorem writeTo_value_of_error (d : Draft) (id : NodeId) (t : TypeLayout) (i : Nat) {e : Error}
    (hblock : linkBlock c (encodeEdges c) p o.edges false = .error e) :
    ∃ e d', writeTo o.type o.owner (fun c => writeUpdate c t [⟨i, p, o.value id⟩]) c d = .error e d' := by
  have hne := WireTarget.node?_ne_link hnode
  rw [writeTo_of_node howner hnode]
  by_cases hselect : d.encoder.buffer.Room (encodeAll (d.encoder.cursor.selectNode o.type node)).length
  · let d₁ := (d.append (d.encoder.cursor.selectNode o.type node)).at (d.encoder.cursor.on o.type node)
    have hupdate : writeUpdate c t [⟨i, p, o.value id⟩] d₁ = .error e d₁ := by
      rw [writeUpdate_value hlink hslot hkind, hblock]
      exact EStateM.bind_of_error rfl
    exact ⟨e, d₁, (EStateM.bind_of_ok (selectNode_of_room hne hselect)).trans (EStateM.bind_of_error hupdate)⟩
  · obtain ⟨e, he⟩ := selectNode_of_full hne hselect
    exact ⟨_, _, EStateM.bind_of_error he⟩

end

variable {s s' : Session}

/-- The test of the property refuses the value that sets the reference, or what the link stores cannot be encoded. -/
def Refuses (s : Session) (o : Obligation) (id : NodeId) (p : PropDef EdgeLayout) : Prop :=
  (∃ e, checkField s.lenient ⟨0, p, o.value id⟩ = .error e) ∨
    ∃ e, linkBlock s.context (encodeEdges s.context) p o.edges false = .error e

/-- A reference is made up for by one write to its field. -/
inductive MakesUp (s : Session) (o : Obligation) (id : NodeId) (p : PropDef EdgeLayout) (slot : UInt8) : Session → Prop
  /-- One instruction sets it, with the field of the node selected. -/
  | written {wire : WireTarget} {node : NodeTarget} {block : Option Bytes} {enc : Encoder} {select : List Instr}
      (howner : s.registry.wireTarget o.owner = .ok wire) (hnode : wire.node? = some node)
      (hblock : linkBlock s.context (encodeEdges s.context) p o.edges false = .ok block)
      (hselect : ∀ place, s.encoder.cursor.Within place → place.after select = .field o.type node slot)
      (hbytes : enc.buffer.bytes = s.encoder.buffer.bytes ++ encodeAll (select ++ [o.setting ⟨.node id, block⟩])) :
      MakesUp s o id p slot { s with encoder := enc }
  /-- The write waits for the node that holds it. -/
  | queued {q : PendingId} (howner : s.registry.wireTarget o.owner = .ok (.deferred q)) :
      MakesUp s o id p slot { s with registry := s.registry.queue q (.update (o.followUp id)) }
  | refused (h : s.Refuses o id p) : MakesUp s o id p slot s

/-- What a try of a follow-up that takes `cost` bytes answers. -/
inductive Tries (s : Session) (o : Obligation) (id : NodeId) (p : PropDef EdgeLayout) (slot : UInt8) (cost : Nat) :
    Except Error ((Option PendingId × List Placeholder) × Session) → Prop
  | written {s' : Session} (h : s.MakesUp o id p slot s') : Tries s o id p slot cost (.ok ((none, []), s'))
  | queued {q : PendingId} (h : s.registry.wireTarget o.owner = .ok (.deferred q)) :
      Tries s o id p slot cost (.ok ((some q, []), s))
  | refused {e : Error} (h : s.Refuses o id p) : Tries s o id p slot cost (.error e)
  | full {e : BufferFull} (h : ¬s.encoder.buffer.Room cost) : Tries s o id p slot cost (.error (.bufferFull e))

/-- A follow-up of known length is written, waits, or is refused, unless it does not fit. -/
theorem attempt_tries (howner : s.registry.wireTarget o.owner = .ok wire) (hslot : p.slot? = some slot)
    (hkind : p.type = if o.many then .references else .reference) {cost : Nat}
    (hcost : ∀ block, linkBlock s.context (encodeEdges s.context) p o.edges false = .ok block →
      11 + (o.setting ⟨.node id, block⟩).encode.length ≤ cost) (t : TypeLayout) (i : Nat) :
    s.Tries o id p slot cost
      (s.attempt (writeTo o.type o.owner fun c => writeUpdate c t [⟨i, p, o.value id⟩])) := by
  have hlink : s.context.linkDeferred = none := rfl
  cases hnode : wire.node? with
  | none =>
    obtain ⟨q, rfl⟩ : ∃ q, wire = .deferred q := by
      cases wire with
      | deferred q => exact ⟨q, rfl⟩
      | _ => cases hnode
    have hcall : writeTo o.type o.owner (fun c => writeUpdate c t [⟨i, p, o.value id⟩]) s.context ⟨s.encoder, []⟩ =
        .ok (some q) ⟨s.encoder, []⟩ := writeTo_of_deferred howner _
    unfold attempt
    rw [hcall]
    exact .queued howner
  | some node =>
    cases hblock : linkBlock s.context (encodeEdges s.context) p o.edges false with
    | error e =>
      obtain ⟨e', d', hcall⟩ := writeTo_value_of_error hlink hslot hkind howner hnode ⟨s.encoder, []⟩ id t i hblock
      unfold attempt
      rw [hcall]
      exact .refused (.inr ⟨e, hblock⟩)
    | ok block =>
      by_cases hroom : s.encoder.buffer.Room (encodeAll
        (s.encoder.cursor.selectFieldOf o.type node slot p.type.tag ++ [o.setting ⟨.node id, block⟩])).length
      · have hcall := writeTo_value_of_room hlink hslot hkind howner hnode ⟨s.encoder, []⟩ id t i hblock hroom
        unfold attempt
        rw [hcall]
        refine .written (.written howner hnode hblock (fun place hplace => ?_) rfl)
        exact hplace.selectFieldOf o.type (WireTarget.node?_ne_link hnode) slot p.type.tag
      · obtain ⟨e, d', hcall⟩ := writeTo_value_of_full hlink hslot hkind howner hnode ⟨s.encoder, []⟩ id t i hblock hroom
        unfold attempt
        rw [hcall]
        refine .full fun hcost' => hroom fun max hmax => ?_
        have hselect := s.encoder.cursor.length_selectFieldOf_le o.type node slot p.type.tag
        have := hcost' max hmax
        have := hcost block hblock
        simp only [encodeAll_append, encodeAll_cons, encodeAll_nil, List.append_nil, List.length_append]
        omega

/-! ### Calls of a follow-up -/

/-- A try that does not fail for want of room decides the call. -/
theorem Tries.makesUp {s₀ : Session} {cost : Nat} {write : Context → EncodeM Unit}
    {x : Except Error ((Option PendingId × List Placeholder) × Session)} (htry : s₀.Tries o id p slot cost x)
    (hok : ∀ a s', x = .ok (a, s') → run (writeTo o.type o.owner write) s = .ok a s')
    (herror : ∀ e, x = .error e → ∃ e', run (writeTo o.type o.owner write) s = .error e' s₀)
    (hroom : ∀ f, x = .error (.bufferFull f) → s₀.encoder.buffer.Room cost) :
    s₀.MakesUp o id p slot (after (perform o.type o.owner (.update (o.followUp id)) write) s) := by
  cases htry with
  | written h => rwa [after_perform_of_written (hok _ _ rfl)]
  | queued h =>
    rw [after_perform_of_queued (hok _ _ rfl)]
    exact .queued h
  | refused h =>
    obtain ⟨e', hrun⟩ := herror _ rfl
    rw [after_perform_of_error hrun]
    exact .refused h
  | full h => exact absurd (hroom _ rfl) h

/-- A follow-up that fits into an empty buffer is written or queued, in the open buffer or in the next one. -/
theorem perform_makesUp {cost : Nat} {write : Context → EncodeM Unit}
    (htries : ∀ s₀, s.Opened s₀ → s₀.Tries o id p slot cost (s₀.attempt (writeTo o.type o.owner write)))
    (hempty : ∀ s₀, s.Opened s₀ → s₀.encoder.buffer.isEmpty = true → s₀.encoder.buffer.Room cost) :
    ∃ s₀, s.Opened s₀ ∧ s₀.MakesUp o id p slot (after (perform o.type o.owner (.update (o.followUp id)) write) s) := by
  by_cases hfull : ∃ f, s.attempt (writeTo o.type o.owner write) = .error (.bufferFull f) ∧
      s.encoder.buffer.isEmpty = false
  · -- the open buffer is closed, and the next one takes the follow-up
    obtain ⟨f, hf, hbuffer⟩ := hfull
    have hclosed : s.Opened s.close := .inr ⟨hbuffer, rfl⟩
    obtain ⟨hok, herror⟩ := run_of_full hf hbuffer
    refine ⟨s.close, hclosed, (htries s.close hclosed).makesUp hok herror fun f hx => hempty s.close hclosed ?_⟩
    rw [close_of_nonempty hbuffer]
    rfl
  · have hself : s.Opened s := .inl rfl
    have hbuffer : ∀ f, s.attempt (writeTo o.type o.owner write) = .error (.bufferFull f) →
        s.encoder.buffer.isEmpty = true := fun f hf => by
      by_contra hne
      exact hfull ⟨f, hf, by simpa using hne⟩
    refine ⟨s, hself, (htries s hself).makesUp (fun a s' hx => run_of_ok hx) (fun e hx => run_of_error hx fun f hf => ?_)
      fun f hx => hempty s hself (hbuffer f hx)⟩
    exact hbuffer f (hx.trans (congrArg _ hf))

/-- The update that makes up for a reference has one field, if the value passes its test. -/
theorem after_updateNode_followUp (hc : s.Compiled) (hfield : s.FieldOf o t p slot) (id : NodeId) :
    (∃ e, checkField s.lenient ⟨0, p, o.value id⟩ = .error e ∧ after (updateNode o.type o.owner (o.followUp id)) s = s) ∨
    ∃ i, after (updateNode o.type o.owner (o.followUp id)) s =
      after (perform o.type o.owner (.update (o.followUp id)) fun c => writeUpdate c t [⟨i, p, o.value id⟩]) s := by
  obtain ⟨hmem, -⟩ := hc.placed.found o.type t hfield.type
  obtain ⟨i, hi⟩ := List.getElem?_of_mem hfield.prop
  have hfollow : o.followUp id = [(p.name, o.value id)] := by rw [hfield.name]; rfl
  have hfound : typeWithId o.type s = .ok t s := by rw [typeWithId_eq, hfield.type]; rfl
  have hcollect := collectFields_named (hc.addressed t hmem) hi s.lenient (o.value id)
  unfold updateNode
  rw [after_bind_of_ok hfound, after_bind_of_ok (x := get) rfl, hfollow, hcollect]
  cases hcheck : checkField s.lenient ⟨i, p, o.value id⟩ with
  | error e => exact .inl ⟨e, hcheck, rfl⟩
  | ok u => exact .inr ⟨i, rfl⟩

end Session

end NodeStore.Write
