import NodeStore.Proofs.Write.Drafts
import NodeStore.Proofs.Write.Fields
import NodeStore.Proofs.Write.Registries

/-!
# Placeholders in the open buffer

Between calls a session knows of every reference in its open buffer whose target is in flight: there is an obligation
for it, with the position where it stands, unless its target or the node that holds it has failed.

* `Session.Marks`, `Session.Stands`: the reference of an obligation, with its field and the node that holds it.
* `Session.Tracks`: the invariant.
* `Tracks.close`, `Tracks.append`, `Tracks.patch`: the open buffer is closed, written to, and patched.
* `create_tracks`, `updateNode_tracks`, `deleteNode_tracks`, `countNode_tracks`: every call keeps the invariant.
-/

namespace NodeStore.Write

/-- How the node that a target stands for is selected. -/
def WireTarget.node? : WireTarget → Option NodeTarget
  | .id n => some (.id n)
  | .tmp n => some (.tmp n)
  | .deferred _ => none

/-- An obligation once the buffer with its placeholder is closed. -/
def Obligation.flushed (o : Obligation) : Obligation := { o with pos := none }

/-- The obligation to settle a placeholder. -/
def Placeholder.obligation (owner : NodeRef) (type : TypeId) (h : Placeholder) : Obligation :=
  ⟨h.target, owner, type, h.prop, h.many, h.edges, some h.pos⟩

/-- The obligations for the placeholders of a call stand behind all others. -/
theorem Registry.foldl_oblige (owner : NodeRef) (type : TypeId) (hs : List Placeholder) (r : Registry) :
    hs.foldl (fun r h => r.oblige owner type h) r =
      { r with obligations := r.obligations ++ hs.map (Placeholder.obligation owner type) } := by
  induction hs generalizing r with
  | nil => simp
  | cons h hs ih =>
    rw [List.foldl_cons, ih]
    simp [oblige, Placeholder.obligation]

namespace Session

variable {s s' : Session} {o : Obligation} {it : Item}

/-- The session afterwards, whether the call failed or not. -/
def after {α : Type} (x : SessionM α) (s : Session) : Session :=
  match x s with
  | .ok _ s => s
  | .error _ s => s

/-- What never changes: the schema and the options. -/
structure Alike (s s' : Session) : Prop where
  schema : s'.schema = s.schema
  maxBuffer : s'.maxBuffer = s.maxBuffer
  lenient : s'.lenient = s.lenient
  locale : s'.locale = s.locale

theorem Alike.refl (s : Session) : s.Alike s := ⟨rfl, rfl, rfl, rfl⟩

theorem Alike.trans {s'' : Session} (h : s.Alike s') (h' : s'.Alike s'') : s.Alike s'' :=
  ⟨h'.schema.trans h.schema, h'.maxBuffer.trans h.maxBuffer, h'.lenient.trans h.lenient, h'.locale.trans h.locale⟩

/-- The field that an obligation is about. -/
structure FieldOf (s : Session) (o : Obligation) (t : TypeLayout) (p : PropDef EdgeLayout) (slot : UInt8) : Prop where
  type : s.schema.typeById? o.type = some t
  prop : p ∈ t.props
  name : p.name = o.prop
  slot : p.slot? = some slot
  kind : p.type = if o.many then .references else .reference

/-- What the link of an obligation was once written to store. -/
def Stores (s : Session) (o : Obligation) (p : PropDef EdgeLayout) (block : Option Bytes) : Prop :=
  ∃ c : Context, c.locale = s.locale ∧ c.lenient = s.lenient ∧ linkBlock c (encodeEdges c) p o.edges true = .ok block

/-- A deferred reference was written for an obligation. -/
structure Marks (s : Session) (o : Obligation) (it : Item) : Prop where
  pos : o.pos = some it.pos
  many : it.many = o.many
  waits : it.entry.target = .deferred
  field : ∃ t p slot node, s.FieldOf o t p slot ∧ it.place = .field o.type node slot ∧ s.Stores o p it.entry.edges

/-- The reference of an obligation stands in the open buffer, written to the node that holds it. -/
structure Stands (s : Session) (o : Obligation) (it : Item) : Prop where
  marks : s.Marks o it
  owner : ∃ wire, s.registry.wireTarget o.owner = .ok wire ∧ wire.node? = it.place.node ∧ it.place.node.isSome

/-- A call to a node noted a placeholder for a reference whose target is in flight. -/
structure Notes (s : Session) (owner : NodeRef) (type : TypeId) (node : NodeTarget) (x : Placeholder) (it : Item) :
    Prop where
  marks : s.Marks (x.obligation owner type) it
  node : it.place.node = some node
  flight : ∃ seq, s.registry.status x.target = .ok (.inFlight seq)

/-- The update that sets the reference of an obligation fits into an empty buffer. -/
def Sendable (s : Session) (o : Obligation) : Prop :=
  ∃ t p slot block, s.FieldOf o t p slot ∧ s.Stores o p block ∧
    11 + ((if o.many then 5 else 1) + (⟨.deferred, block⟩ : RefEntry).encode.length) ≤ s.maxBuffer

/-- The placeholders that a call noted stand for deferred references among what it wrote. -/
theorem notes_of_marks {c : Context} (hlocale : c.locale = s.locale) (hlenient : c.lenient = s.lenient)
    (hflight : ∀ q seq, c.registry.status q = .ok (.inFlight seq) → s.registry.status q = .ok (.inFlight seq))
    {t : TypeLayout} (ht : s.schema.typeById? t.id = some t) (owner : NodeRef) {node : NodeTarget} {x : Placeholder}
    (h : x.Marks c (encodeEdges c) t.props t.id node it) : s.Notes owner t.id node x it := by
  obtain ⟨p, hp, slot, hname, hslot, hplace, hkind, hblock⟩ := h.field
  obtain ⟨seq, hseq⟩ := h.flight
  have hfield : s.FieldOf (x.obligation owner t.id) t p slot := ⟨ht, hp, hname, hslot, hkind⟩
  have hstores : s.Stores (x.obligation owner t.id) p it.entry.edges := ⟨c, hlocale, hlenient, hblock⟩
  refine ⟨⟨congrArg some h.pos.symm, h.many, h.waits, t, p, slot, node, hfield, hplace, hstores⟩, ?_, seq, hflight _ _ hseq⟩
  rw [hplace]
  rfl

theorem FieldOf.congr (h : s.Alike s') {t : TypeLayout} {p : PropDef EdgeLayout} {slot : UInt8}
    (ho : s.FieldOf o t p slot) : s'.FieldOf o t p slot :=
  ⟨by rw [h.schema]; exact ho.type, ho.prop, ho.name, ho.slot, ho.kind⟩

theorem Stores.congr (h : s.Alike s') {p : PropDef EdgeLayout} {block : Option Bytes} (ho : s.Stores o p block) :
    s'.Stores o p block := by
  obtain ⟨c, hlocale, hlenient, hblock⟩ := ho
  exact ⟨c, hlocale.trans h.locale.symm, hlenient.trans h.lenient.symm, hblock⟩

theorem Marks.congr (h : s.Alike s') (ho : s.Marks o it) : s'.Marks o it := by
  obtain ⟨t, p, slot, node, hfield, hplace, hstores⟩ := ho.field
  exact ⟨ho.pos, ho.many, ho.waits, t, p, slot, node, hfield.congr h, hplace, hstores.congr h⟩

theorem Sendable.congr (h : s.Alike s') (ho : s.Sendable o) : s'.Sendable o := by
  obtain ⟨t, p, slot, block, hfield, hstores, hroom⟩ := ho
  exact ⟨t, p, slot, block, hfield.congr h, hstores.congr h, by rw [h.maxBuffer]; exact hroom⟩

theorem Sendable.flushed (ho : s.Sendable o) : s.Sendable o.flushed := by
  obtain ⟨t, p, slot, block, hfield, hstores, hroom⟩ := ho
  exact ⟨t, p, slot, block, ⟨hfield.type, hfield.prop, hfield.name, hfield.slot, hfield.kind⟩, hstores, hroom⟩

theorem close_of_empty (h : s.encoder.buffer.isEmpty = true) : s.close = s := by
  unfold close
  rw [if_pos h]

theorem close_of_nonempty (h : s.encoder.buffer.isEmpty = false) :
    s.close = { s with
      encoder := ⟨⟨[], s.encoder.buffer.max⟩, .idle⟩
      registry := (s.registry.close s.nextSeq).2
      nextSeq := s.nextSeq + 1
      outbox := s.outbox ++ [⟨s.nextSeq, s.encoder.buffer.bytes, s.registry.buffered.length⟩] } := by
  unfold close
  rw [h]
  rfl

theorem alike_close (s : Session) : s.Alike s.close := by
  cases h : s.encoder.buffer.isEmpty with
  | true =>
    rw [close_of_empty h]
    exact .refl s
  | false =>
    rw [close_of_nonempty h]
    exact ⟨rfl, rfl, rfl, rfl⟩

/-- The schema has compiled. -/
structure Compiled (s : Session) : Prop where
  placed : s.schema.Placed
  addressed : ∀ t ∈ s.schema.types, t.Addressed
  packed : ∀ t ∈ s.schema.types, t.Packed

theorem Compiled.congr (h : s.Alike s') (hs : s.Compiled) : s'.Compiled :=
  ⟨by rw [h.schema]; exact hs.placed, by rw [h.schema]; exact hs.addressed, by rw [h.schema]; exact hs.packed⟩

/-- A batch of canonical instructions. -/
def Sealed (schema : SchemaLayout) (bytes : Bytes) : Prop := ∃ is, bytes = encodeAll is ∧ CanonicalAll schema .none is

/-- The open buffer holds the instructions `is`, and the deferred references among them are those of obligations: of
`held` ones, which are being settled, and of those in the registry. These wait on nodes in flight or on `due` ones. What
the buffer and the closed batches hold is canonical. -/
structure Tracks (s : Session) (is : List Instr) (held : List Obligation) (due : List PendingId) : Prop where
  bytes : s.encoder.buffer.bytes = encodeAll is
  max : s.encoder.buffer.max = some s.maxBuffer
  room : (encodeAll is).length ≤ s.maxBuffer
  within : s.encoder.cursor.Within (Selection.none.after is)
  distinct : ((s.registry.obligations ++ held).filterMap (·.pos)).Nodup
  stands : ∀ o ∈ s.registry.obligations ++ held, o.pos.isSome → ∃ it ∈ itemsFrom .none 0 is, s.Stands o it
  accounted : ∀ it ∈ deferred (itemsFrom .none 0 is), ∃ o, s.Marks o it ∧
    (o ∈ s.registry.obligations ++ held ∨ s.registry.Drops o)
  known : ∀ o ∈ s.registry.obligations ++ held, ∃ wire, s.registry.wireTarget o.owner = .ok wire
  sendable : ∀ o ∈ s.registry.obligations ++ held, s.Sendable o
  waits : ∀ o ∈ s.registry.obligations, (∃ seq, s.registry.status o.target = .ok (.inFlight seq)) ∨ o.target ∈ due
  canonical : CanonicalAll s.schema .none is
  closed : ∀ b ∈ s.outbox, Sealed s.schema b.bytes

namespace Tracks

variable {is : List Instr} {held : List Obligation} {due : List PendingId}

/-- What is settled already is followed no longer. -/
theorem drop_flushed (h : s.Tracks is (o :: held) due) (ho : o.pos = none) : s.Tracks is held due := by
  have hsub : ∀ o' ∈ s.registry.obligations ++ held, o' ∈ s.registry.obligations ++ o :: held := fun o' ho' =>
    (List.append_sublist_append_left _).2 (List.sublist_cons_self ..) |>.subset ho'
  refine ⟨h.bytes, h.max, h.room, h.within, ?_, fun o' ho' => h.stands o' (hsub o' ho'), ?_,
    fun o' ho' => h.known o' (hsub o' ho'), fun o' ho' => h.sendable o' (hsub o' ho'), h.waits, h.canonical, h.closed⟩
  · have := h.distinct
    rwa [List.filterMap_append, List.filterMap_cons_none ho, ← List.filterMap_append] at this
  · intro it hit
    obtain ⟨o', hmarks, ho'⟩ := h.accounted it hit
    refine ⟨o', hmarks, ?_⟩
    rcases ho' with ho' | ho'
    · rcases List.mem_append.1 ho' with ho' | ho'
      · exact .inl (List.mem_append_left _ ho')
      · rcases List.mem_cons.1 ho' with rfl | ho'
        · rw [hmarks.pos] at ho
          cases ho
        · exact .inl (List.mem_append_right _ ho')
    · exact .inr ho'

/-- Another registry that has dropped no obligation without cause and addresses owners as before. -/
theorem withRegistry (h : s.Tracks is held due) {r : Registry} {held' : List Obligation} {due' : List PendingId}
    (hlater : s.registry.Later r) (hmem : ∀ o ∈ r.obligations ++ held', o ∈ s.registry.obligations ++ held)
    (hdistinct : ((r.obligations ++ held').filterMap (·.pos)).Nodup)
    (hdropped : ∀ o ∈ s.registry.obligations ++ held, o ∈ r.obligations ++ held' ∨ r.Drops o)
    (howner : ∀ o ∈ r.obligations ++ held', ∀ w, s.registry.wireTarget o.owner = .ok w → w.node?.isSome →
      r.wireTarget o.owner = .ok w)
    (hknown : ∀ o ∈ r.obligations ++ held', ∀ w, s.registry.wireTarget o.owner = .ok w →
      ∃ w', r.wireTarget o.owner = .ok w')
    (hwaits : ∀ o ∈ r.obligations, (∃ seq, r.status o.target = .ok (.inFlight seq)) ∨ o.target ∈ due') :
    Tracks { s with registry := r } is held' due' := by
  have halike : s.Alike { s with registry := r } := ⟨rfl, rfl, rfl, rfl⟩
  refine ⟨h.bytes, h.max, h.room, h.within, hdistinct, ?_, ?_, ?_, ?_, hwaits, h.canonical, h.closed⟩
  · intro o ho hpos
    obtain ⟨it, hit, hmarks, wire, hwire, hnode, hsome⟩ := h.stands o (hmem o ho) hpos
    refine ⟨it, hit, hmarks.congr halike, wire, howner o ho _ hwire ?_, hnode, hsome⟩
    rw [hnode]
    exact hsome
  · intro it hit
    obtain ⟨o, hmarks, ho⟩ := h.accounted it hit
    refine ⟨o, hmarks.congr halike, ?_⟩
    rcases ho with ho | ho
    · exact hdropped o ho
    · exact .inr (ho.later hlater)
  · intro o ho
    obtain ⟨w, hw⟩ := h.known o (hmem o ho)
    exact hknown o ho w hw
  · exact fun o ho => (h.sendable o (hmem o ho)).congr halike

/-! ### Closing -/

/-- A closed buffer leaves an empty one, and no obligation has a position any more. -/
theorem close (h : s.Tracks is held due) (hheld : ∀ o ∈ held, o.pos = none) (hbuffer : s.encoder.buffer.isEmpty = false) :
    s.close.Tracks [] held due := by
  have halike := alike_close s
  have hsends := Registry.Sends.close s.registry s.nextSeq
  rw [close_of_nonempty hbuffer] at halike ⊢
  have hobligations : (s.registry.close s.nextSeq).2.obligations = s.registry.obligations.map Obligation.flushed := rfl
  have hback : ∀ o ∈ s.registry.obligations.map Obligation.flushed ++ held, o.pos = none ∧
      ∃ o' ∈ s.registry.obligations ++ held, o'.owner = o.owner ∧ (s.Sendable o' → s.Sendable o) := by
    intro o ho
    rcases List.mem_append.1 ho with ho | ho
    · obtain ⟨o', ho', rfl⟩ := List.mem_map.1 ho
      exact ⟨rfl, o', List.mem_append_left _ ho', rfl, Sendable.flushed⟩
    · exact ⟨hheld o ho, o, List.mem_append_right _ ho, rfl, id⟩
  refine ⟨rfl, h.max, Nat.zero_le _, .idle _, ?_, ?_, nofun, ?_, ?_, ?_, trivial, ?_⟩
  · dsimp only
    rw [hobligations, List.filterMap_eq_nil_iff.2 fun o ho => (hback o ho).1]
    exact List.nodup_nil
  · dsimp only
    intro o ho hpos
    rw [hobligations] at ho
    rw [(hback o ho).1] at hpos
    cases hpos
  · dsimp only
    intro o ho
    rw [hobligations] at ho
    obtain ⟨-, o', ho', howner, -⟩ := hback o ho
    obtain ⟨w, hw⟩ := h.known o' ho'
    rw [← howner]
    exact hsends.wireTarget hw
  · dsimp only
    intro o ho
    rw [hobligations] at ho
    obtain ⟨-, o', ho', -, hsend⟩ := hback o ho
    exact (hsend (h.sendable o' ho')).congr halike
  · dsimp only
    intro o ho
    rw [hobligations] at ho
    obtain ⟨o', ho', rfl⟩ := List.mem_map.1 ho
    exact (h.waits o' ho').imp_left fun ⟨seq, hseq⟩ => ⟨seq, hsends.status_inFlight hseq⟩
  · intro b hb
    rcases List.mem_append.1 hb with hb | hb
    · exact h.closed b hb
    · cases List.mem_singleton.1 hb
      exact ⟨is, h.bytes, h.canonical⟩

/-! ### Writing -/

/-- A deferred reference was written with room for the update that sets it. -/
theorem sendable_of_marks (h : s.Marks o it) (hit : it ∈ itemsFrom .none 0 is)
    (hroom : (encodeAll is).length ≤ s.maxBuffer) : s.Sendable o := by
  obtain ⟨t, p, slot, node, hfield, hplace, hstores⟩ := h.field
  refine ⟨t, p, slot, it.entry.edges, hfield, hstores, ?_⟩
  have hcost := room_of_mem_itemsFrom hit
  have hentry : it.entry = ⟨.deferred, it.entry.edges⟩ := by
    rw [← h.waits]
  rw [hplace, h.many, hentry] at hcost
  have hplaced : (Selection.field o.type node slot).cost = 11 := rfl
  rw [hplaced] at hcost
  omega

/-- New placeholders stand behind all others. -/
theorem distinct_append (h : s.Tracks is held due) {owner : NodeRef} {type : TypeId} {node : NodeTarget}
    {hs : List Placeholder} {place : Selection} {js : List Instr}
    (hstand : List.Forall₂ (s.Notes owner type node) hs (deferred (itemsFrom place (encodeAll is).length js))) :
    ((s.registry.obligations ++ hs.map (Placeholder.obligation owner type) ++ held).filterMap (·.pos)).Nodup := by
  have hpositions : (hs.map (Placeholder.obligation owner type)).filterMap (·.pos) =
      (deferred (itemsFrom place (encodeAll is).length js)).map (·.pos) := by
    rw [List.filterMap_map]
    generalize deferred (itemsFrom place (encodeAll is).length js) = items at hstand ⊢
    induction hstand with
    | nil => rfl
    | @cons x it xs items hx _ ih =>
      have hpos : x.pos = it.pos := Option.some.inj hx.marks.pos
      change x.pos :: xs.filterMap ((fun o => o.pos) ∘ Placeholder.obligation owner type) = _
      rw [ih, List.map_cons, hpos]
  have hnew : ((deferred (itemsFrom place (encodeAll is).length js)).map (·.pos)).Nodup :=
    ((itemsFrom_sorted _ _ _).imp fun hlt => Nat.ne_of_lt hlt).sublist (List.filter_sublist.map _)
  have hperm : (s.registry.obligations ++ hs.map (Placeholder.obligation owner type) ++ held).Perm
      (s.registry.obligations ++ held ++ hs.map (Placeholder.obligation owner type)) := by
    rw [List.append_assoc, List.append_assoc]
    exact List.Perm.append_left _ List.perm_append_comm
  rw [(hperm.filterMap _).nodup_iff, List.filterMap_append, hpositions]
  refine List.nodup_append.2 ⟨h.distinct, hnew, ?_⟩
  intro n hn m hm
  obtain ⟨o, ho, hpos⟩ := List.mem_filterMap.1 hn
  obtain ⟨it', hit', rfl⟩ := List.mem_map.1 hm
  obtain ⟨it, hit, hmarks, -⟩ := h.stands o ho (by rw [hpos]; rfl)
  have hn : it.pos = n := Option.some.inj (hmarks.pos.symm.trans hpos)
  have hbefore := pos_of_mem_itemsFrom hit
  have hbehind := pos_of_mem_itemsFrom (mem_deferred.1 hit').1
  omega

/-- What a call writes to a node, and the obligations for it. -/
theorem append (h : s.Tracks is held due) {owner : NodeRef} {type : TypeId} {wire : WireTarget} {node : NodeTarget}
    (howner : s.registry.wireTarget owner = .ok wire) (hnode : wire.node? = some node) {enc : Encoder}
    {hs : List Placeholder} {js : List Instr}
    (happ : AppendsAll s.schema (s.Notes owner type node) ⟨s.encoder, []⟩ ⟨enc, hs⟩ js hs) :
    Tracks { s with encoder := enc, registry := hs.foldl (fun r x => r.oblige owner type x) s.registry } (is ++ js)
      held due := by
  rw [Registry.foldl_oblige]
  let r : Registry := { s.registry with
    obligations := s.registry.obligations ++ hs.map (Placeholder.obligation owner type) }
  have halike : s.Alike { s with encoder := enc, registry := r } := ⟨rfl, rfl, rfl, rfl⟩
  have hsame : s.registry.SameStates r := .of_entries rfl
  have hbytes : enc.buffer.bytes = encodeAll (is ++ js) := by
    rw [encodeAll_append, ← h.bytes]
    exact happ.bytes
  have hlength : Draft.length ⟨s.encoder, []⟩ = (encodeAll is).length := congrArg List.length h.bytes
  have hroom : (encodeAll (is ++ js)).length ≤ s.maxBuffer := by
    rw [← hbytes]
    exact happ.room s.maxBuffer h.max (by rw [hlength]; exact h.room)
  have hitems : itemsFrom .none 0 (is ++ js) =
      itemsFrom .none 0 is ++ itemsFrom (Selection.none.after is) (encodeAll is).length js := by
    rw [itemsFrom_append, Nat.zero_add]
  have hstand := happ.stand _ h.within
  rw [hlength] at hstand
  have hnew : ∀ x ∈ hs, ∃ it ∈ itemsFrom .none 0 (is ++ js), s.Notes owner type node x it := by
    intro x hx
    obtain ⟨it, hit, hnotes⟩ := exists_of_forall₂_left hstand hx
    refine ⟨it, ?_, hnotes⟩
    rw [hitems]
    exact List.mem_append_right _ (mem_deferred.1 hit).1
  have hcases : ∀ o ∈ s.registry.obligations ++ hs.map (Placeholder.obligation owner type) ++ held,
      o ∈ s.registry.obligations ++ held ∨ ∃ x ∈ hs, o = x.obligation owner type := by
    intro o ho
    simp only [List.mem_append, List.mem_map] at ho ⊢
    rcases ho with (ho | ⟨x, hx, rfl⟩) | ho
    · exact .inl (.inl ho)
    · exact .inr ⟨x, hx, rfl⟩
    · exact .inl (.inr ho)
  refine ⟨hbytes, happ.max.trans h.max, hroom, ?_, ?_, ?_, ?_, ?_, ?_, ?_, ?_, h.closed⟩
  · rw [Selection.after_append]
    exact happ.within _ h.within
  · exact h.distinct_append hstand
  · intro o ho hpos
    rcases hcases o ho with ho | ⟨x, hx, rfl⟩
    · obtain ⟨it, hit, hmarks, w, hw, hplace⟩ := h.stands o ho hpos
      refine ⟨it, by rw [hitems]; exact List.mem_append_left _ hit, hmarks.congr halike, w, ?_, hplace⟩
      exact (hsame.wireTarget _).trans hw
    · obtain ⟨it, hit, hnotes⟩ := hnew x hx
      refine ⟨it, hit, hnotes.marks.congr halike, wire, (hsame.wireTarget _).trans howner, ?_⟩
      rw [hnotes.node, hnode]
      exact ⟨rfl, rfl⟩
  · rw [hitems, deferred_append]
    intro it hit
    rcases List.mem_append.1 hit with hit | hit
    · obtain ⟨o, hmarks, ho⟩ := h.accounted it hit
      refine ⟨o, hmarks.congr halike, ho.imp (fun ho => ?_) fun ho => ho.later (Registry.Sends.of_entries rfl).later⟩
      simp only [List.mem_append] at ho ⊢
      exact ho.imp_left .inl
    · obtain ⟨x, hx, hnotes⟩ := exists_of_forall₂_left hstand.flip hit
      refine ⟨x.obligation owner type, hnotes.marks.congr halike, .inl ?_⟩
      simp only [List.mem_append]
      exact .inl (.inr (List.mem_map_of_mem hx))
  · intro o ho
    rcases hcases o ho with ho | ⟨x, hx, rfl⟩
    · obtain ⟨w, hw⟩ := h.known o ho
      exact ⟨w, (hsame.wireTarget _).trans hw⟩
    · exact ⟨wire, (hsame.wireTarget _).trans howner⟩
  · intro o ho
    rcases hcases o ho with ho | ⟨x, hx, rfl⟩
    · exact (h.sendable o ho).congr halike
    · obtain ⟨it, hit, hnotes⟩ := hnew x hx
      exact (sendable_of_marks hnotes.marks hit hroom).congr halike
  · intro o ho
    rcases List.mem_append.1 ho with ho | ho
    · exact (h.waits o ho).imp_left (Exists.imp fun _ hseq => (hsame.status _).trans hseq)
    · obtain ⟨x, hx, rfl⟩ := List.mem_map.1 ho
      obtain ⟨it, -, hnotes⟩ := hnew x hx
      obtain ⟨seq, hseq⟩ := hnotes.flight
      exact .inl ⟨seq, (hsame.status _).trans hseq⟩
  · exact canonicalAll_append.2 ⟨h.canonical, happ.canonical _ h.within⟩

/-! ### Settling in place -/

/-- The reference of a held obligation is settled where it stands, and nothing else changes. -/
theorem patch (h : s.Tracks is (o :: held) due) {pos : Nat} (hpos : o.pos = some pos) (id : NodeId) :
    ∃ it ∈ itemsFrom .none 0 is, s.Stands o it ∧ ∃ is' front back,
      s.encoder.buffer.bytes = front ++ it.entry.encode ++ back ∧ front.length = pos ∧
      (s.encoder.patchPlaceholder pos id).buffer.bytes = front ++ (it.entry.settle id).encode ++ back ∧
      Tracks { s with encoder := s.encoder.patchPlaceholder pos id } is' held due := by
  have halike : s.Alike { s with encoder := s.encoder.patchPlaceholder pos id } := ⟨rfl, rfl, rfl, rfl⟩
  have hheld : ∀ o' ∈ s.registry.obligations ++ held, o' ∈ s.registry.obligations ++ o :: held := fun o' ho' =>
    ((List.sublist_cons_self o held).append_left _).subset ho'
  obtain ⟨it, hit, hstands⟩ := h.stands o (List.mem_append_right _ List.mem_cons_self) (by rw [hpos]; rfl)
  have hitpos : it.pos = pos := Option.some.inj (hstands.marks.pos.symm.trans hpos)
  obtain ⟨is', front, back, his, hfront, his', hitems, hafter, hbare⟩ := settle_item hit id
  have hlen : front.length = pos := by omega
  have hbytes : s.encoder.buffer.bytes = front ++ it.entry.encode ++ back := h.bytes.trans his
  have hpatched := Encoder.patchPlaceholder_eq hbytes hstands.marks.waits id
  rw [hlen] at hpatched
  -- no other obligation stands at this position
  have hdistinct := h.distinct
  rw [List.filterMap_append, List.filterMap_cons, hpos] at hdistinct
  have hother : ∀ o' ∈ s.registry.obligations ++ held, o'.pos ≠ some pos := by
    intro o' ho' hpos'
    have hmem : pos ∈ (s.registry.obligations ++ held).filterMap (·.pos) := List.mem_filterMap.2 ⟨o', ho', hpos'⟩
    rw [List.filterMap_append] at hmem
    exact (List.nodup_cons.1 (List.perm_middle.nodup_iff.1 hdistinct)).1 hmem
  refine ⟨it, hit, hstands, is', front, back, hbytes, hlen, hpatched, ?_, h.max, ?_, ?_, ?_, ?_, ?_, ?_, ?_, h.waits,
    h.canonical.of_bare hbare, h.closed⟩
  · rw [his']
    exact hpatched
  · have hroom := h.room
    rw [his] at hroom
    rw [his']
    simp only [List.length_append, RefEntry.length_encode_settle] at hroom ⊢
    exact hroom
  · rw [hafter]
    exact h.within
  · rw [List.filterMap_append]
    exact (List.nodup_cons.1 (List.perm_middle.nodup_iff.1 hdistinct)).2
  · intro o' ho' hsome
    obtain ⟨it', hit', hmarks, howner⟩ := h.stands o' (hheld o' ho') hsome
    have hne : it'.pos ≠ it.pos := by
      intro heq
      exact hother o' ho' (by rw [hmarks.pos, heq, hitpos])
    refine ⟨it', ?_, hmarks.congr halike, howner⟩
    rw [hitems]
    exact List.mem_map.2 ⟨it', hit', if_neg hne⟩
  · rw [hitems, deferred_settleAt]
    intro it' hit'
    obtain ⟨hit', hne⟩ := List.mem_filter.1 hit'
    obtain ⟨o', hmarks, ho'⟩ := h.accounted it' hit'
    refine ⟨o', hmarks.congr halike, ho'.imp_left fun ho' => ?_⟩
    rcases List.mem_append.1 ho' with ho' | ho'
    · exact List.mem_append_left _ ho'
    · rcases List.mem_cons.1 ho' with rfl | ho'
      · have heq : it'.pos = it.pos := Option.some.inj (hmarks.pos.symm.trans hstands.marks.pos)
        simp [heq] at hne
      · exact List.mem_append_right _ ho'
  · exact fun o' ho' => h.known o' (hheld o' ho')
  · exact fun o' ho' => (h.sendable o' (hheld o' ho')).congr halike

/-! ### Obligations taken and dropped -/

/-- The obligations that wait on a node are held while they are settled. -/
theorem takeObligations (h : s.Tracks is [] due) (p : PendingId) :
    Tracks { s with registry := (s.registry.takeObligations p).2 } is (s.registry.takeObligations p).1
      (due.filter (· ≠ p)) := by
  have hsame : s.registry.SameStates (s.registry.takeObligations p).2 := .of_entries rfl
  have hperm : ((s.registry.takeObligations p).2.obligations ++ (s.registry.takeObligations p).1).Perm
      (s.registry.obligations ++ []) := by
    rw [List.append_nil]
    exact List.perm_append_comm.trans (List.filter_append_perm ..)
  refine h.withRegistry (Registry.Sends.of_entries rfl).later (fun o ho => hperm.mem_iff.1 ho)
    ((hperm.filterMap _).nodup_iff.2 h.distinct) (fun o ho => .inl (hperm.mem_iff.2 ho)) ?_ ?_ ?_
  · intro o _ w hw _
    exact (hsame.wireTarget _).trans hw
  · intro o _ w hw
    exact ⟨w, (hsame.wireTarget _).trans hw⟩
  · intro o ho
    obtain ⟨ho, hne⟩ := List.mem_filter.1 ho
    rcases h.waits o ho with ⟨seq, hseq⟩ | hdue
    · exact .inl ⟨seq, (hsame.status _).trans hseq⟩
    · exact .inr (List.mem_filter.2 ⟨hdue, by simpa using hne⟩)

/-- A failure takes obligations, and their references are settled no longer. -/
theorem fails (h : s.Tracks is [] due) {r : Registry} (hr : s.registry.Fails r) :
    Tracks { s with registry := r } is [] due := by
  have hdistinct := h.distinct
  have hwaits := h.waits
  rw [List.append_nil] at hdistinct
  refine h.withRegistry hr.later ?_ ?_ ?_ ?_ ?_ ?_
  · intro o ho
    rw [List.append_nil] at ho ⊢
    exact hr.sublist.subset ho
  · rw [List.append_nil]
    exact hdistinct.sublist (hr.sublist.filterMap _)
  · intro o ho
    rw [List.append_nil] at ho ⊢
    exact hr.dropped o ho
  · intro o ho w hw _
    rw [List.append_nil] at ho
    exact (hr.owner o ho).trans hw
  · intro o ho w hw
    rw [List.append_nil] at ho
    exact ⟨w, (hr.owner o ho).trans hw⟩
  · intro o ho
    rw [hr.target o ho]
    exact hwaits o (hr.sublist.subset ho)

/-- Nodes in flight get their ids, and the obligations that wait on them are due. -/
theorem resolves (h : s.Tracks is [] []) {r : Registry} {pairs : List (PendingId × NodeId)}
    (hr : s.registry.Resolves pairs r) : Tracks { s with registry := r } is [] (pairs.map (·.1)) := by
  have hwaits := h.waits
  refine h.withRegistry hr.later ?_ ?_ ?_ ?_ ?_ ?_
  · intro o ho
    rwa [hr.obligations] at ho
  · rw [hr.obligations]
    exact h.distinct
  · intro o ho
    rw [hr.obligations]
    exact .inl ho
  · intro o _ w hw hnode
    refine hr.kept _ w hw fun p hp => ?_
    rw [hp] at hnode
    cases hnode
  · intro o _ w hw
    exact hr.known _ w hw
  · intro o ho
    rw [hr.obligations] at ho
    obtain ⟨seq, hseq⟩ := (hwaits o ho).resolve_right List.not_mem_nil
    rcases hr.cases o.target with hs | ⟨id, hid⟩
    · exact .inl ⟨seq, hs.trans hseq⟩
    · exact .inr (List.mem_map.2 ⟨(o.target, id), hid, rfl⟩)

/-- What changes no state of a node and no obligation. -/
theorem sameStates (h : s.Tracks is held due) {r : Registry} (hlater : s.registry.Later r)
    (hsame : s.registry.SameStates r) (hr : r.obligations = s.registry.obligations) :
    Tracks { s with registry := r } is held due := by
  have hwaits := h.waits
  refine h.withRegistry hlater ?_ ?_ ?_ ?_ ?_ ?_
  · rw [hr]
    exact fun _ ho => ho
  · rw [hr]
    exact h.distinct
  · rw [hr]
    exact fun _ ho => .inl ho
  · exact fun o _ w hw _ => (hsame.wireTarget _).trans hw
  · exact fun o _ w hw => ⟨w, (hsame.wireTarget _).trans hw⟩
  · intro o ho
    rw [hr] at ho
    exact (hwaits o ho).imp_left fun ⟨seq, hseq⟩ => ⟨seq, (hsame.status _).trans hseq⟩

/-- A create enters the registry. -/
theorem register (h : s.Tracks is held due) (type : TypeId) :
    Tracks { s with registry := (s.registry.register type).2 } is held due := by
  refine h.withRegistry (Registry.Sends.register s.registry type).later (fun _ ho => ho) h.distinct (fun _ ho => .inl ho) ?_ ?_ ?_
  · exact fun o _ w hw _ => Registry.wireTarget_register hw
  · exact fun o _ w hw => ⟨w, Registry.wireTarget_register hw⟩
  · exact fun o ho => (h.waits o ho).imp_left fun ⟨seq, hseq⟩ => ⟨seq, Registry.status_register hseq⟩

/-- Other nodes that wait on the same batch may be due as well. -/
theorem mono {due' : List PendingId} (h : s.Tracks is held due) (hdue : ∀ q ∈ due, q ∈ due') :
    s.Tracks is held due' :=
  { h with waits := fun o ho => (h.waits o ho).imp_right (hdue o.target) }

/-- What has been closed says nothing about the open buffer. -/
theorem withOutbox (h : s.Tracks is held due) {batches : List Batch} (hbatches : ∀ b ∈ batches, Sealed s.schema b.bytes) :
    Tracks { s with outbox := batches } is held due := by
  have halike : s.Alike { s with outbox := batches } := ⟨rfl, rfl, rfl, rfl⟩
  refine ⟨h.bytes, h.max, h.room, h.within, h.distinct, fun o ho hpos => ?_, fun it hit => ?_, h.known,
    fun o ho => (h.sendable o ho).congr halike, h.waits, h.canonical, hbatches⟩
  · obtain ⟨it, hit, hmarks, howner⟩ := h.stands o ho hpos
    exact ⟨it, hit, hmarks.congr halike, howner⟩
  · obtain ⟨o, hmarks, ho⟩ := h.accounted it hit
    exact ⟨o, hmarks.congr halike, ho⟩

end Tracks

end Session

end NodeStore.Write
