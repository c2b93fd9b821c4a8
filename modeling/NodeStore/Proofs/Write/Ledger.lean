import NodeStore.Proofs.Write.Attempts

/-!
# The ledger of a session

A ledger goes along with a session and keeps what its writes append: a segment for each write, in the order of the
writes, under the batch that it left with or in the open buffer.

* `Segment`, `Ledger`: what is kept; `Written`: the bytes of a buffer.
* `Logs`: what one step of a session enters; `Logged`: the ledgers of sessions.
* `Logged.call`: every call takes such steps.
* `Bounded`, `Counted`: the sizes and the numbers of batches; `logged_batches`: writes keep together.
-/

namespace NodeStore.Write

namespace Session

/-- A write that went into a buffer: the handle that it answered, if it is a create, and the instructions that it
appended. -/
structure Segment where
  call : WriteCall
  plan : Plan
  made : Option PendingId
  instrs : List Instr

/-- The instructions of some segments. -/
def stream (segs : List Segment) : List Instr := segs.flatMap (·.instrs)

/-- The handles of the nodes that some segments create. -/
def handles (segs : List Segment) : List PendingId := segs.filterMap (·.made)

@[simp] theorem stream_append (segs segs' : List Segment) : stream (segs ++ segs') = stream segs ++ stream segs' :=
  List.flatMap_append

@[simp] theorem handles_append (segs segs' : List Segment) : handles (segs ++ segs') = handles segs ++ handles segs' :=
  List.filterMap_append

/-- The segments of the batches that have been handed out, of those that wait for that, and of the open buffer. -/
structure Ledger where
  handed : List (Batch × List Segment)
  waiting : List (Batch × List Segment)
  current : List Segment

namespace Ledger

def empty : Ledger := ⟨[], [], []⟩

/-- All batches, the oldest first. -/
def closed (l : Ledger) : List (Batch × List Segment) := l.handed ++ l.waiting

/-- The open buffer becomes a batch. -/
def close (l : Ledger) (b : Batch) : Ledger := ⟨l.handed, l.waiting ++ [(b, l.current)], []⟩

/-- A segment goes into the open buffer. -/
def write (l : Ledger) (seg : Segment) : Ledger := ⟨l.handed, l.waiting, l.current ++ [seg]⟩

/-- The batches are handed out. -/
def handOut (l : Ledger) : Ledger := ⟨l.handed ++ l.waiting, [], l.current⟩

@[simp] theorem closed_close (l : Ledger) (b : Batch) : (l.close b).closed = l.closed ++ [(b, l.current)] :=
  (List.append_assoc ..).symm

@[simp] theorem closed_write (l : Ledger) (seg : Segment) : (l.write seg).closed = l.closed := rfl

@[simp] theorem closed_handOut (l : Ledger) : l.handOut.closed = l.closed := List.append_nil _

end Ledger

/-- The bytes of a buffer are those of its segments, one behind the other, but for placeholders that were settled in
between. -/
inductive Written : List Segment → Bytes → Prop
  | nil : Written [] []
  | write {segs : List Segment} {bs : Bytes} (h : Written segs bs) (seg : Segment) :
      Written (segs ++ [seg]) (bs ++ encodeAll seg.instrs)
  | patch {segs : List Segment} {e : Encoder} (h : Written segs e.buffer.bytes) (pos : Nat) (id : NodeId) :
      Written segs (e.patchPlaceholder pos id).buffer.bytes

/-- The batch that the open buffer becomes. -/
def batch (s : Session) : Batch := ⟨s.nextSeq, s.encoder.buffer.bytes, s.registry.buffered.length⟩

end Session

/-- Answers to batches are noted: no node is new, and none is buffered again. -/
structure Registry.Keeps (r r' : Registry) : Prop where
  later : r.Later r'
  length : r'.entries.length = r.entries.length
  buffered : r'.buffered = r.buffered
  flight : ∀ seq ps, Assoc.find? seq r'.inFlight = some ps → Assoc.find? seq r.inFlight = some ps
  status : ∀ p tmp, r'.status p = .ok (.buffered tmp) → r.status p = .ok (.buffered tmp)
  obligations : ∀ o ∈ r'.obligations, o ∈ r.obligations

namespace Registry

variable {r r' : Registry}

theorem keeps_takeInFlight (hsorted : Assoc.Sorted r.inFlight) (seq : Nat) : r.Keeps (r.takeInFlight seq).2 where
  later := (Sends.of_entries rfl).later
  length := rfl
  buffered := rfl
  flight seq' ps h := by
    have hfind := Assoc.find?_erase hsorted seq' seq
    by_cases hseq : seq' = seq
    · rw [if_pos hseq] at hfind
      cases hfind.symm.trans h
    · rw [if_neg hseq] at hfind
      exact hfind.symm.trans h
  status _ _ h := h
  obligations _ h := h

theorem Resolves.keeps {pairs : List (PendingId × NodeId)} (h : Resolves pairs r r') : r.Keeps r' where
  later := h.later
  length := h.length
  buffered := h.batches.1
  flight seq ps hps := by rwa [h.batches.2] at hps
  status p tmp hp := by
    rcases h.cases p with hs | ⟨id, hid⟩
    · exact hs.symm.trans hp
    · rw [(h.resolved p id hid).2] at hp
      cases hp
  obligations o ho := by rwa [h.obligations] at ho

theorem Fails.keeps (h : Fails r r') : r.Keeps r' where
  later := h.later
  length := h.length
  buffered := h.batches.1
  flight seq ps hps := by rwa [h.batches.2] at hps
  status p tmp hp := by
    rcases h.cases p with hs | ⟨f, hf⟩
    · exact hs.symm.trans hp
    · rw [hf] at hp
      cases hp
  obligations _ ho := h.sublist.subset ho

theorem keeps_takeQueue (r : Registry) (p : PendingId) : r.Keeps (r.takeQueue p).2 where
  later := (Sends.takeQueue r p).later
  length := length_entries_modifyEntry ..
  buffered := (modifyEntry_batches ..).1
  flight seq ps h := by rwa [show (r.takeQueue p).2.inFlight = r.inFlight from (modifyEntry_batches ..).2] at h
  status q tmp h := ((SameStates.takeQueue r p).status q).symm.trans h
  obligations o h := by rwa [show (r.takeQueue p).2.obligations = r.obligations from modifyEntry_obligations ..] at h

theorem keeps_takeObligations (r : Registry) (p : PendingId) : r.Keeps (r.takeObligations p).2 where
  later := (Sends.of_entries rfl).later
  length := rfl
  buffered := rfl
  flight _ _ h := h
  status _ _ h := h
  obligations _ h := (List.mem_filter.1 h).1

end Registry

namespace Session

/-- What a plan asks of a buffer: its node first, which a create makes, and then its fields. -/
def Plan.Makes (c : Context) (rs : List Request) : Plan → Prop
  | create t fields => ∃ rest, rs = .create t.id c.registry.nextTmp :: rest ∧ ∀ r ∈ rest, r.Fills c fields
  | write type target _ change => ∃ wire node rest, c.registry.wireTarget target = .ok wire ∧ wire.node? = some node ∧
    rs = .select type node :: rest ∧ ∀ r ∈ rest, r.Fills c change.fields

/-- One step of a session, and what it enters into the ledger. -/
inductive Logs (s : Session) (l : Ledger) : Session → Ledger → Prop
  | close (hbuffer : s.encoder.buffer.isEmpty = false) : Logs s l s.close (l.close s.batch)
  /-- The instructions of a write go into the open buffer. -/
  | write {s' : Session} {w : WriteCall} {plan : Plan} {made : Option PendingId} {rs : List Request}
      (hplan : w.plan s = .ok plan) (hno : ¬w.Overflows s) (hact : w.act s = .ok made s')
      (hmakes : plan.Makes s.context rs) (htook : s.encoder.Took s'.encoder rs) :
      Logs s l s' (l.write ⟨w, plan, made, (aimedAll s.encoder.cursor rs).map (·.instr)⟩)
  /-- A write has to wait for the id of its node. -/
  | queue {w : WriteCall} {p : PendingId} {op : QueuedOp}
      (hact : w.act s = .ok none { s with registry := s.registry.queue p op }) :
      Logs s l { s with registry := s.registry.queue p op } l
  | handOut : Logs s l { s with outbox := [] } l.handOut
  /-- An answer to a batch is noted. -/
  | note {r : Registry} (h : s.registry.Keeps r) : Logs s l { s with registry := r } l
  /-- A placeholder is settled in place. -/
  | patch {pos : Nat} (hpos : pos + 5 ≤ s.maxBuffer) (id : NodeId) :
      Logs s l { s with encoder := s.encoder.patchPlaceholder pos id } l

/-- The ledgers of the sessions that steps lead to. -/
inductive Logged (schema : SchemaLayout) (options : Options) : Session → Ledger → Prop
  | start {s : Session} (h : Session.start schema options = .ok s) : Logged schema options s .empty
  | step {s s' : Session} {l l' : Ledger} (h : Logged schema options s l) (hstep : Logs s l s' l') :
      Logged schema options s' l'

/-! ### Writes as steps -/

section

variable {s s' : Session} {l l' : Ledger} {w : WriteCall} {plan : Plan} {made : Option PendingId}

/-- What a plan has done once it succeeds. -/
theorem Plan.action_cases (hs : s.schema.Placed) (h : plan.Fits s.schema) {c : Context} {waits : Option PendingId}
    {d d' : Draft} (hok : plan.action c d = .ok waits d') :
    (waits = none ∧ ∃ rs, plan.Makes c rs ∧ d.encoder.Took d'.encoder rs) ∨
      ∃ p type target op change, waits = some p ∧ d' = d ∧ plan = .write type target op change := by
  cases plan with
  | create t fields =>
    change ((fun _ => none) <$> _ : EncodeM (Option PendingId)) d = _ at hok
    rw [← bind_pure_comp] at hok
    obtain ⟨_, d₂, hok, hnone⟩ := EStateM.bind_eq_ok.1 hok
    cases hnone
    obtain ⟨_, d₁, hcreate, hwrite⟩ := EStateM.bind_eq_ok.1 hok
    obtain ⟨rest, hrest, htook⟩ := writeCreate_asks c t fields d₁
    rw [leaves_of_ok hwrite] at htook
    exact .inl ⟨rfl, _, ⟨rest, rfl, hrest⟩, ((createNode_does t.id c.registry.nextTmp).took hcreate).trans htook⟩
  | write type target op change =>
    rcases writeTo_eq_ok hok with ⟨p, rfl, -, rfl⟩ | ⟨rfl, wire, node, d₁, hwire, hnode, hselect, hwrite⟩
    · exact .inr ⟨p, type, target, op, change, rfl, rfl, rfl⟩
    · obtain ⟨rest, hrest, htook⟩ := change.asks hs h c d₁
      rw [leaves_of_ok hwrite] at htook
      have hfirst := (selectNode_does type (WireTarget.node?_ne_link hnode)).took hselect
      exact .inl ⟨rfl, _, ⟨wire, node, rest, hwire, hnode, rfl, hrest⟩, hfirst.trans htook⟩

/-- A write that succeeds without overflow was tried once. -/
theorem WriteCall.act_eq_ok (hno : ¬w.Overflows s) (h : w.act s = .ok made s') :
    ∃ plan waits hs enc, w.plan s = .ok plan ∧ plan.action s.context ⟨s.encoder, []⟩ = .ok waits ⟨enc, hs⟩ ∧
      (made, s') = plan.finish waits hs { s with encoder := enc } := by
  cases hplan : w.plan s with
  | error e =>
    rw [act_of_invalid hplan] at h
    cases h
  | ok plan =>
    rw [act_eq hplan, Plan.perform] at h
    rcases run_of_not_full fun _ => isEmpty_of_full hno hplan with
      ⟨⟨⟨waits, hs⟩, s₁⟩, hattempt, hrun⟩ | ⟨e₁, e₂, -, hrun⟩
    · rw [hrun] at h
      cases h
      obtain ⟨enc, hact, rfl⟩ := attempt_eq_ok.1 hattempt
      exact ⟨plan, waits, hs, enc, rfl, hact, rfl⟩
    · rw [hrun] at h
      cases h

theorem Plan.encoder_finish (plan : Plan) (waits : Option PendingId) (hs : List Placeholder) (s : Session) :
    (plan.finish waits hs s).2.encoder = s.encoder := by
  cases plan with
  | create => rfl
  | write => cases waits <;> rfl

/-- A write that succeeds without overflow is appended to the open buffer, or it is put behind a create. -/
theorem WriteCall.ok_cases (hc : s.Compiled) (hno : ¬w.Overflows s) (h : w.act s = .ok made s') :
    (∃ plan rs, w.plan s = .ok plan ∧ plan.Makes s.context rs ∧ s.encoder.Took s'.encoder rs) ∨
      made = none ∧ ∃ p op, s' = { s with registry := s.registry.queue p op } := by
  obtain ⟨plan, waits, hs, enc, hplan, hok, hfinish⟩ := act_eq_ok hno h
  have hs' : s' = (plan.finish waits hs { s with encoder := enc }).2 := congrArg Prod.snd hfinish
  rcases Plan.action_cases hc.placed (plan_fits hc hplan) hok with
    ⟨rfl, rs, hmakes, htook⟩ | ⟨p, type, target, op, change, rfl, hd, rfl⟩
  · have henc : s'.encoder = enc := by rw [hs', Plan.encoder_finish]
    rw [← henc] at htook
    exact .inl ⟨plan, rs, hplan, hmakes, htook⟩
  · cases hd
    obtain ⟨rfl, rfl⟩ := Prod.mk.inj hfinish
    exact .inr ⟨rfl, p, op, rfl⟩

variable {schema : SchemaLayout} {options : Options}

/-- A write takes one step behind the overflow, if there is one; one that fails takes none. -/
theorem Logged.write (hc : s.Compiled) (h : Logged schema options s l) (w : WriteCall) :
    ∃ l', Logged schema options (after w.act s) l' ∧ l'.handed = l.handed := by
  have hstep : ∀ {s : Session} {l : Ledger}, s.Compiled → ¬w.Overflows s → Logged schema options s l →
      ∃ l', Logged schema options (after w.act s) l' ∧ l'.handed = l.handed := by
    intro s l hc hno h
    cases hact : w.act s with
    | error e s' =>
      rw [after_of_error hact, WriteCall.unchanged_of_error hno hact]
      exact ⟨l, h, rfl⟩
    | ok made s' =>
      rw [after_of_ok hact]
      rcases WriteCall.ok_cases hc hno hact with ⟨plan, rs, hplan, hmakes, htook⟩ | ⟨rfl, p, op, rfl⟩
      · exact ⟨_, h.step (.write hplan hno hact hmakes htook), rfl⟩
      · exact ⟨l, h.step (.queue hact), rfl⟩
  by_cases hover : w.Overflows s
  · have hafter : after w.act s = after w.act s.close := by
      unfold after
      rw [WriteCall.act_of_overflows hover]
    obtain ⟨plan, -, hbuffer, -⟩ := id hover
    rw [hafter]
    exact hstep (l := l.close s.batch) (hc.congr (alike_close s)) (not_overflows_of_empty (isEmpty_close s))
      (h.step (.close hbuffer))
  · exact hstep hc hover h

/-! ### What every step keeps -/

theorem after_return {α β : Type} (x : SessionM α) (f : α → β) (s : Session) :
    after (do return f (← x)) s = after x s := by
  cases h : x s with
  | error e s' => exact (after_of_error (EStateM.bind_of_error h)).trans (after_of_error h).symm
  | ok a s' => exact (after_bind_of_ok h).trans (after_of_ok h).symm

theorem WriteCall.called (hc : s.Compiled) (w : WriteCall) : s.Called (after w.act s) := by
  cases w with
  | create type record =>
    rw [act, after_return]
    exact create_called hc type record
  | update type target record =>
    rw [act, after_return]
    exact called_of_typeNamed type fun t => (updateNode_wrote hc record).called
  | delete type target =>
    rw [act, after_return]
    exact called_of_typeNamed type fun t => (deleteNode_wrote s).called
  | count type target field amount decrement =>
    rw [act, after_return]
    exact called_of_typeNamed type fun t => (countNode_wrote hc field amount decrement).called
  | replay type id op =>
    rw [act, after_return]
    exact (replay_wrote hc id op).called
  | followUp o id =>
    rw [act, after_return]
    exact (updateNode_wrote hc _).called

theorem Logs.alike (hc : s.Compiled) (h : Logs s l s' l') : s.Alike s' := by
  cases h with
  | close => exact alike_close s
  | write hplan hno hact =>
    rw [← after_of_ok hact]
    exact (WriteCall.called hc _).follows.alike
  | queue | handOut | note | patch => exact ⟨rfl, rfl, rfl, rfl⟩

variable {decl : SchemaDecl} {priority : Priority}

theorem Logged.compiled (hschema : decl.compile priority = .ok schema) (h : Logged schema options s l) :
    s.Compiled ∧ s.schema = schema ∧ s.maxBuffer = options.maxBuffer ∧ s.lenient = options.lenient := by
  induction h with
  | start h =>
    obtain ⟨hs, hmax, hlenient, -⟩ := started_of_start h
    refine ⟨⟨?_, ?_, ?_⟩, hs, hmax, hlenient⟩ <;> rw [hs]
    · exact compile_placed hschema
    · exact compile_addressed hschema
    · exact compile_packed hschema
  | step _ hstep ih =>
    have halike := hstep.alike ih.1
    exact ⟨ih.1.congr halike, halike.schema.trans ih.2.1, halike.maxBuffer.trans ih.2.2.1,
      halike.lenient.trans ih.2.2.2⟩

/-! ### Sizes -/

/-- The open buffer keeps to the capacity, and so do the positions of placeholders in it. -/
structure Bounded (s : Session) : Prop where
  max : s.encoder.buffer.max = some s.maxBuffer
  room : s.encoder.buffer.length ≤ s.maxBuffer
  marks : ∀ o ∈ s.registry.obligations, ∀ pos, o.pos = some pos → pos + 5 ≤ s.maxBuffer

theorem bounded_close (h : s.Bounded) : s.close.Bounded := by
  cases hbuffer : s.encoder.buffer.isEmpty with
  | true => rwa [close_of_empty hbuffer]
  | false =>
    rw [close_of_nonempty hbuffer]
    refine ⟨h.max, Nat.zero_le _, fun o ho pos hpos => ?_⟩
    obtain ⟨o', -, rfl⟩ := List.mem_map.1 ho
    cases hpos

theorem Move.bounded (h : s.Bounded) (hmove : s.Move s') : s'.Bounded := by
  cases hmove with
  | @write owner type wire node enc hs js howner hnode happ =>
    rw [Registry.foldl_oblige]
    have hroom := happ.room s.maxBuffer h.max h.room
    refine ⟨happ.max.trans h.max, hroom, fun o ho pos hpos => ?_⟩
    rcases List.mem_append.1 ho with ho | ho
    · exact h.marks o ho pos hpos
    · obtain ⟨x, hx, rfl⟩ := List.mem_map.1 ho
      obtain ⟨sel, hsel⟩ := s.encoder.cursor.exists_within
      obtain ⟨it, hit, hnotes⟩ := exists_of_forall₂_left (happ.stand sel hsel) hx
      have hstands := pos_of_mem_itemsFrom (mem_deferred.1 hit).1
      have hlength : 5 ≤ it.entry.encode.length := by simp [RefEntry.encode, length_leBytes]
      have hpos : it.pos = pos := Option.some.inj (hnotes.marks.pos.symm.trans hpos)
      have hbytes : Draft.length ⟨enc, hs⟩ = Draft.length ⟨s.encoder, []⟩ + (encodeAll js).length := by
        rw [Draft.length, happ.bytes, List.length_append]
        rfl
      dsimp only
      omega
  | register type => exact ⟨h.max, h.room, h.marks⟩
  | queue p op =>
    refine ⟨h.max, h.room, fun o ho => h.marks o ?_⟩
    rwa [show (s.registry.queue p op).obligations = s.registry.obligations from
      Registry.modifyEntry_obligations ..] at ho

theorem Called.bounded (h : s.Bounded) (hcalled : s.Called s') : s'.Bounded := by
  obtain ⟨s₀, hopened, hmoves⟩ := hcalled
  have hs₀ : s₀.Bounded := by
    rcases hopened with rfl | ⟨-, rfl⟩
    · exact h
    · exact bounded_close h
  induction hmoves with
  | refl => exact hs₀
  | tail _ hmove ih => exact hmove.bounded ih

theorem Bytes.length_overwrite_le (pos : Nat) (new bs : Bytes) :
    (Bytes.overwrite pos new bs).length ≤ max bs.length (pos + new.length) := by
  simp only [Bytes.overwrite, List.length_append, List.length_take, List.length_drop]
  omega

theorem length_patchPlaceholder (e : Encoder) (pos : Nat) (id : NodeId) :
    (e.patchPlaceholder pos id).buffer.length ≤ max e.buffer.length (pos + 5) := by
  have hflags := Bytes.length_overwrite_le pos [(e.buffer.bytes[pos]?.getD 0) &&& ~~~RefEntry.deferredFlag] e.buffer.bytes
  have hid := Bytes.length_overwrite_le (pos + 1) (leBytes 4 id.toNat)
    (Bytes.overwrite pos [(e.buffer.bytes[pos]?.getD 0) &&& ~~~RefEntry.deferredFlag] e.buffer.bytes)
  simp only [List.length_singleton, length_leBytes] at hflags hid
  change List.length (Bytes.overwrite (pos + 1) _ (Bytes.overwrite pos _ _)) ≤ max e.buffer.bytes.length _
  omega

theorem Logs.bounded (hc : s.Compiled) (hs : s.Bounded) (h : Logs s l s' l') : s'.Bounded := by
  cases h with
  | close => exact bounded_close hs
  | write hplan hno hact =>
    rw [← after_of_ok hact]
    exact (WriteCall.called hc _).bounded hs
  | queue hact =>
    rw [← after_of_ok hact]
    exact (WriteCall.called hc _).bounded hs
  | handOut => exact ⟨hs.max, hs.room, hs.marks⟩
  | note hkeeps => exact ⟨hs.max, hs.room, fun o ho => hs.marks o (hkeeps.obligations o ho)⟩
  | @patch pos hpos id =>
    have hlength := length_patchPlaceholder s.encoder pos id
    have hroom := hs.room
    refine ⟨hs.max, ?_, hs.marks⟩
    change _ ≤ s.maxBuffer
    dsimp only
    omega

theorem Logged.bounded (hschema : decl.compile priority = .ok schema) (h : Logged schema options s l) : s.Bounded := by
  induction h with
  | start h =>
    obtain ⟨-, hmax, -, hencoder, hregistry, -⟩ := started_of_start h
    exact ⟨by rw [hencoder, hmax]; rfl, by rw [hencoder]; exact Nat.zero_le _, by rw [hregistry]; exact nofun⟩
  | step h hstep ih => exact hstep.bounded (h.compiled hschema).1 ih

/-! ### Calls as steps -/

/-- The writes and the references that waited for a node are made up for in such steps. -/
theorem Logged.settle (hschema : decl.compile priority = .ok schema) (h : Logged schema options s l) (p : PendingId)
    (id : NodeId) : ∃ l', Logged schema options (after (settle p id) s) l' ∧ l'.handed = l.handed := by
  cases htype : s.registry.typeOf? p with
  | none =>
    refine ⟨l, ?_, rfl⟩
    unfold after Session.settle
    rwa [htype]
  | some type =>
    rw [after_settle htype]
    dsimp only
    let P (s' : Session) : Prop := ∃ l', Logged schema options s' l' ∧ l'.handed = l.handed
    have hqueue : P (runAll ((s.registry.takeQueue p).1.map (replay type id))
        { s with registry := (s.registry.takeQueue p).2 }).2 := by
      refine runAll_induction (P := P) (fun call hcall s' ⟨l', hl', hhanded⟩ => ?_)
        ⟨l, h.step (.note (Registry.keeps_takeQueue _ p)), rfl⟩
      obtain ⟨op, -, rfl⟩ := List.mem_map.1 hcall
      obtain ⟨l'', hl'', hhanded'⟩ := hl'.write (hl'.compiled hschema).1 (.replay type id op)
      rw [WriteCall.act, after_return] at hl''
      exact ⟨l'', hl'', hhanded'.trans hhanded⟩
    generalize (runAll _ _).2 = s₁ at hqueue ⊢
    obtain ⟨l₁, hl₁, hhanded₁⟩ := hqueue
    -- the positions of the obligations that are taken stay below the capacity, whatever is closed in between
    have hmarks : ∀ o ∈ (s₁.registry.takeObligations p).1, ∀ pos, o.pos = some pos → pos + 5 ≤ options.maxBuffer := by
      intro o ho pos hpos
      rw [← (hl₁.compiled hschema).2.2.1]
      exact (hl₁.bounded hschema).marks o (List.mem_filter.1 ho).1 pos hpos
    refine runAll_induction (P := P) (fun call hcall s' ⟨l', hl', hhanded⟩ => ?_)
      ⟨l₁, hl₁.step (.note (Registry.keeps_takeObligations _ p)), hhanded₁⟩
    obtain ⟨o, ho, rfl⟩ := List.mem_map.1 hcall
    unfold settleObligation
    cases hpos : o.pos with
    | some pos =>
      have hfits : pos + 5 ≤ s'.maxBuffer := by
        rw [(hl'.compiled hschema).2.2.1]
        exact hmarks o ho pos hpos
      exact ⟨l', hl'.step (.patch hfits id), hhanded⟩
    | none =>
      obtain ⟨l'', hl'', hhanded'⟩ := hl'.write (hl'.compiled hschema).1 (.followUp o id)
      rw [WriteCall.act, after_return] at hl''
      exact ⟨l'', hl'', hhanded'.trans hhanded⟩

theorem Logged.acknowledge (hschema : decl.compile priority = .ok schema) (h : Logged schema options s l)
    (hsorted : Assoc.Sorted s.registry.inFlight) (seq : Nat) (result : Except Engine.Error (List NodeId)) :
    ∃ l', Logged schema options (after (acknowledge seq result) s) l' ∧ l'.handed = l.handed := by
  cases hfind : Assoc.find? seq s.registry.inFlight with
  | none =>
    rw [after_acknowledge_unknown hfind]
    exact ⟨l, h, rfl⟩
  | some creates =>
    have htaken := h.step (.note (Registry.keeps_takeInFlight hsorted seq))
    cases hresult : refusal seq creates.length result with
    | some error =>
      rw [after_acknowledge_refused hfind hresult]
      exact ⟨l, htaken.step (.note (Registry.foldl_fail_spec (.batch seq error) creates _).keeps), rfl⟩
    | none =>
      obtain ⟨ids, -, -, hafter⟩ := after_acknowledge_accepted hfind hresult
      rw [hafter]
      dsimp only
      refine runAll_induction (P := fun s' => ∃ l', Logged schema options s' l' ∧ l'.handed = l.handed)
        (fun call hcall s' ⟨l', hl', hhanded⟩ => ?_)
        ⟨l, htaken.step (.note (Registry.resolveAll_spec (creates.zip ids) _).keeps), rfl⟩
      obtain ⟨⟨p, id⟩, -, rfl⟩ := List.mem_map.1 hcall
      obtain ⟨l'', hl'', hhanded'⟩ := hl'.settle hschema p id
      exact ⟨l'', hl'', hhanded'.trans hhanded⟩

theorem Logged.close (h : Logged schema options s l) : ∃ l', Logged schema options s.close l' ∧ l'.handed = l.handed := by
  cases hbuffer : s.encoder.buffer.isEmpty with
  | true =>
    rw [close_of_empty hbuffer]
    exact ⟨l, h, rfl⟩
  | false => exact ⟨_, h.step (.close hbuffer), rfl⟩

/-! ### Numbers of batches -/

/-- The batches that wait to be handed out are those of the session, and all are numbered from 1 on. Batches and the open
buffer hold their segments. -/
structure Counted (s : Session) (l : Ledger) : Prop where
  outbox : l.waiting.map (·.1) = s.outbox
  seqs : l.closed.map (·.1.seq) = List.range' 1 l.closed.length
  next : s.nextSeq = l.closed.length + 1
  batches : ∀ x ∈ l.closed, x.1.bytes ≠ [] ∧ x.1.bytes.length ≤ s.maxBuffer ∧ Written x.2 x.1.bytes
  current : Written l.current s.encoder.buffer.bytes

theorem Logs.counted (hb : s.Bounded) (hs : s.Counted l) (h : Logs s l s' l') : s'.Counted l' := by
  cases h with
  | close hbuffer =>
    rw [close_of_nonempty hbuffer]
    refine ⟨?_, ?_, ?_, fun x hx => ?_, .nil⟩
    · rw [Ledger.close, List.map_append, hs.outbox]
      rfl
    · rw [Ledger.closed_close, List.map_append, hs.seqs, List.length_append, List.length_singleton, List.range'_concat]
      simp [batch, hs.next, Nat.add_comm]
    · rw [Ledger.closed_close, List.length_append, List.length_singleton, ← hs.next]
    · rw [Ledger.closed_close] at hx
      rcases List.mem_append.1 hx with hx | hx
      · exact hs.batches x hx
      · rw [List.mem_singleton.1 hx]
        exact ⟨fun hnil => by simp [Buffer.isEmpty, batch] at hnil hbuffer; exact hbuffer hnil, hb.room, hs.current⟩
  | @write s' w plan made rs hplan hno hact hmakes htook =>
    obtain ⟨plan', waits, hs', enc, -, -, hfinish⟩ := WriteCall.act_eq_ok hno hact
    have hsame : s'.outbox = s.outbox ∧ s'.nextSeq = s.nextSeq ∧ s'.maxBuffer = s.maxBuffer := by
      rw [show s' = _ from congrArg Prod.snd hfinish]
      cases plan' with
      | create => exact ⟨rfl, rfl, rfl⟩
      | write => cases waits <;> exact ⟨rfl, rfl, rfl⟩
    refine ⟨hs.outbox.trans hsame.1.symm, hs.seqs, hsame.2.1.trans hs.next, by rw [hsame.2.2]; exact hs.batches, ?_⟩
    rw [htook.bytes]
    exact hs.current.write _
  | queue | note => exact ⟨hs.outbox, hs.seqs, hs.next, hs.batches, hs.current⟩
  | patch hpos id => exact ⟨hs.outbox, hs.seqs, hs.next, hs.batches, hs.current.patch _ id⟩
  | handOut =>
    refine ⟨rfl, ?_, ?_, ?_, hs.current⟩
    · rw [Ledger.closed_handOut]
      exact hs.seqs
    · rw [Ledger.closed_handOut]
      exact hs.next
    · rw [Ledger.closed_handOut]
      exact hs.batches

theorem Logged.counted (hschema : decl.compile priority = .ok schema) (h : Logged schema options s l) : s.Counted l := by
  induction h with
  | start h =>
    obtain ⟨-, -, -, hencoder, -, houtbox, hnext⟩ := started_of_start h
    exact ⟨houtbox.symm, rfl, hnext, nofun, by rw [hencoder]; exact .nil⟩
  | step h hstep ih => exact hstep.counted (h.bounded hschema) ih

/-- To hand the batches out closes the open buffer first. -/
theorem Logged.drain (hschema : decl.compile priority = .ok schema) (h : Logged schema options s l) :
    ∃ l', Logged schema options s.drain.2 l' ∧ l'.handed.map (·.1) = l.handed.map (·.1) ++ s.drain.1 := by
  obtain ⟨l', hl', hhanded⟩ := h.close
  refine ⟨l'.handOut, hl'.step .handOut, ?_⟩
  change (l'.handed ++ l'.waiting).map (·.1) = _ ++ s.close.outbox
  rw [List.map_append, hhanded, (hl'.counted hschema).outbox]

/-- What a call hands out. -/
def Call.handsOut (s : Session) : Call → List Batch
  | .drain => s.drain.1
  | _ => []

/-- Every call takes such steps. -/
theorem Logged.call (hschema : decl.compile priority = .ok schema) (h : Logged schema options s l)
    (hsorted : Assoc.Sorted s.registry.inFlight) (c : Call) :
    ∃ l', Logged schema options (c.run s) l' ∧ l'.handed.map (·.1) = l.handed.map (·.1) ++ c.handsOut s := by
  have hc := (h.compiled hschema).1
  have hwrite : ∀ (w : WriteCall) (s' : Session), after w.act s = s' → ∃ l', Logged schema options s' l' ∧
      l'.handed.map (·.1) = l.handed.map (·.1) ++ [] := by
    rintro w _ rfl
    obtain ⟨l', hl', hhanded⟩ := h.write hc w
    exact ⟨l', hl', by rw [hhanded, List.append_nil]⟩
  cases c with
  | create type record => exact hwrite (.create type record) _ (after_return ..)
  | update type target record => exact hwrite (.update type target record) _ (after_return ..)
  | delete type target => exact hwrite (.delete type target) _ (after_return ..)
  | count type target field amount decrement =>
    exact hwrite (.count type target field amount decrement) _ (after_return ..)
  | drain => exact h.drain hschema
  | acknowledge seq result =>
    obtain ⟨l', hl', hhanded⟩ := h.acknowledge hschema hsorted seq result
    exact ⟨l', hl', by rw [hhanded]; exact (List.append_nil _).symm⟩

/-- The batches that calls hand out. -/
def handedOut (s : Session) : List Call → List Batch
  | [] => []
  | c :: cs => c.handsOut s ++ handedOut (c.run s) cs

theorem handedOut_append (s : Session) (cs cs' : List Call) :
    handedOut s (cs ++ cs') = handedOut s cs ++ handedOut (cs.foldl Call.run s) cs' := by
  induction cs generalizing s with
  | nil => rfl
  | cons c cs ih => rw [List.cons_append, handedOut, handedOut, ih, List.append_assoc, List.foldl_cons]

/-- A ledger goes along with all calls, and their batches are handed out behind all others. -/
theorem Logged.calls (hschema : decl.compile priority = .ok schema) (h : Reached schema options s)
    (hl : Logged schema options s l) (cs : List Call) :
    ∃ l', Logged schema options (cs.foldl Call.run s) l' ∧
      l'.handed.map (·.1) = l.handed.map (·.1) ++ handedOut s cs := by
  induction cs generalizing s l with
  | nil => exact ⟨l, hl, (List.append_nil _).symm⟩
  | cons c cs ih =>
    obtain ⟨l₁, hl₁, hhanded₁⟩ := hl.call hschema (reached_sound hschema h).2.sorted c
    obtain ⟨l', hl', hhanded⟩ := ih (h.call c) hl₁
    exact ⟨l', hl', by rw [hhanded, hhanded₁, handedOut, List.append_assoc]⟩

/-- Every run from the start has a ledger, with the batches that the run has handed out. -/
theorem exists_logged (hschema : decl.compile priority = .ok schema) (h : Session.start schema options = .ok s)
    (cs : List Call) : ∃ l, Logged schema options (cs.foldl Call.run s) l ∧ l.handed.map (·.1) = handedOut s cs :=
  (Logged.start h).calls hschema (.start h) cs

/-- Every session that is reached has a ledger. -/
theorem Reached.logged (hschema : decl.compile priority = .ok schema) (h : Reached schema options s) :
    ∃ l, Logged schema options s l := by
  induction h with
  | start h => exact ⟨_, .start h⟩
  | call h c ih =>
    obtain ⟨l, hl⟩ := ih
    obtain ⟨l', hl', -⟩ := hl.call hschema (reached_sound hschema h).2.sorted c
    exact ⟨l', hl'⟩

/-! ### Writes keep together -/

/-- Where a write goes: into the open buffer, or, if it overflows that, into the next one. -/
inductive WriteCall.Opens (w : WriteCall) (s : Session) (l : Ledger) : Session → Ledger → Prop
  | same (h : ¬w.Overflows s) : Opens w s l s l
  | next (h : w.Overflows s) (hcloses : s.Closes s.close) : Opens w s l s.close (l.close s.batch)

/-- A write that succeeds is one step behind the overflow, if there is one. -/
theorem WriteCall.opens (hc : s.Compiled) (h : Logged schema options s l) (hact : w.act s = .ok made s') :
    ∃ s₀ l₀, w.Opens s l s₀ l₀ ∧ Logged schema options s₀ l₀ ∧ s₀.Compiled ∧ ¬w.Overflows s₀ ∧ w.act s₀ = .ok made s' := by
  by_cases hover : w.Overflows s
  · obtain ⟨plan, -, hbuffer, -⟩ := id hover
    exact ⟨s.close, l.close s.batch, .next hover (closes_close hbuffer), h.step (.close hbuffer),
      hc.congr (alike_close s), not_overflows_of_empty (isEmpty_close s), (act_of_overflows hover).symm.trans hact⟩
  · exact ⟨s, l, .same hover, h, hc, hover, hact⟩

end

end Session

end NodeStore.Write
