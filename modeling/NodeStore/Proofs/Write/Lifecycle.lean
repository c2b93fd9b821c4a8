import NodeStore.Proofs.Engine.Runs
import NodeStore.Proofs.Schema.Addresses
import NodeStore.Proofs.Write.InFlight

/-!
# The life of created nodes

A created node is buffered, sent, and then gets its id or fails for good; no reference waits on a node that can never
get one.

* `Moves`: what one call may do to the state of a node.
* `Session.Call`, `Session.Reached`: the calls of a session, and the sessions that they lead to.
* `Registry.Falls`: the nodes that a failed batch takes down.
* `reached_settles`: the states of nodes and their obligations in every session that is reached.
-/

namespace NodeStore.Write

/-- The ways of a handle: its create is written, then sent, and gets its id or fails for good. -/
inductive Moves : Except Error PendingState → Except Error PendingState → Prop
  | stay (x : Except Error PendingState) : Moves x x
  | create (p : PendingId) (tmp : UInt32) : Moves (.error (.unknownPending p)) (.ok (.buffered tmp))
  | send (tmp : UInt32) (seq : Nat) : Moves (.ok (.buffered tmp)) (.ok (.inFlight seq))
  | resolve (seq : Nat) (id : NodeId) : Moves (.ok (.inFlight seq)) (.ok (.resolved id))
  | fail {s : PendingState} (h : s.settled = false) (f : PendingFailure) : Moves (.ok s) (.ok (.failed f))

namespace Registry

variable {r r' : Registry} {p q : PendingId} {creates : List PendingId}

/-! ### States after calls -/

theorem entry?_eq_none : r.entry? p = none ↔ p.raw = 0 ∨ r.entries.length < p.raw := by
  unfold entry?
  split
  · rename_i hp
    exact iff_of_true rfl (.inl hp)
  · rename_i hp
    rw [List.getElem?_eq_none_iff]
    omega

theorem status_of_entry?_eq_none (h : r.entry? p = none) : r.status p = .error (.unknownPending p) := by
  unfold status
  rw [h]

/-- Where no node is created, nodes are only sent. -/
theorem Sends.moves (h : r.Sends r') (hlength : r'.entries.length = r.entries.length) (p : PendingId) :
    r'.status p = r.status p ∨ ∃ tmp seq, r.status p = .ok (.buffered tmp) ∧ r'.status p = .ok (.inFlight seq) := by
  cases he : r.entry? p with
  | none =>
    have he' : r'.entry? p = none := by
      rw [ entry?_eq_none, hlength]
      exact entry?_eq_none.1 he
    exact .inl ((status_of_entry?_eq_none he').trans (status_of_entry?_eq_none he).symm)
  | some e =>
    have hstatus : r.status p = .ok e.state := status_eq_ok.2 ⟨e, he, rfl⟩
    obtain ⟨e', he', -, hs | ⟨⟨tmp, ht⟩, seq, hseq⟩⟩ := h p e he
    · exact .inl ((status_eq_ok.2 ⟨e', he', hs⟩).trans hstatus.symm)
    · exact .inr ⟨tmp, seq, by rw [hstatus, ht], status_eq_ok.2 ⟨e', he', hseq⟩⟩

/-! ### Failed batches -/

/-- The nodes that fall with a batch: its creates that have not failed yet and, step by step, whoever owns a reference
that waits on one of them and has no id. -/
inductive Falls (r : Registry) (creates : List PendingId) : PendingId → Prop
  | create {p : PendingId} (hp : p ∈ creates) (hf : ¬r.Failed p) : Falls r creates p
  | owner {p : PendingId} {o : Obligation} (ho : o ∈ r.obligations) (howner : o.owner = .pending p)
      (hid : ∀ id, r.status p ≠ .ok (.resolved id)) (htarget : Falls r creates o.target) : Falls r creates p

theorem Unsettled.not_failed (h : r.Unsettled p) : ¬r.Failed p := by
  rintro ⟨f, hf⟩
  obtain ⟨e, he, hs⟩ := h
  obtain ⟨e', he', hstate⟩ := status_eq_ok.1 hf
  rw [he] at he'
  cases he'
  rw [hstate] at hs
  cases hs

theorem Unsettled.not_resolved (h : r.Unsettled p) (id : NodeId) : r.status p ≠ .ok (.resolved id) := by
  intro hid
  obtain ⟨e, he, hs⟩ := h
  obtain ⟨e', he', hstate⟩ := status_eq_ok.1 hid
  rw [he] at he'
  cases he'
  rw [hstate] at hs
  cases hs

theorem unsettled_of_status {state : PendingState} (h : r.status p = .ok state) (hs : state.settled = false) :
    r.Unsettled p := by
  obtain ⟨e, he, rfl⟩ := status_eq_ok.1 h
  exact ⟨e, he, hs⟩

/-- In a sound registry the nodes that fall with a batch are those that its failure dooms. -/
theorem Sound.falls_iff {bound seq : Nat} {due : List PendingId} (h : r.Sound bound due)
    (hcreates : Assoc.find? seq r.inFlight = some creates) : r.Falls creates p ↔ r.Doomed creates p := by
  constructor
  · intro hp
    induction hp with
    | @create p hp hf =>
      have hflight := ((h.sent seq creates hcreates).2 p hp).resolve_right hf
      exact .root hp (unsettled_of_status hflight rfl)
    | @owner p o ho howner hid _ ih =>
      obtain ⟨w, hw⟩ := h.live o ho
      rw [howner] at hw
      obtain ⟨e, he, hs⟩ := wireTarget_pending.1 hw
      refine .owner ho howner ⟨e, he, ?_⟩ ih
      rcases hs with ⟨tmp, hs, -⟩ | ⟨seq, hs, -⟩ | ⟨id, hs, -⟩
      · rw [hs]; rfl
      · rw [hs]; rfl
      · exact absurd (status_eq_ok.2 ⟨e, he, hs⟩) (hid id)
  · intro hp
    induction hp with
    | root hp hu => exact .create hp hu.not_failed
    | owner ho howner hu _ ih => exact .owner ho howner hu.not_resolved ih

end Registry

namespace Session

variable {s s' s'' : Session} {p : PendingId} {due : List PendingId}

/-! ### Calls keep the registry sound -/

theorem Move.sound (h : s.Move s') (hs : s.registry.Sound s.nextSeq due) : s'.registry.Sound s'.nextSeq due := by
  cases h with
  | write howner hnode happ => exact hs.oblige howner _ (flight_of_appends happ)
  | register type => exact hs.register type
  | queue p op => exact hs.queue p op

theorem sound_close (hs : s.registry.Sound s.nextSeq due) : s.close.registry.Sound s.close.nextSeq due := by
  cases h : s.encoder.buffer.isEmpty with
  | true => rwa [close_of_empty h]
  | false =>
    rw [close_of_nonempty h]
    exact hs.close

theorem Called.sound (h : s.Called s') (hs : s.registry.Sound s.nextSeq due) : s'.registry.Sound s'.nextSeq due := by
  obtain ⟨s₀, hopened, hmoves⟩ := h
  have hs₀ : s₀.registry.Sound s₀.nextSeq due := by
    rcases hopened with rfl | ⟨-, rfl⟩
    · exact hs
    · exact sound_close hs
  induction hmoves with
  | refl => exact hs₀
  | tail _ hmove ih => exact hmove.sound ih

/-- A step of a call changes no state; a node that it creates is buffered. -/
theorem Move.status (h : s.Move s') (p : PendingId) : s'.registry.status p = s.registry.status p ∨
    s.registry.status p = .error (.unknownPending p) ∧ ∃ tmp, s'.registry.status p = .ok (.buffered tmp) := by
  cases h with
  | write =>
    rw [Registry.foldl_oblige]
    exact .inl ((Registry.SameStates.of_entries rfl).status p)
  | queue q op => exact .inl ((Registry.SameStates.queue s.registry q op).status p)
  | register type =>
    by_cases hp : p = (s.registry.register type).1
    · refine .inr ⟨Registry.status_of_entry?_eq_none (Registry.entry?_eq_none.2 (.inr ?_)), s.registry.nextTmp, ?_⟩
      · rw [hp]
        exact Nat.lt_succ_self _
      · rw [hp]
        exact Registry.status_register_self s.registry type
    · exact .inl (Registry.status_register_of_ne hp)

theorem status_of_moves (h : Relation.ReflTransGen Move s s') (p : PendingId) :
    s'.registry.status p = s.registry.status p ∨
      s.registry.status p = .error (.unknownPending p) ∧ ∃ tmp, s'.registry.status p = .ok (.buffered tmp) := by
  induction h with
  | refl => exact .inl rfl
  | tail _ hmove ih =>
    rcases hmove.status p with hs | ⟨hnew, hs⟩
    · rwa [hs]
    · rcases ih with hs' | ⟨-, tmp, hs'⟩
      · exact .inr ⟨hs'.symm.trans hnew, hs⟩
      · rw [hs'] at hnew
        cases hnew

theorem Opened.status (h : s.Opened s') (p : PendingId) : s'.registry.status p = s.registry.status p ∨
    ∃ tmp seq, s.registry.status p = .ok (.buffered tmp) ∧ s'.registry.status p = .ok (.inFlight seq) :=
  h.called.follows.sends.moves h.wrote.length p

theorem Called.moves (h : s.Called s') (p : PendingId) : Moves (s.registry.status p) (s'.registry.status p) := by
  obtain ⟨s₀, hopened, hmoves⟩ := h
  rcases hopened.status p with hs | ⟨tmp, seq, hs, hs₀⟩
  · rw [← hs]
    rcases status_of_moves hmoves p with hs' | ⟨hnew, tmp, hs'⟩
    · rw [hs']
      exact .stay _
    · rw [hnew, hs']
      exact .create p tmp
  · rcases status_of_moves hmoves p with hs' | ⟨hnew, -⟩
    · rw [hs', hs, hs₀]
      exact .send tmp seq
    · rw [hs₀] at hnew
      cases hnew

/-! ### Settled nodes -/

/-- The state of a session while the nodes of a batch are settled: the nodes of `due` have their ids, and references
to them may wait. -/
structure Settling (s s' : Session) (due : List PendingId) : Prop where
  continues : s.Continues s'
  length : s'.registry.entries.length = s.registry.entries.length
  sound : s'.registry.Sound s'.nextSeq due

theorem Settling.trans {due' : List PendingId} (h : s.Settling s' due) (h' : s'.Settling s'' due') :
    s.Settling s'' due' :=
  ⟨h.continues.trans h'.continues, h'.length.trans h.length, h'.sound⟩

theorem Wrote.settling (h : s.Wrote s') (hs : s.registry.Sound s.nextSeq due) : s.Settling s' due :=
  ⟨h.called.follows.toContinues, h.length, h.called.sound hs⟩

theorem runAll_cons (call : SessionM Unit) (calls : List (SessionM Unit)) (s : Session) :
    (runAll (call :: calls) s).2 = (runAll calls (after call s)).2 := by
  rw [runAll, after]
  cases call s <;> rfl

theorem runAll_induction {P : Session → Prop} {calls : List (SessionM Unit)}
    (hcalls : ∀ call ∈ calls, ∀ s, P s → P (after call s)) (hs : P s) : P (runAll calls s).2 := by
  induction calls generalizing s with
  | nil => exact hs
  | cons call calls ih =>
    rw [runAll_cons]
    exact ih (fun c hc => hcalls c (List.mem_cons_of_mem _ hc)) (hcalls call List.mem_cons_self s hs)

/-- Writes that create no node, made one after the other. -/
theorem settling_runAll (calls : List (SessionM Unit)) (hc : s.Compiled)
    (hcalls : ∀ call ∈ calls, ∀ s : Session, s.Compiled → s.registry.Sound s.nextSeq due →
      s.Settling (after call s) due)
    (hs : s.registry.Sound s.nextSeq due) : s.Settling (runAll calls s).2 due := by
  refine runAll_induction (P := fun s' => s.Settling s' due) (fun call hcall s' hs' => ?_) ⟨.refl s, rfl, hs⟩
  exact hs'.trans (hcalls call hcall s' (hc.congr hs'.continues.alike) hs'.sound)

theorem after_settle {type : TypeId} (h : s.registry.typeOf? p = some type) (id : NodeId) :
    after (settle p id) s =
      let s₁ := (runAll ((s.registry.takeQueue p).1.map (replay type id)) { s with registry := (s.registry.takeQueue p).2 }).2
      (runAll ((s₁.registry.takeObligations p).1.map (settleObligation id))
        { s₁ with registry := (s₁.registry.takeObligations p).2 }).2 := by
  unfold after settle
  rw [h]
  dsimp only
  split
  · rename_i heq
    split at heq <;> cases heq
    rfl
  · rename_i heq
    split at heq <;> cases heq
    rfl

theorem settling_settleObligation (hc : s.Compiled) (hs : s.registry.Sound s.nextSeq due) (id : NodeId)
    (o : Obligation) : s.Settling (after (settleObligation id o) s) due := by
  unfold settleObligation
  split
  · exact ⟨.of_registry (.refl _) rfl, rfl, hs⟩
  · exact (updateNode_wrote hc _).settling hs

theorem settling_obligations (hc : s.Compiled) (hs : s.registry.Sound s.nextSeq due) (id : NodeId)
    (os : List Obligation) : s.Settling (runAll (os.map (settleObligation id)) s).2 due := by
  refine settling_runAll _ hc (fun call hcall s' hc' hs' => ?_) hs
  obtain ⟨o, -, rfl⟩ := List.mem_map.1 hcall
  exact settling_settleObligation hc' hs' id o

/-- A node that has its id is settled: nothing waits on it afterwards. -/
theorem settling_settle (hc : s.Compiled) (hs : s.registry.Sound s.nextSeq (p :: due)) {id : NodeId}
    (hp : s.registry.status p = .ok (.resolved id)) : s.Settling (after (settle p id) s) due := by
  obtain ⟨e, he, -⟩ := Registry.status_eq_ok.1 hp
  have htype : s.registry.typeOf? p = some e.type := by
    unfold Registry.typeOf?
    rw [he]
    rfl
  rw [after_settle htype]
  dsimp only
  have htaken : s.Settling { s with registry := (s.registry.takeQueue p).2 } (p :: due) :=
    ⟨.of_registry (Registry.Sends.takeQueue s.registry p) (Registry.modifyEntry_batches ..).2,
      Registry.length_entries_modifyEntry .., hs.takeQueue p⟩
  have hqueue := htaken.trans (settling_runAll ((s.registry.takeQueue p).1.map (replay e.type id))
    (hc.congr htaken.continues.alike) (fun call hcall s' hc' hs' => by
      obtain ⟨op, -, rfl⟩ := List.mem_map.1 hcall
      exact (replay_wrote hc' id op).settling hs') htaken.sound)
  refine hqueue.trans ?_
  generalize (runAll _ _).2 = s₁ at hqueue ⊢
  have hdone : s₁.Settling { s₁ with registry := (s₁.registry.takeObligations p).2 } due :=
    ⟨.of_registry (.of_entries rfl) rfl, rfl, hqueue.sound.takeObligations⟩
  exact hdone.trans (settling_obligations ((hc.congr hqueue.continues.alike).congr hdone.continues.alike) hdone.sound id _)

/-- All nodes of a batch are settled, one after the other. -/
theorem settling_settleAll (pairs : List (PendingId × NodeId)) (hc : s.Compiled)
    (hs : s.registry.Sound s.nextSeq (pairs.map (·.1)))
    (hpairs : ∀ x ∈ pairs, s.registry.status x.1 = .ok (.resolved x.2)) :
    s.Settling (runAll (pairs.map fun x => settle x.1 x.2) s).2 [] := by
  induction pairs generalizing s with
  | nil => exact ⟨.refl s, rfl, hs⟩
  | cons x pairs ih =>
    have hfirst := settling_settle hc hs (hpairs x List.mem_cons_self)
    have hrest := ih (hc.congr hfirst.continues.alike) hfirst.sound fun y hy =>
      hfirst.continues.sends.later.status_resolved (hpairs y (List.mem_cons_of_mem _ hy))
    rw [List.map_cons, runAll_cons]
    exact hfirst.trans hrest

/-! ### Acknowledgments -/

/-- Why a batch of `creates` creates fails, if it does. -/
def refusal (seq creates : Nat) : Except Engine.Error (List NodeId) → Option Engine.Error
  | .error e => some e
  | .ok ids => if ids.length = creates then none else some (wrongCount seq ids.length creates)

theorem after_acknowledge_unknown {seq : Nat} (h : Assoc.find? seq s.registry.inFlight = none)
    (result : Except Engine.Error (List NodeId)) : after (acknowledge seq result) s = s := by
  unfold after acknowledge Registry.takeInFlight
  rw [h]

theorem after_acknowledge_refused {seq : Nat} {creates : List PendingId}
    (h : Assoc.find? seq s.registry.inFlight = some creates) {result : Except Engine.Error (List NodeId)}
    {error : Engine.Error} (hresult : refusal seq creates.length result = some error) :
    after (acknowledge seq result) s =
      { s with registry := creates.foldl (fun r p => r.fail p (.batch seq error)) (s.registry.takeInFlight seq).2 } := by
  unfold after acknowledge Registry.takeInFlight
  rw [h]
  cases result with
  | error e =>
    cases hresult
    rfl
  | ok ids =>
    by_cases hlength : ids.length = creates.length
    · rw [refusal, if_pos hlength] at hresult
      cases hresult
    · rw [refusal, if_neg hlength] at hresult
      cases hresult
      dsimp only
      rw [if_neg hlength]
      rfl

theorem after_acknowledge_accepted {seq : Nat} {creates : List PendingId}
    (h : Assoc.find? seq s.registry.inFlight = some creates) {result : Except Engine.Error (List NodeId)}
    (hresult : refusal seq creates.length result = none) : ∃ ids, result = .ok ids ∧ ids.length = creates.length ∧
      after (acknowledge seq result) s =
        let resolved := resolveAll (creates.zip ids) (s.registry.takeInFlight seq).2
        (runAll (resolved.1.map fun x => settle x.1 x.2) { s with registry := resolved.2 }).2 := by
  cases result with
  | error e => cases hresult
  | ok ids =>
    by_cases hlength : ids.length = creates.length
    · refine ⟨ids, rfl, hlength, ?_⟩
      unfold after acknowledge Registry.takeInFlight
      rw [h]
      dsimp only
      rw [if_pos hlength]
      generalize runAll _ _ = outcome
      obtain ⟨_ | e, s'⟩ := outcome <;> rfl
    · rw [refusal, if_neg hlength] at hresult
      cases hresult

/-- The calls of a session by its user. -/
inductive Call where
  | create (type : String) (record : Record)
  | update (type : String) (target : NodeRef) (record : Record)
  | delete (type : String) (target : NodeRef)
  | count (type : String) (target : NodeRef) (field : String) (amount : Value) (decrement : Bool)
  | drain
  | acknowledge (seq : Nat) (result : Except Engine.Error (List NodeId))

/-- The session after a call, whether the call failed or not. -/
def Call.run (s : Session) : Call → Session
  | .create type record => after (Session.create type record) s
  | .update type target record => after (Session.update type target record) s
  | .delete type target => after (Session.delete type target) s
  | .count type target field amount decrement => after (Session.count type target field amount decrement) s
  | .drain => s.drain.2
  | .acknowledge seq result => after (Session.acknowledge seq result) s

/-- Is this the answer to a batch? -/
def Call.Acknowledges (c : Call) (seq : Nat) : Prop := ∃ result, c = .acknowledge seq result

/-- The sessions that calls lead to. -/
inductive Reached (schema : SchemaLayout) (options : Options) : Session → Prop
  | start {s : Session} (h : Session.start schema options = .ok s) : Reached schema options s
  | call {s : Session} (h : Reached schema options s) (c : Call) : Reached schema options (c.run s)

/-- What one call does to a session between calls. -/
structure Steps (c : Call) (s s' : Session) : Prop where
  alike : s.Alike s'
  sound : s'.registry.Sound s'.nextSeq []
  moves : ∀ p, Moves (s.registry.status p) (s'.registry.status p)
  seq : s.nextSeq ≤ s'.nextSeq
  awaits : ∀ seq, s'.registry.Awaits seq ↔
    s.registry.Awaits seq ∧ ¬c.Acknowledges seq ∨ s.nextSeq ≤ seq ∧ seq < s'.nextSeq

theorem Called.steps (h : s.Called s') (hs : s.registry.Sound s.nextSeq []) {c : Call}
    (hc : ∀ seq, ¬c.Acknowledges seq) : Steps c s s' := by
  have hfollows := h.follows
  refine ⟨hfollows.alike, h.sound hs, h.moves, hfollows.seq, fun seq => ?_⟩
  rw [hfollows.awaits, and_iff_left (hc seq)]

theorem called_close (s : Session) : s.Called s.close := by
  cases h : s.encoder.buffer.isEmpty with
  | true =>
    rw [close_of_empty h]
    exact .refl s
  | false => exact Opened.called (.inr ⟨h, rfl⟩)

theorem drain_steps (hs : s.registry.Sound s.nextSeq []) : Steps .drain s s.drain.2 := by
  have hsteps := (called_close s).steps hs (c := .drain) fun seq => fun ⟨_, h⟩ => nomatch h
  exact ⟨⟨hsteps.alike.schema, hsteps.alike.maxBuffer, hsteps.alike.lenient, hsteps.alike.locale⟩, hsteps.sound,
    hsteps.moves, hsteps.seq, hsteps.awaits⟩

/-- The batches that are awaited once one of them is answered. -/
theorem awaits_takeInFlight (hs : s.registry.Sound s.nextSeq due) {r : Registry} {seq : Nat}
    (hflight : r.inFlight = Assoc.erase seq s.registry.inFlight) (result : Except Engine.Error (List NodeId)) (seq' : Nat) :
    r.Awaits seq' ↔ s.registry.Awaits seq' ∧ ¬(Call.acknowledge seq result).Acknowledges seq' := by
  have hanswers : (Call.acknowledge seq result).Acknowledges seq' ↔ seq' = seq := by
    constructor
    · rintro ⟨_, h⟩
      cases h
      rfl
    · rintro rfl
      exact ⟨_, rfl⟩
  unfold Registry.Awaits
  rw [hflight, Assoc.find?_erase hs.sorted, hanswers]
  by_cases hseq : seq' = seq
  · simp [hseq]
  · simp [hseq]

theorem acknowledge_refused_steps (hs : s.registry.Sound s.nextSeq []) {seq : Nat} {creates : List PendingId}
    (h : Assoc.find? seq s.registry.inFlight = some creates) {result : Except Engine.Error (List NodeId)}
    {error : Engine.Error} (hresult : refusal seq creates.length result = some error) :
    Steps (.acknowledge seq result) s (after (acknowledge seq result) s) := by
  rw [after_acknowledge_refused h hresult]
  have hfails := Registry.foldl_fail_spec (.batch seq error) creates (s.registry.takeInFlight seq).2
  have hreaches := Registry.foldl_fail_reaches seq error (s.registry.takeInFlight seq).2 creates
  generalize creates.foldl (fun r p => r.fail p (.batch seq error)) (s.registry.takeInFlight seq).2 = r
    at hfails hreaches ⊢
  have hlater : s.registry.Later r := (Registry.Sends.of_entries rfl).later.trans hfails.later
  simp only [Registry.doomed_takeInFlight] at hreaches
  refine ⟨⟨rfl, rfl, rfl, rfl⟩, hs.acknowledged h hlater hfails.batches.1 hfails.batches.2 (fun p => ?_)
    (fun p hp seq' hseq' => ?_) (fun o ho => ?_) (fun o ho => ?_), fun p => ?_, Nat.le_refl _, fun seq' => ?_⟩
  · by_cases hp : s.registry.Doomed creates p
    · obtain ⟨f, hf, -⟩ := (hreaches p).1 hp
      exact .inr (.inl ⟨f, hf⟩)
    · exact .inl ((hreaches p).2 hp)
  · rcases (hs.sent seq creates h).2 p hp with hflight | hfailed
    · obtain ⟨f, hf, -⟩ := (hreaches p).1 (.root hp (Registry.unsettled_of_status hflight rfl))
      rw [hf] at hseq'
      cases hseq'
    · obtain ⟨f, hf⟩ := hfailed.later hlater
      rw [hf] at hseq'
      cases hseq'
  · obtain ⟨seq', hseq'⟩ := (hs.waits o (hfails.sublist.subset ho)).resolve_right List.not_mem_nil
    exact .inl ⟨seq', (hfails.target o ho).trans hseq'⟩
  · obtain ⟨w, hw⟩ := hs.live o (hfails.sublist.subset ho)
    exact ⟨w, (hfails.owner o ho).trans hw⟩
  · by_cases hp : s.registry.Doomed creates p
    · obtain ⟨f, hf, -⟩ := (hreaches p).1 hp
      obtain ⟨e, he, hstate⟩ := hp.unsettled
      rw [hf, Registry.status_eq_ok.2 ⟨e, he, rfl⟩]
      exact .fail hstate f
    · rw [(hreaches p).2 hp]
      exact .stay _
  · rw [awaits_takeInFlight hs hfails.batches.2 result]
    exact (or_iff_left (by dsimp only; omega)).symm

/-- Once a batch is accepted, its nodes have their ids and references to them are due. -/
theorem resolveAll_sound (hs : s.registry.Sound s.nextSeq []) {seq : Nat} {creates : List PendingId}
    (h : Assoc.find? seq s.registry.inFlight = some creates) {ids : List NodeId} (hlength : ids.length = creates.length) :
    let resolved := resolveAll (creates.zip ids) (s.registry.takeInFlight seq).2
    resolved.2.Sound s.nextSeq (resolved.1.map (·.1)) := by
  dsimp only
  have hresolves := Registry.resolveAll_spec (creates.zip ids) (s.registry.takeInFlight seq).2
  have hsub := Registry.resolveAll_sublist (creates.zip ids) (s.registry.takeInFlight seq).2
  have hsettled : ∀ p ∈ creates, ∀ seq',
      (resolveAll (creates.zip ids) (s.registry.takeInFlight seq).2).2.status p ≠ .ok (.inFlight seq') := by
    intro p hp
    obtain ⟨i, hi, rfl⟩ := List.getElem_of_mem hp
    have hmem : (creates[i], ids[i]) ∈ creates.zip ids := by
      rw [← List.getElem_zip (h := by rw [List.length_zip]; omega)]
      exact List.getElem_mem _
    exact Registry.not_inFlight_resolveAll hmem _
  generalize resolveAll (creates.zip ids) (s.registry.takeInFlight seq).2 = resolved at hresolves hsub hsettled ⊢
  obtain ⟨pairs, r⟩ := resolved
  have hlater : s.registry.Later r := (Registry.Sends.of_entries rfl).later.trans hresolves.later
  refine hs.acknowledged h hlater hresolves.batches.1 hresolves.batches.2 (fun p => ?_) hsettled (fun o ho => ?_)
    fun o ho => ?_
  · rcases hresolves.cases p with hp | ⟨id, hid⟩
    · exact .inl hp
    · exact .inr (.inr ⟨(List.of_mem_zip (hsub.subset hid)).1, id, (hresolves.resolved p id hid).2⟩)
  · rw [hresolves.obligations] at ho
    obtain ⟨seq', hseq'⟩ := (hs.waits o ho).resolve_right List.not_mem_nil
    rcases hresolves.cases o.target with hp | ⟨id, hid⟩
    · exact .inl ⟨seq', hp.trans hseq'⟩
    · exact .inr (List.mem_map.2 ⟨(o.target, id), hid, rfl⟩)
  · rw [hresolves.obligations] at ho
    obtain ⟨w, hw⟩ := hs.live o ho
    exact hresolves.known o.owner w hw

/-- What an accepted batch does: its nodes in flight get their ids, and then they are settled. -/
theorem accepted_settling (hc : s.Compiled) (hs : s.registry.Sound s.nextSeq []) {seq : Nat} {creates : List PendingId}
    (h : Assoc.find? seq s.registry.inFlight = some creates) {result : Except Engine.Error (List NodeId)}
    (hresult : refusal seq creates.length result = none) :
    ∃ ids pairs r, result = .ok ids ∧ pairs.Sublist (creates.zip ids) ∧
      (∀ x ∈ creates.zip ids, ∀ seq', r.status x.1 ≠ .ok (.inFlight seq')) ∧
      Registry.Resolves pairs (s.registry.takeInFlight seq).2 r ∧
      after (acknowledge seq result) s = (runAll (pairs.map fun x => settle x.1 x.2) { s with registry := r }).2 ∧
      Settling { s with registry := r } (after (acknowledge seq result) s) [] := by
  obtain ⟨ids, rfl, hlength, hafter⟩ := after_acknowledge_accepted h hresult
  have hresolves := Registry.resolveAll_spec (creates.zip ids) (s.registry.takeInFlight seq).2
  have hsettling := settling_settleAll
    (s := { s with registry := (resolveAll (creates.zip ids) (s.registry.takeInFlight seq).2).2 }) _
    ⟨hc.placed, hc.addressed, hc.packed⟩ (resolveAll_sound hs h hlength) fun x hx => (hresolves.resolved x.1 x.2 hx).2
  refine ⟨ids, _, _, rfl, Registry.resolveAll_sublist .., fun x hx => ?_, hresolves, hafter, hafter ▸ hsettling⟩
  exact Registry.not_inFlight_resolveAll hx _

theorem acknowledge_accepted_steps (hc : s.Compiled) (hs : s.registry.Sound s.nextSeq []) {seq : Nat}
    {creates : List PendingId} (h : Assoc.find? seq s.registry.inFlight = some creates)
    {result : Except Engine.Error (List NodeId)} (hresult : refusal seq creates.length result = none) :
    Steps (.acknowledge seq result) s (after (acknowledge seq result) s) := by
  obtain ⟨ids, pairs, r, -, -, -, hresolves, -, hsettling⟩ := accepted_settling hc hs h hresult
  generalize after (acknowledge seq result) s = s' at hsettling ⊢
  have halike := hsettling.continues.alike
  refine ⟨⟨halike.schema, halike.maxBuffer, halike.lenient, halike.locale⟩, hsettling.sound, fun p => ?_,
    hsettling.continues.seq, fun seq' => ?_⟩
  · have hlast := hsettling.continues.sends.moves hsettling.length p
    rcases hresolves.cases p with hp | ⟨id, hid⟩
    · have hp : r.status p = s.registry.status p := hp
      rcases hlast with hs' | ⟨tmp, seq', ht, hs'⟩
      · rw [hs', hp]
        exact .stay _
      · rw [hs', ← hp, ht]
        exact .send tmp seq'
    · obtain ⟨⟨seq', hseq'⟩, hresolved⟩ := hresolves.resolved p id hid
      have hseq' : s.registry.status p = .ok (.inFlight seq') := hseq'
      rw [hsettling.continues.sends.later.status_resolved hresolved, hseq']
      exact .resolve seq' id
  · rw [hsettling.continues.awaits, awaits_takeInFlight hs hresolves.batches.2 result]

/-- What is written to a type looks the type up first. -/
theorem called_of_typeNamed {α : Type} {f : TypeLayout → SessionM α} (type : String)
    (hf : ∀ t, s.Called (after (f t) s)) : s.Called (after (do f (← typeNamed type)) s) :=
  after_bind_of_look (lookup_spec (typeNamed_eq type s)).1 (.refl s) fun t _ => hf t

/-- What is neither a drain nor an acknowledgment writes, if anything, to the open buffer or to the next one. -/
theorem Call.called (hc : s.Compiled) (c : Call) :
    (s.Called (c.run s) ∧ ∀ seq, ¬c.Acknowledges seq) ∨ c = .drain ∨ ∃ seq result, c = .acknowledge seq result := by
  cases c with
  | create type record => exact .inl ⟨create_called hc type record, fun _ ⟨_, h⟩ => nomatch h⟩
  | update type target record =>
    exact .inl ⟨called_of_typeNamed type fun t => (updateNode_wrote hc record).called, fun _ ⟨_, h⟩ => nomatch h⟩
  | delete type target =>
    exact .inl ⟨called_of_typeNamed type fun t => (deleteNode_wrote s).called, fun _ ⟨_, h⟩ => nomatch h⟩
  | count type target field amount decrement =>
    refine .inl ⟨called_of_typeNamed type fun t => ?_, fun _ ⟨_, h⟩ => nomatch h⟩
    exact (countNode_wrote hc field amount decrement).called
  | drain => exact .inr (.inl rfl)
  | acknowledge seq result => exact .inr (.inr ⟨seq, result, rfl⟩)

theorem Call.steps (hc : s.Compiled) (hs : s.registry.Sound s.nextSeq []) (c : Call) : Steps c s (c.run s) := by
  rcases Call.called hc c with ⟨hcalled, hack⟩ | rfl | ⟨seq, result, rfl⟩
  · exact hcalled.steps hs hack
  · exact drain_steps hs
  · cases h : Assoc.find? seq s.registry.inFlight with
    | none =>
      rw [Call.run, after_acknowledge_unknown h]
      refine ⟨.refl s, hs, fun p => .stay _, Nat.le_refl _, fun seq' => ?_⟩
      have hne : s.registry.Awaits seq' → ¬(Call.acknowledge seq result).Acknowledges seq' := by
        rintro ⟨ps, hps⟩ ⟨_, hseq⟩
        cases hseq
        rw [h] at hps
        cases hps
      rw [and_iff_left_of_imp hne]
      exact (or_iff_left (by omega)).symm
    | some creates =>
      cases hresult : refusal seq creates.length result with
      | some error => exact acknowledge_refused_steps hs h hresult
      | none => exact acknowledge_accepted_steps hc hs h hresult

/-! ### Sessions -/

variable {decl : SchemaDecl} {priority : Priority} {schema : SchemaLayout} {options : Options}

/-- A new session: nothing is written, created or numbered yet. -/
structure Started (schema : SchemaLayout) (options : Options) (s : Session) : Prop where
  schema : s.schema = schema
  maxBuffer : s.maxBuffer = options.maxBuffer
  lenient : s.lenient = options.lenient
  encoder : s.encoder = .new options.maxBuffer
  registry : s.registry = .empty
  outbox : s.outbox = []
  nextSeq : s.nextSeq = 1

theorem started_of_start (h : Session.start schema options = .ok s) : Started schema options s := by
  unfold Session.start at h
  dsimp only at h
  split at h
  · split at h
    · cases h
      exact ⟨rfl, rfl, rfl, rfl, rfl, rfl, rfl⟩
    · cases h
  · cases h
    exact ⟨rfl, rfl, rfl, rfl, rfl, rfl, rfl⟩

theorem reached_sound (hschema : decl.compile priority = .ok schema) (h : Reached schema options s) :
    s.Compiled ∧ s.registry.Sound s.nextSeq [] := by
  induction h with
  | start hstart =>
    obtain ⟨rfl, -, -, -, hregistry, -⟩ := started_of_start hstart
    rw [hregistry]
    exact ⟨⟨compile_placed hschema, compile_addressed hschema, compile_packed hschema⟩, .empty⟩
  | call _ c ih =>
    have hsteps := Call.steps ih.1 ih.2 c
    exact ⟨ih.1.congr hsteps.alike, hsteps.sound⟩

namespace Friends

open Engine.Friends

/-- A session over users with best friends. -/
def fresh : Session where
  schema := layout
  maxBuffer := Limits.defaultMaxBuffer
  lenient := false
  locale := Locale.none
  encoder := .new Limits.defaultMaxBuffer
  registry := .empty
  outbox := []
  nextSeq := 1

/-- A user is sent, and another one is created with that user as best friend. -/
def waiting : Session :=
  Call.run (Call.run (Call.run fresh (.create "user" [])) .drain)
    (.create "user" [("best", .ref (.pending ⟨1⟩) [])])

theorem reached_waiting : Reached layout {} waiting := .call (.call (.call (.start rfl) _) _) _

end Friends

/-- The acknowledgments of some batches, each with the engine's answer to it. -/
def answers {σ : Type} (apply : EngineStep σ) : List Batch → σ → List Call
  | [], _ => []
  | b :: bs, engine => .acknowledge b.seq (apply b.bytes engine).1 :: answers apply bs (apply b.bytes engine).2

theorem applyBatches_eq {σ : Type} (apply : EngineStep σ) (bs : List Batch) (engine : σ) (s : Session) :
    (applyBatches apply bs engine s).2.2 = (answers apply bs engine).foldl Call.run s := by
  induction bs generalizing engine s with
  | nil => rfl
  | cons b bs ih =>
    rw [answers, List.foldl_cons, ← ih, Call.run, after, applyBatches]
    dsimp only
    cases acknowledge b.seq (apply b.bytes engine).1 s <;> rfl

theorem Reached.calls (h : Reached schema options s) (cs : List Call) : Reached schema options (cs.foldl Call.run s) := by
  induction cs generalizing s with
  | nil => exact h
  | cons c cs ih => exact ih (h.call c)

theorem Reached.applyBatches {σ : Type} (apply : EngineStep σ) (bs : List Batch) (engine : σ)
    (h : Reached schema options s) : Reached schema options (applyBatches apply bs engine s).2.2 := by
  rw [applyBatches_eq]
  exact h.calls _

theorem Reached.flushRounds {σ : Type} (apply : EngineStep σ) (n : Nat) (engine : σ) (h : Reached schema options s) :
    Reached schema options (flushRounds apply n engine s).2.2 := by
  induction n generalizing engine s with
  | zero => exact h
  | succ n ih =>
    have hdrained := h.call .drain
    rw [Call.run] at hdrained
    unfold Session.flushRounds
    generalize s.drain = drained at hdrained ⊢
    obtain ⟨bs, s'⟩ := drained
    cases bs with
    | nil => exact hdrained
    | cons b bs => exact ih _ (hdrained.applyBatches apply (b :: bs) engine)

/-- To flush a session is to drain it and to acknowledge batches. -/
theorem Reached.flush {σ : Type} (apply : EngineStep σ) (engine : σ) (h : Reached schema options s) :
    Reached schema options (flush apply engine s).2.2 := by
  have hrounds := h.flushRounds apply (s.unsettled + 2) engine
  unfold Session.flush
  generalize Session.flushRounds apply (s.unsettled + 2) engine s = outcome at hrounds ⊢
  obtain ⟨_ | e, engine', s'⟩ := outcome <;> exact hrounds

end Session

end NodeStore.Write
