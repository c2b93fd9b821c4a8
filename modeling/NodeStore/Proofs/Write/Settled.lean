import NodeStore.Proofs.Write.FollowUps

/-!
# References that are settled

Once a batch is acknowledged, its nodes have their ids and every reference that waited for one of them is settled: where
it stands, if it is in the open buffer, and by a follow-up otherwise.

* `Session.Discharges`: what becomes of one obligation; `Session.SettlesAll`: of all obligations on the nodes of a batch.
* `Session.Call.Steady`: no placeholder leaves while it is about to be settled.
* `acknowledge_discharges`: every obligation on an acknowledged node is discharged once, as long as calls are steady.
-/

namespace NodeStore.Write.Session

variable {s s' : Session} {o : Obligation} {id : NodeId} {p : PropDef EdgeLayout} {slot : UInt8}

/-! ### Discharging -/

/-- One obligation is discharged: its reference is settled where it stands, or else made up for. -/
inductive Discharges (id : NodeId) (o : Obligation) (s : Session) : Session → Prop
  | inPlace {it : Item} {front back : Bytes} (hpos : o.pos = some front.length) (hstands : s.Stands o it)
      (hbytes : s.encoder.buffer.bytes = front ++ it.entry.encode ++ back)
      (hpatched : (s.encoder.patchPlaceholder front.length id).buffer.bytes = front ++ (it.entry.settle id).encode ++ back) :
      Discharges id o s { s with encoder := s.encoder.patchPlaceholder front.length id }
  | madeUp {s₀ s' : Session} {t : TypeLayout} {p : PropDef EdgeLayout} {slot : UInt8} (hpos : o.pos = none)
      (hopened : s.Opened s₀) (hfield : s.FieldOf o t p slot) (h : s₀.MakesUp o id p slot s') : Discharges id o s s'

/-- Obligations are discharged one after the other. -/
inductive DischargesAll (id : NodeId) : List Obligation → Session → Session → Prop
  | nil (s : Session) : DischargesAll id [] s s
  | cons {o : Obligation} {os : List Obligation} {s s' s'' : Session} (h : Discharges id o s s')
      (hrest : DischargesAll id os s' s'') : DischargesAll id (o :: os) s s''

/-- A reference that left with its batch is made up for. -/
theorem updateNode_discharges {is : List Instr} {held : List Obligation} {due : List PendingId} (hc : s.Compiled)
    (ht : s.Tracks is held due) (ho : o ∈ held) (hpos : o.pos = none) (id : NodeId) :
    Discharges id o s (after (updateNode o.type o.owner (o.followUp id)) s) := by
  have ho' : o ∈ s.registry.obligations ++ held := List.mem_append_right _ ho
  obtain ⟨t, p, slot, block, hfield, ⟨c, hlocale, hlenient, hblock⟩, hroom⟩ := ht.sendable o ho'
  obtain ⟨wire, hwire⟩ := ht.known o ho'
  rcases after_updateNode_followUp hc hfield id with ⟨e, hcheck, hafter⟩ | ⟨i, hafter⟩
  · rw [hafter]
    exact .madeUp hpos (.inl rfl) hfield (.refused (.inl ⟨e, hcheck⟩))
  · rw [hafter]
    have htries : ∀ s₀, s.Opened s₀ → s₀.Tries o id p slot s.maxBuffer
        (s₀.attempt (writeTo o.type o.owner fun c => writeUpdate c t [⟨i, p, o.value id⟩])) := fun s₀ hopened => by
      have hfollows := hopened.called.follows
      obtain ⟨wire₀, hwire₀⟩ := hfollows.sends.wireTarget hwire
      refine attempt_tries hwire₀ hfield.slot hfield.kind (fun block₀ hblock₀ => ?_) t i
      have hlength := linkBlock_length (hfollows.alike.locale.trans hlocale.symm)
        (hfollows.alike.lenient.trans hlenient.symm) hblock hblock₀ .deferred (.node id)
      rw [Obligation.length_setting, hlength]
      exact hroom
    have hempty : ∀ s₀, s.Opened s₀ → s₀.encoder.buffer.isEmpty = true → s₀.encoder.buffer.Room s.maxBuffer := by
      intro s₀ hopened hbuffer max hmax
      have hmax₀ : s₀.encoder.buffer.max = some s.maxBuffer := by
        rcases hopened with rfl | ⟨hfull, rfl⟩
        · exact ht.max
        · rw [close_of_nonempty hfull]
          exact ht.max
      have hlength : s₀.encoder.buffer.length = 0 := by
        rw [Buffer.length, List.isEmpty_iff.1 hbuffer]
        rfl
      rw [hmax] at hmax₀
      cases hmax₀
      omega
    obtain ⟨s₀, hopened, hmade⟩ := perform_makesUp htries hempty
    exact .madeUp hpos hopened hfield hmade

/-! ### Settling nodes -/

variable {is : List Instr} {held : List Obligation} {due : List PendingId}

/-- A held obligation is discharged, if no placeholder that is held behind it leaves meanwhile. -/
theorem settleObligation_discharges (hc : s.Compiled) (ht : s.Tracks is (o :: held) due) (id : NodeId)
    (hsteady : (after (settleObligation id o) s).nextSeq = s.nextSeq ∨ ∀ o' ∈ held, o'.pos = none) :
    Discharges id o s (after (settleObligation id o) s) ∧ ∃ is', (after (settleObligation id o) s).Tracks is' held due := by
  cases hpos : o.pos with
  | some pos =>
    have hafter : after (settleObligation id o) s = { s with encoder := s.encoder.patchPlaceholder pos id } := by
      unfold settleObligation
      rw [hpos]
      rfl
    obtain ⟨it, -, hstands, is', front, back, hbytes, rfl, hpatched, htracks⟩ := ht.patch hpos id
    rw [hafter]
    exact ⟨.inPlace hpos hstands hbytes hpatched, is', htracks⟩
  | none =>
    have hafter : after (settleObligation id o) s = after (updateNode o.type o.owner (o.followUp id)) s := by
      unfold settleObligation
      rw [hpos]
    rw [hafter] at hsteady ⊢
    refine ⟨updateNode_discharges hc ht List.mem_cons_self hpos id, ?_⟩
    exact (updateNode_wrote hc (o.followUp id)).called.tracks (ht.drop_flushed hpos) fun hseq => hsteady.resolve_left hseq

/-- All obligations on a node are discharged. -/
theorem runAll_discharges {os : List Obligation} (hc : s.Compiled) (hs : s.registry.Sound s.nextSeq due)
    (ht : s.Tracks is os due) (id : NodeId)
    (hsteady : (runAll (os.map (settleObligation id)) s).2.nextSeq = s.nextSeq ∨ ∀ o ∈ os, o.pos = none) :
    DischargesAll id os s (runAll (os.map (settleObligation id)) s).2 ∧
      ∃ is', (runAll (os.map (settleObligation id)) s).2.Tracks is' [] due := by
  induction os generalizing s is with
  | nil => exact ⟨.nil s, is, ht⟩
  | cons o os ih =>
    have hfirst := settling_settleObligation hc hs id o
    have hc₁ := hc.congr hfirst.continues.alike
    have hrest := settling_obligations hc₁ hfirst.sound id os
    rw [List.map_cons, runAll_cons] at hsteady ⊢
    have hle := hfirst.continues.seq
    have hle' := hrest.continues.seq
    obtain ⟨hdischarged, is₁, ht₁⟩ := settleObligation_discharges hc ht id
      (hsteady.imp (fun _ => by omega) fun h o' ho' => h o' (List.mem_cons_of_mem _ ho'))
    obtain ⟨hall, ht'⟩ := ih hc₁ hfirst.sound ht₁
      (hsteady.imp (fun _ => by omega) fun h o' ho' => h o' (List.mem_cons_of_mem _ ho'))
    exact ⟨.cons hdischarged hall, ht'⟩

theorem MakesUp.owed (h : s.MakesUp o id p slot s') (q : PendingId) : s'.owed q = s.owed q := by
  cases h with
  | written | refused => rfl
  | @queued q' howner => exact congrArg (List.filter (·.target = q)) (Registry.modifyEntry_obligations ..)

theorem Discharges.owed (h : Discharges id o s s') (q : PendingId) : Kept (s.owed q) (s'.owed q) := by
  cases h with
  | inPlace => exact .inl rfl
  | madeUp hpos hopened hfield hmade =>
    rw [hmade.owed]
    rcases hopened with rfl | ⟨-, rfl⟩
    · exact .inl rfl
    · exact owed_close s q

theorem DischargesAll.owed {os : List Obligation} (h : DischargesAll id os s s') (q : PendingId) :
    Kept (s.owed q) (s'.owed q) := by
  induction h with
  | nil => exact .inl rfl
  | cons h _ ih => exact (h.owed q).trans ih

/-- References to nodes that got their ids are settled, node by node, each behind the writes that waited for the node. -/
inductive SettlesAll : List (PendingId × NodeId) → Session → Session → Prop
  | nil (s : Session) : SettlesAll [] s s
  | cons {q : PendingId} {id : NodeId} {pairs : List (PendingId × NodeId)} {type : TypeId} {s s₁ s₂ s' : Session}
      (htype : s.registry.typeOf? q = some type)
      (hreplayed : (runAll ((s.registry.takeQueue q).1.map (replay type id))
        { s with registry := (s.registry.takeQueue q).2 }).2 = s₁)
      (howed : Kept (s.owed q) (s₁.owed q))
      (hdischarged : DischargesAll id (s₁.owed q) { s₁ with registry := (s₁.registry.takeObligations q).2 } s₂)
      (hrest : SettlesAll pairs s₂ s') : SettlesAll ((q, id) :: pairs) s s'

/-- Writes that waited keep the placeholders, and what nodes with ids are owed. -/
theorem runAll_replay (hc : s.Compiled) (hs : s.registry.Sound s.nextSeq due) (ht : s.Tracks is [] due)
    (type : TypeId) (id : NodeId) (ops : List QueuedOp) :
    let s₁ := (runAll (ops.map (replay type id)) s).2
    s.Settling s₁ due ∧ s.Follows s₁ ∧ ∃ is', s₁.Tracks is' [] due := by
  refine runAll_induction (P := fun s₁ => s.Settling s₁ due ∧ s.Follows s₁ ∧ ∃ is', s₁.Tracks is' [] due)
    (fun call hcall s₁ ⟨hsettling, hfollows, is₁, ht₁⟩ => ?_) ⟨⟨.refl s, rfl, hs⟩, .refl s, is, ht⟩
  obtain ⟨op, -, rfl⟩ := List.mem_map.1 hcall
  have hwrote : s₁.Wrote (after (replay type id op) s₁) := replay_wrote (hc.congr hsettling.continues.alike) id op
  exact ⟨hsettling.trans (hwrote.settling hsettling.sound), hfollows.trans hwrote.called.follows,
    hwrote.called.tracks ht₁ fun _ => nofun⟩

/-- A node that got its id is settled. -/
theorem settle_discharges {q : PendingId} (hc : s.Compiled) (hs : s.registry.Sound s.nextSeq (q :: due))
    (ht : s.Tracks is [] (q :: due)) {id : NodeId} (hq : s.registry.status q = .ok (.resolved id))
    (hdue : ∀ q' ∈ due, ∃ id, s.registry.status q' = .ok (.resolved id))
    (hsteady : (after (settle q id) s).nextSeq = s.nextSeq ∨ ∀ q' ∈ q :: due, ∀ o ∈ s.owed q', o.pos = none) :
    (∀ pairs s', SettlesAll pairs (after (settle q id) s) s' → SettlesAll ((q, id) :: pairs) s s') ∧
      (∃ is', (after (settle q id) s).Tracks is' [] due) ∧
      ((∀ q' ∈ q :: due, ∀ o ∈ s.owed q', o.pos = none) →
        ∀ q' ∈ due, ∀ o ∈ (after (settle q id) s).owed q', o.pos = none) := by
  obtain ⟨e, he, -⟩ := Registry.status_eq_ok.1 hq
  have htype : s.registry.typeOf? q = some e.type := by
    unfold Registry.typeOf?
    rw [he]
    rfl
  let s₀ : Session := { s with registry := (s.registry.takeQueue q).2 }
  have hc₀ : s₀.Compiled := ⟨hc.placed, hc.addressed, hc.packed⟩
  have hobligations : (s.registry.takeQueue q).2.obligations = s.registry.obligations := Registry.modifyEntry_obligations ..
  have ht₀ : s₀.Tracks is [] (q :: due) := ht.sameStates (Registry.Sends.takeQueue s.registry q).later
    (.takeQueue s.registry q) hobligations
  obtain ⟨hsettling, hfollows, is₁, ht₁⟩ := runAll_replay hc₀ (hs.takeQueue q) ht₀ e.type id
    (s.registry.takeQueue q).1
  rw [after_settle htype] at hsteady ⊢
  dsimp only at hsteady ⊢
  generalize hs₁ : (runAll ((s.registry.takeQueue q).1.map (replay e.type id)) s₀).2 = s₁ at *
  have hstatus₀ := (Registry.SameStates.takeQueue s.registry q).status
  have howed : ∀ q' ∈ q :: due, Kept (s.owed q') (s₁.owed q') := by
    intro q' hq'
    obtain ⟨id', hid'⟩ : ∃ id', s.registry.status q' = .ok (.resolved id') := by
      rcases List.mem_cons.1 hq' with rfl | hq'
      · exact ⟨id, hq⟩
      · exact hdue q' hq'
    have hkept := hfollows.owed q' id' ((hstatus₀ q').trans hid')
    rwa [show s₀.owed q' = s.owed q' from congrArg (List.filter fun o : Obligation => decide (o.target = q')) hobligations]
      at hkept
  let s₂ : Session := { s₁ with registry := (s₁.registry.takeObligations q).2 }
  have hc₁ := hc₀.congr hsettling.continues.alike
  have hc₂ : s₂.Compiled := ⟨hc₁.placed, hc₁.addressed, hc₁.packed⟩
  have hs₂ : s₂.registry.Sound s₂.nextSeq due := hsettling.sound.takeObligations
  have ht₂ : s₂.Tracks is₁ (s₁.owed q) due := (ht₁.takeObligations q).mono fun q' hq' => by
    obtain ⟨hq', hne⟩ := List.mem_filter.1 hq'
    exact (List.mem_cons.1 hq').resolve_left (by simpa using hne)
  have hle : s.nextSeq ≤ s₂.nextSeq := hsettling.continues.seq
  have hle' := (settling_obligations hc₂ hs₂ id (s₁.owed q)).continues.seq
  obtain ⟨hall, ht'⟩ := runAll_discharges hc₂ hs₂ ht₂ id
    (hsteady.imp (fun h => Nat.le_antisymm (Nat.le_trans (Nat.le_of_eq h) hle) hle') fun h => (howed q List.mem_cons_self).left (h q List.mem_cons_self))
  refine ⟨fun pairs s' hrest => .cons htype hs₁ (howed q List.mem_cons_self) hall hrest, ht', fun h q' hq' => ?_⟩
  have hkept := (howed q' (List.mem_cons_of_mem _ hq')).left (h q' (List.mem_cons_of_mem _ hq'))
  refine (hall.owed q').left fun o ho => hkept o ?_
  obtain ⟨ho, htarget⟩ := List.mem_filter.1 ho
  exact List.mem_filter.2 ⟨(List.mem_filter.1 ho).1, htarget⟩

/-- The nodes of a batch are settled, one after the other. -/
theorem settleAll_discharges (pairs : List (PendingId × NodeId)) (hc : s.Compiled)
    (hs : s.registry.Sound s.nextSeq (pairs.map (·.1))) (ht : s.Tracks is [] (pairs.map (·.1)))
    (hpairs : ∀ x ∈ pairs, s.registry.status x.1 = .ok (.resolved x.2))
    (hsteady : (runAll (pairs.map fun x => settle x.1 x.2) s).2.nextSeq = s.nextSeq ∨
      ∀ q ∈ pairs.map (·.1), ∀ o ∈ s.owed q, o.pos = none) :
    SettlesAll pairs s (runAll (pairs.map fun x => settle x.1 x.2) s).2 ∧
      ∃ is', (runAll (pairs.map fun x => settle x.1 x.2) s).2.Tracks is' [] [] := by
  induction pairs generalizing s is with
  | nil => exact ⟨.nil s, is, ht⟩
  | cons x pairs ih =>
    obtain ⟨q, id⟩ := x
    have hq : s.registry.status q = .ok (.resolved id) := hpairs (q, id) List.mem_cons_self
    rw [List.map_cons, runAll_cons, List.map_cons] at hsteady
    rw [List.map_cons] at hs ht
    dsimp only at hs ht hsteady
    have hfirst := settling_settle hc hs hq
    have hc₁ := hc.congr hfirst.continues.alike
    have hpairs₁ : ∀ y ∈ pairs, (after (settle q id) s).registry.status y.1 = .ok (.resolved y.2) := fun y hy =>
      hfirst.continues.sends.later.status_resolved (hpairs y (List.mem_cons_of_mem _ hy))
    have hrest := (settling_settleAll pairs hc₁ hfirst.sound hpairs₁).continues.seq
    have hle := hfirst.continues.seq
    rw [List.map_cons, runAll_cons]
    obtain ⟨hsettles, ⟨is₁, ht₁⟩, hleft⟩ := settle_discharges hc hs ht hq (fun q' hq' => by
      obtain ⟨y, hy, rfl⟩ := List.mem_map.1 hq'
      exact ⟨y.2, hpairs y (List.mem_cons_of_mem _ hy)⟩) (hsteady.imp_left fun h => by omega)
    obtain ⟨hall, ht'⟩ := ih hc₁ hfirst.sound ht₁ hpairs₁ (hsteady.imp (fun h => by omega) hleft)
    exact ⟨hsettles _ _ hall, ht'⟩

/-! ### Acknowledgments -/

/-- An accepted batch: every obligation on a node that got its id is discharged. -/
theorem acknowledge_settles {seq : Nat} {creates : List PendingId} {ids : List NodeId} (hc : s.Compiled)
    (hs : s.registry.Sound s.nextSeq []) (ht : s.Tracks is [] [])
    (hcreates : Assoc.find? seq s.registry.inFlight = some creates) (hids : ids.length = creates.length)
    (hsteady : (after (acknowledge seq (.ok ids)) s).nextSeq = s.nextSeq ∨ ∀ q ∈ creates, ∀ o ∈ s.owed q, o.pos = none) :
    let resolved := resolveAll (creates.zip ids) (s.registry.takeInFlight seq).2
    SettlesAll resolved.1 { s with registry := resolved.2 } (after (acknowledge seq (.ok ids)) s) ∧
      ∃ is', (after (acknowledge seq (.ok ids)) s).Tracks is' [] [] := by
  have hresult : refusal seq creates.length (.ok ids) = none := if_pos hids
  obtain ⟨ids', heq, -, hafter⟩ := after_acknowledge_accepted (s := s) hcreates hresult
  cases heq
  have hresolves := Registry.resolveAll_spec (creates.zip ids) (s.registry.takeInFlight seq).2
  have hsub := Registry.resolveAll_sublist (creates.zip ids) (s.registry.takeInFlight seq).2
  have hsound := resolveAll_sound hs hcreates hids
  rw [hafter] at hsteady ⊢
  dsimp only at hsteady ⊢
  generalize resolveAll (creates.zip ids) (s.registry.takeInFlight seq).2 = resolved at hresolves hsub hsound hsteady ⊢
  obtain ⟨pairs, r⟩ := resolved
  have htaken : Tracks { s with registry := (s.registry.takeInFlight seq).2 } is [] [] :=
    ht.sameStates (Registry.Sends.of_entries rfl).later (.of_entries rfl) rfl
  refine settleAll_discharges (s := { s with registry := r }) pairs ⟨hc.placed, hc.addressed, hc.packed⟩ hsound
    (htaken.resolves hresolves) (fun x hx => (hresolves.resolved x.1 x.2 hx).2) (hsteady.imp_right fun h q hq o ho => ?_)
  obtain ⟨x, hx, rfl⟩ := List.mem_map.1 hq
  have howed : Session.owed { s with registry := r } x.1 = s.owed x.1 :=
    congrArg (List.filter fun o : Obligation => decide (o.target = x.1)) hresolves.obligations
  exact h x.1 (List.of_mem_zip (hsub.subset hx)).1 o (howed ▸ ho)

/-- A refused batch takes placeholders with it, and settles none. -/
theorem acknowledge_refused_tracks {seq : Nat} {creates : List PendingId} (ht : s.Tracks is [] [])
    (hcreates : Assoc.find? seq s.registry.inFlight = some creates) {result : Except Engine.Error (List NodeId)}
    {error : Engine.Error} (hresult : refusal seq creates.length result = some error) :
    (after (acknowledge seq result) s).Tracks is [] [] := by
  rw [after_acknowledge_refused hcreates hresult]
  have htaken : Tracks { s with registry := (s.registry.takeInFlight seq).2 } is [] [] :=
    ht.sameStates (Registry.Sends.of_entries rfl).later (.of_entries rfl) rfl
  exact htaken.fails (Registry.foldl_fail_spec (.batch seq error) creates _)

/-! ### Steady sessions -/

/-- No placeholder leaves while it is about to be settled: an acknowledgment closes no batch, or all references to the
nodes of its batch have left already. -/
def Call.Steady (s : Session) : Call → Prop
  | .acknowledge seq result =>
    (after (Session.acknowledge seq result) s).nextSeq = s.nextSeq ∨
      ∀ creates, Assoc.find? seq s.registry.inFlight = some creates → ∀ q ∈ creates, ∀ o ∈ s.owed q, o.pos = none
  | _ => True

/-- The sessions that steady calls lead to. -/
inductive ReachedSteadily (schema : SchemaLayout) (options : Options) : Session → Prop
  | start {s : Session} (h : Session.start schema options = .ok s) : ReachedSteadily schema options s
  | call {s : Session} (h : ReachedSteadily schema options s) (c : Call) (hc : c.Steady s) :
      ReachedSteadily schema options (c.run s)

theorem Call.tracks (hc : s.Compiled) (hs : s.registry.Sound s.nextSeq []) (ht : s.Tracks is [] []) (c : Call)
    (hsteady : c.Steady s) : ∃ is', (c.run s).Tracks is' [] [] := by
  rcases Call.called hc c with ⟨hcalled, -⟩ | rfl | ⟨seq, result, rfl⟩
  · exact hcalled.tracks ht fun _ => nofun
  · obtain ⟨is', ht'⟩ := (called_close s).tracks ht fun _ => nofun
    exact ⟨is', ht'.withOutbox nofun⟩
  · rw [Call.run]
    cases hcreates : Assoc.find? seq s.registry.inFlight with
    | none => exact ⟨is, by rwa [after_acknowledge_unknown hcreates]⟩
    | some creates =>
      cases hresult : refusal seq creates.length result with
      | some error => exact ⟨is, acknowledge_refused_tracks ht hcreates hresult⟩
      | none =>
        obtain ⟨ids, rfl, hids, -⟩ := after_acknowledge_accepted hcreates hresult
        exact (acknowledge_settles hc hs ht hcreates hids (hsteady.imp_right fun h => h creates hcreates)).2

variable {decl : SchemaDecl} {priority : Priority} {schema : SchemaLayout} {options : Options}

theorem start_tracks (h : Session.start schema options = .ok s) : s.Tracks [] [] [] := by
  obtain ⟨-, hmax, -, hencoder, hregistry, houtbox, -⟩ := started_of_start h
  rw [← hmax] at hencoder
  have hobligations : s.registry.obligations = [] := by rw [hregistry]; rfl
  have hnone : ∀ o ∈ s.registry.obligations ++ [], False := by simp [hobligations]
  refine ⟨by rw [hencoder]; rfl, by rw [hencoder]; rfl, Nat.zero_le _, by rw [hencoder]; exact .idle _,
    by simp [hobligations], fun o ho => (hnone o ho).elim, nofun, fun o ho => (hnone o ho).elim,
    fun o ho => (hnone o ho).elim, fun o ho => (hnone o (List.mem_append_left _ ho)).elim, trivial, ?_⟩
  rw [houtbox]
  exact nofun

theorem ReachedSteadily.reached (h : ReachedSteadily schema options s) : Reached schema options s := by
  induction h with
  | start h => exact .start h
  | call _ c _ ih => exact .call ih c

theorem ReachedSteadily.tracks (hschema : decl.compile priority = .ok schema) (h : ReachedSteadily schema options s) :
    ∃ is, s.Tracks is [] [] := by
  induction h with
  | start h => exact ⟨[], start_tracks h⟩
  | call hreached c hsteady ih =>
    obtain ⟨hc, hs⟩ := reached_sound hschema hreached.reached
    obtain ⟨is, ht⟩ := ih
    exact Call.tracks hc hs ht c hsteady

namespace Friends

open Engine.Friends

/-- Two users wait for the same best friend: one of them was sent, the other one is in the open buffer. -/
def contended : Session :=
  Call.run (Call.run waiting .drain) (.create "user" [("best", .ref (.pending ⟨1⟩) [])])

theorem reached_contended : ReachedSteadily layout {} contended :=
  .call (.call (.call (.call (.call (.start rfl) (.create _ _) trivial) .drain trivial) (.create _ _) trivial) .drain
    trivial) (.create _ _) trivial

/-- The same users in batches of 24 bytes, of which the follow-up for the first one closes the open one. -/
def crowded : Session :=
  let fresh : Session := { fresh with maxBuffer := 24, encoder := .new 24 }
  let sent := Call.run (Call.run fresh (.create "user" [])) .drain
  let first := Call.run (Call.run sent (.update "user" (.id 1) [("best", .ref (.pending ⟨1⟩) [])])) .drain
  Call.run first (.update "user" (.id 2) [("best", .ref (.pending ⟨1⟩) [])])

end Friends

open Friends in
/-- Otherwise the batch that is closed meanwhile leaves with a reference that nothing settles. -/
example :
    let s := Call.run crowded (.acknowledge 1 (.ok [7]))
    s.outstanding = 0 ∧ s.outbox.map (·.bytes) = [[1, 1, 0, 2, 2, 0, 0, 0, 5, 1, 13, 13, 4, 0, 0, 0, 0]] := by
  decide +kernel

end NodeStore.Write.Session
