import NodeStore.Proofs.Write.Attempts

/-!
# Writes that wait

A write to a node in flight waits until the batch of the node is acknowledged. Whatever is called in between, it keeps its
place.

* `Registry.Holds`: what waits for a node keeps its place; `Registry.Waits`: until the node is settled.
* `Session.Precedes`: so, and the options of the session and the types of its nodes stay; `precedes_calls`.
-/

namespace NodeStore.Write

namespace Registry

variable {r r' r'' : Registry} {p q : PendingId}

/-- The writes that wait for a node still do, in front of new ones. -/
def Holds (p : PendingId) (r r' : Registry) : Prop := (r.takeQueue p).1 <+: (r'.takeQueue p).1

theorem Holds.refl (r : Registry) : Holds p r r := List.prefix_rfl

theorem Holds.trans (h : Holds p r r') (h' : Holds p r' r'') : Holds p r r'' := List.IsPrefix.trans h h'

theorem holds_of_queue (h : ∀ e, r.entry? p = some e → ∃ e', r'.entry? p = some e' ∧ e.queue <+: e'.queue) :
    Holds p r r' := by
  unfold Holds takeQueue
  cases he : r.entry? p with
  | none => exact List.nil_prefix
  | some e =>
    obtain ⟨e', he', hprefix⟩ := h e he
    rw [he']
    exact hprefix

theorem holds_of_entry (h : r'.entry? p = r.entry? p) : Holds p r r' :=
  holds_of_queue fun e he => ⟨e, h.trans he, List.prefix_rfl⟩

theorem holds_modifyEntry (r : Registry) (q : PendingId) {f : PendingEntry → PendingEntry}
    (hf : ∀ e, e.queue <+: (f e).queue) : Holds p r (r.modifyEntry q f) := by
  refine holds_of_queue fun e he => ?_
  rw [ entry?_modifyEntry, he]
  split
  · exact ⟨f e, rfl, hf e⟩
  · exact ⟨e, rfl, List.prefix_rfl⟩

theorem holds_register (r : Registry) (type : TypeId) : Holds p r (r.register type).2 :=
  holds_of_queue fun e he => ⟨e, entry?_register he, List.prefix_rfl⟩

theorem holds_queue (r : Registry) (q : PendingId) (op : QueuedOp) : Holds p r (r.queue q op) :=
  holds_modifyEntry r q fun _ => List.prefix_append ..

theorem mem_queue (hp : ∃ e, r.entry? p = some e) (op : QueuedOp) : op ∈ ((r.queue p op).takeQueue p).1 := by
  obtain ⟨e, he⟩ := hp
  unfold takeQueue queue
  rw [ entry?_modifyEntry, if_pos rfl, he]
  exact List.mem_append_right _ List.mem_cons_self

/-- Only the node whose writes are made up for loses them. -/
theorem holds_takeQueue (r : Registry) (h : p ≠ q) : Holds p r (r.takeQueue q).2 :=
  holds_of_entry ((entry?_modifyEntry ..).trans (if_neg h))

theorem holds_resolveAll (pairs : List (PendingId × NodeId)) (r : Registry) : Holds p r (Session.resolveAll pairs r).2 := by
  induction pairs generalizing r with
  | nil => exact .refl r
  | cons x rest ih =>
    refine Holds.trans ?_ (ih _)
    split
    · exact holds_modifyEntry r x.1 fun _ => List.prefix_rfl
    · exact .refl r

/-! ### Until a node is settled -/

/-- Nodes that are not settled keep the writes that wait for them. -/
structure Waits (r r' : Registry) : Prop where
  later : r.Later r'
  holds : ∀ p, r'.Unsettled p → Holds p r r'

theorem Waits.refl (r : Registry) : r.Waits r := ⟨.refl r, fun _ _ => .refl r⟩

theorem Unsettled.of_later (h : r'.Unsettled p) (hlater : r.Later r') {e : PendingEntry} (he : r.entry? p = some e) :
    r.Unsettled p := by
  obtain ⟨e', he', hs⟩ := h
  obtain ⟨e'', he'', -, hsettled⟩ := hlater p e he
  cases he'.symm.trans he''
  refine ⟨e, he, Bool.eq_false_iff.2 fun h => ?_⟩
  rw [hsettled h, h] at hs
  cases hs

theorem Waits.trans (h : r.Waits r') (h' : r'.Waits r'') : r.Waits r'' := by
  refine ⟨h.later.trans h'.later, fun p hp => ?_⟩
  cases he : r.entry? p with
  | none => exact holds_of_queue fun e he' => nomatch he.symm.trans he'
  | some e =>
    obtain ⟨e', he', -⟩ := h.later p e he
    exact (h.holds p (hp.of_later h'.later he')).trans (h'.holds p hp)

theorem Waits.of_entries (h : r'.entries = r.entries) : r.Waits r' := by
  refine ⟨(Sends.of_entries h).later, fun p _ => holds_of_entry ?_⟩
  unfold entry?
  rw [h]

theorem waits_queue (r : Registry) (p : PendingId) (op : QueuedOp) : r.Waits (r.queue p op) :=
  ⟨(Sends.queue r p op).later, fun _ _ => holds_queue r p op⟩

/-- Once a node is settled, nothing has to wait for it any more. -/
theorem waits_takeQueue (h : ¬r.Unsettled p) : r.Waits (r.takeQueue p).2 := by
  refine ⟨(Sends.takeQueue r p).later, fun q hq => holds_takeQueue r ?_⟩
  rintro rfl
  obtain ⟨e, he, hs⟩ := hq
  obtain ⟨e', he', rfl⟩ : ∃ e', r.entry? q = some e' ∧ { e' with queue := [] } = e := by
    simpa [takeQueue, entry?_modifyEntry] using he
  exact h ⟨e', he', hs⟩

theorem waits_takeInFlight (r : Registry) (seq : Nat) : r.Waits (r.takeInFlight seq).2 := .of_entries rfl

theorem waits_resolveAll (pairs : List (PendingId × NodeId)) (r : Registry) : r.Waits (Session.resolveAll pairs r).2 :=
  ⟨(resolveAll_spec pairs r).later, fun _ _ => holds_resolveAll pairs r⟩

/-- A node that does not fail with others keeps its writes. -/
theorem holds_failAll (r : Registry) (work : List (PendingId × PendingFailure)) (h : (r.failAll work).Unsettled p) :
    Holds p r (r.failAll work) := by
  induction r, work using failAll.induct with
  | case1 r =>
    rw [failAll]
    exact .refl r
  | case2 r q failure work hsettled ih =>
    rw [failAll, if_pos hsettled] at h ⊢
    exact ih h
  | case3 r q failure work hsettled marked taken ih =>
    rw [failAll, if_neg hsettled] at h ⊢
    refine Holds.trans (holds_of_entry ?_) (ih h)
    rw [ entry?_dropNode, if_neg]
    rintro rfl
    -- a node that has failed stays so
    have hfailed := status_dropNode_self (unsettled_iff.2 hsettled) failure
    obtain ⟨e, he, hs⟩ := h
    obtain ⟨e', he', hstate⟩ := status_eq_ok.1 ((failAll_spec (r.dropNode p failure) _).later.status_failed hfailed)
    cases he.symm.trans he'
    rw [hstate] at hs
    cases hs

theorem waits_foldl_fail (failure : PendingFailure) (ps : List PendingId) (r : Registry) :
    r.Waits (ps.foldl (fun r p => r.fail p failure) r) := by
  induction ps generalizing r with
  | nil => exact .refl r
  | cons p ps ih => exact Waits.trans ⟨(fail_spec r p failure).later, fun _ => holds_failAll r _⟩ (ih _)

end Registry

namespace Session

variable {s s' s'' : Session} {p q : PendingId}

/-! ### Calls -/

theorem Move.holds (h : s.Move s') : Registry.Holds p s.registry s'.registry := by
  cases h with
  | write =>
    rw [Registry.foldl_oblige]
    exact Registry.holds_of_entry rfl
  | register type => exact Registry.holds_register s.registry type
  | queue q op => exact Registry.holds_queue s.registry q op

theorem Opened.holds (h : s.Opened s') : Registry.Holds p s.registry s'.registry := by
  rcases h with rfl | ⟨-, rfl⟩
  · exact .refl _
  · refine Registry.holds_of_queue fun e he => ?_
    obtain ⟨e', he', -, hqueue, -⟩ := entry?_close he
    exact ⟨e', he', hqueue ▸ List.prefix_rfl⟩

/-- No call but an acknowledgment takes a write that waits. -/
theorem Called.holds (h : s.Called s') : Registry.Holds p s.registry s'.registry := by
  obtain ⟨s₀, hopened, hmoves⟩ := h
  refine hopened.holds.trans ?_
  induction hmoves with
  | refl => exact .refl _
  | tail _ hmove ih => exact ih.trans hmove.holds

/-- The options stay, no node has another type than before, and what waits for a node keeps its place until the node is
settled. -/
structure Precedes (s s' : Session) : Prop where
  alike : s.Alike s'
  waits : s.registry.Waits s'.registry

theorem Precedes.refl (s : Session) : s.Precedes s := ⟨.refl s, .refl _⟩

theorem Precedes.trans (h : s.Precedes s') (h' : s'.Precedes s'') : s.Precedes s'' :=
  ⟨h.alike.trans h'.alike, h.waits.trans h'.waits⟩

theorem Called.precedes (h : s.Called s') : s.Precedes s' :=
  ⟨h.follows.alike, h.follows.sends.later, fun _ _ => h.holds⟩

/-- What is done to the registry alone. -/
theorem precedes_of_registry {r : Registry} (h : s.registry.Waits r) : s.Precedes { s with registry := r } :=
  ⟨⟨rfl, rfl, rfl, rfl⟩, h⟩

/-! ### Acknowledgments -/

/-- Writes that waited are calls. -/
theorem replays_induction {P : Session → Prop} (hc : s.Compiled) (hcall : ∀ s₁ s₂, P s₁ → s₁.Called s₂ → P s₂) (hs : P s)
    (type : TypeId) (id : NodeId) (ops : List QueuedOp) : P (runAll (ops.map (replay type id)) s).2 := by
  refine (runAll_induction (P := fun s₁ => s.Alike s₁ ∧ P s₁) (fun call hmem s₁ ⟨halike, hs₁⟩ => ?_) ⟨.refl s, hs⟩).2
  obtain ⟨op, -, rfl⟩ := List.mem_map.1 hmem
  have hcalled : s₁.Called (after (replay type id op) s₁) := (replay_wrote (hc.congr halike) id op).called
  exact ⟨halike.trans hcalled.follows.alike, hcall _ _ hs₁ hcalled⟩

/-- To settle a node, its writes are made up for, and then the references to it are. -/
theorem settle_induction {P : Session → Prop} (hc : s.Compiled) (hs : P s) (hcall : ∀ s₁ s₂, P s₁ → s₁.Called s₂ → P s₂)
    (hsame : ∀ s₁ s₂, P s₁ → s₁.Alike s₂ → s₂.registry.entries = s₁.registry.entries → P s₂)
    (htake : P { s with registry := (s.registry.takeQueue p).2 }) (id : NodeId) : P (after (settle p id) s) := by
  cases htype : s.registry.typeOf? p with
  | none =>
    unfold after settle
    rw [htype]
    exact hs
  | some type =>
    rw [after_settle htype]
    dsimp only
    have htaken : s.Alike { s with registry := (s.registry.takeQueue p).2 } := ⟨rfl, rfl, rfl, rfl⟩
    obtain ⟨halike, hreplayed⟩ := replays_induction (P := fun s₁ => s.Alike s₁ ∧ P s₁) (hc.congr htaken)
      (fun s₁ s₂ hs₁ h => ⟨hs₁.1.trans h.follows.alike, hcall s₁ s₂ hs₁.2 h⟩) ⟨htaken, htake⟩ type id
      (s.registry.takeQueue p).1
    generalize (runAll _ _).2 = s₁ at halike hreplayed ⊢
    have htaken₁ : s₁.Alike { s₁ with registry := (s₁.registry.takeObligations p).2 } := ⟨rfl, rfl, rfl, rfl⟩
    refine (runAll_induction (P := fun s₂ => s.Alike s₂ ∧ P s₂) (fun call hmem s₂ ⟨halike₂, hs₂⟩ => ?_)
      ⟨halike.trans htaken₁, hsame s₁ _ hreplayed htaken₁ rfl⟩).2
    obtain ⟨o, -, rfl⟩ := List.mem_map.1 hmem
    unfold settleObligation
    split
    · exact ⟨halike₂.trans ⟨rfl, rfl, rfl, rfl⟩, hsame s₂ _ hs₂ ⟨rfl, rfl, rfl, rfl⟩ rfl⟩
    · have hcalled : s₂.Called (after (updateNode o.type o.owner (o.followUp id)) s₂) :=
        (updateNode_wrote (hc.congr halike₂) _).called
      exact ⟨halike₂.trans hcalled.follows.alike, hcall _ _ hs₂ hcalled⟩

/-- A node that is settled takes the writes of no other. -/
theorem holds_settle (hc : s.Compiled) (h : p ≠ q) (id : NodeId) :
    Registry.Holds p s.registry (after (settle q id) s).registry :=
  settle_induction (P := fun s' => Registry.Holds p s.registry s'.registry) hc (.refl _)
    (fun _ _ hs₁ hcalled => hs₁.trans hcalled.holds)
    (fun _ _ hs₁ _ hentries => hs₁.trans (Registry.holds_of_entry (by unfold Registry.entry?; rw [hentries])))
    (Registry.holds_takeQueue s.registry h) id

theorem precedes_settle (hc : s.Compiled) (hp : ¬s.registry.Unsettled p) (id : NodeId) :
    s.Precedes (after (settle p id) s) :=
  settle_induction (P := s.Precedes) hc (.refl s) (fun _ _ hs₁ hcalled => hs₁.trans hcalled.precedes)
    (fun _ _ hs₁ halike hentries => hs₁.trans ⟨halike, .of_entries hentries⟩)
    (precedes_of_registry (Registry.waits_takeQueue hp)) id

/-- All nodes of a batch are settled, one after the other. -/
theorem precedes_settleAll (hc : s.Compiled) {pairs : List (PendingId × NodeId)}
    (hpairs : ∀ x ∈ pairs, s.registry.status x.1 = .ok (.resolved x.2)) :
    s.Precedes (runAll (pairs.map fun x => settle x.1 x.2) s).2 := by
  refine runAll_induction (P := s.Precedes) (fun call hcall s₁ hs₁ => ?_) (.refl s)
  obtain ⟨x, hx, rfl⟩ := List.mem_map.1 hcall
  have hresolved := hs₁.waits.later.status_resolved (hpairs x hx)
  exact hs₁.trans (precedes_settle (hc.congr hs₁.alike) (fun h => h.not_resolved x.2 hresolved) x.2)

/-- Meanwhile the writes of another node wait. -/
theorem holds_settleAll (hc : s.Compiled) {pairs : List (PendingId × NodeId)}
    (hpairs : ∀ x ∈ pairs, s.registry.status x.1 = .ok (.resolved x.2)) (hp : ∀ x ∈ pairs, p ≠ x.1) :
    Registry.Holds p s.registry (runAll (pairs.map fun x => settle x.1 x.2) s).2.registry := by
  refine (runAll_induction (P := fun s' => s.Precedes s' ∧ Registry.Holds p s.registry s'.registry)
    (fun call hcall s₁ ⟨hs₁, hholds⟩ => ?_) ⟨.refl s, .refl _⟩).2
  obtain ⟨x, hx, rfl⟩ := List.mem_map.1 hcall
  have hc₁ := hc.congr hs₁.alike
  have hresolved := hs₁.waits.later.status_resolved (hpairs x hx)
  exact ⟨hs₁.trans (precedes_settle hc₁ (fun h => h.not_resolved x.2 hresolved) x.2),
    hholds.trans (holds_settle hc₁ (hp x hx) x.2)⟩

/-- The nodes of a batch get their ids. -/
theorem precedes_resolveAll (s : Session) (seq : Nat) (pairs : List (PendingId × NodeId)) :
    s.Precedes { s with registry := (resolveAll pairs (s.registry.takeInFlight seq).2).2 } :=
  precedes_of_registry ((Registry.waits_takeInFlight s.registry seq).trans (Registry.waits_resolveAll pairs _))

theorem Call.precedes (hc : s.Compiled) (c : Call) : s.Precedes (c.run s) := by
  rcases Call.called hc c with ⟨hcalled, -⟩ | rfl | ⟨seq, result, rfl⟩
  · exact hcalled.precedes
  · have hclose := (called_close s).precedes
    exact ⟨⟨hclose.alike.schema, hclose.alike.maxBuffer, hclose.alike.lenient, hclose.alike.locale⟩, hclose.waits⟩
  · rw [Call.run]
    cases hfind : Assoc.find? seq s.registry.inFlight with
    | none =>
      rw [after_acknowledge_unknown hfind]
      exact .refl s
    | some creates =>
      cases hresult : refusal seq creates.length result with
      | some error =>
        rw [after_acknowledge_refused hfind hresult]
        exact precedes_of_registry ((Registry.waits_takeInFlight s.registry seq).trans
          (Registry.waits_foldl_fail (.batch seq error) creates _))
      | none =>
        obtain ⟨ids, -, -, hafter⟩ := after_acknowledge_accepted hfind hresult
        have hresolves := precedes_resolveAll s seq (creates.zip ids)
        rw [hafter]
        exact hresolves.trans (precedes_settleAll (hc.congr hresolves.alike) fun x hx =>
          ((Registry.resolveAll_spec (creates.zip ids) _).resolved x.1 x.2 hx).2)

theorem precedes_calls (hc : s.Compiled) (cs : List Call) : s.Precedes (cs.foldl Call.run s) := by
  induction cs generalizing s with
  | nil => exact .refl s
  | cons c cs ih =>
    have hfirst := Call.precedes hc c
    exact hfirst.trans (ih (hc.congr hfirst.alike))

end Session

end NodeStore.Write
