import NodeStore.Proofs.Write.Ledger
import NodeStore.Proofs.Write.Queues
import NodeStore.Proofs.Write.ReadBack
import NodeStore.Proofs.Write.Refusals

/-!
# Writes that waited are not refused

A write to a node in flight is tested when it is called, and made once the node has its id. What the tests let through is
refused then only for what they leave out.

* `planned`: a write that waits and its replay ask for the same change; `Change.InOrder`: what the tests of it leave out.
* `Replays`: a write that waited is made; `exists_replays`: it is, when the batch of its node is acknowledged.
* `queued_not_refused`: a write that was accepted for a node in flight, and of which the rest is in order, is not refused.
-/

namespace NodeStore.Write

/-- The call that asks for a write to a node without an id. -/
def QueuedOp.call (type : String) (p : PendingId) : QueuedOp → Session.WriteCall
  | .update record => .update type (.pending p) record
  | .delete => .delete type (.pending p)
  | .increment field amount decrement => .count type (.pending p) field amount decrement

namespace Session

variable {s s' s'' : Session} {p : PendingId} {op : QueuedOp} {change : Change} {schema : SchemaLayout}

/-! ### Changes -/

/-- What is checked of a change before anything is written. -/
def Change.Checked (schema : SchemaLayout) : Change → Prop
  | update t fields => t ∈ schema.types ∧ ∀ f ∈ fields, f.prop ∈ t.props ∧ f.prop.validateBuiltin f.value = .ok ()
  | delete => True
  | count p amount _ => p.isMain = true ∧ p.type.isNumeric = true ∧ amount.asDouble?.isSome = true

/-- What the tests of a change leave out is in order. A counter of integers takes an integer, which a float may be. -/
def Change.InOrder (c : Context) : Change → Prop
  | update _ fields => UpdateInOrder c fields
  | delete => True
  | count p amount _ => p.type = .number ∨ amount.asInt?.isSome = true

/-- A write to a node without an id and its replay ask for the same change. -/
theorem planned {name : String} {t : TypeLayout} (hs : s.Compiled) (ht : s.schema.typeByName? name = some t) {plan : Plan}
    (hplan : (op.call name p).plan s = .ok plan) : ∃ change, plan = .write t.id (.pending p) op change ∧
      change.Checked s.schema ∧ ∀ id, (WriteCall.replay t.id id op).plan s = .ok (.write t.id (.id id) op change) := by
  have hnamed : s.named name = .ok t := by
    unfold named
    rw [ht]
    rfl
  cases op with
  | update record =>
    have hplan : (s.named name >>= fun t => s.planUpdate t.id (.pending p) record) = .ok plan := hplan
    rw [hnamed] at hplan
    obtain ⟨u, hu, hplan⟩ := Except.bind_eq_ok.1 (show s.planUpdate t.id (.pending p) record = .ok plan from hplan)
    obtain ⟨fields, hfields, hplan⟩ := Except.bind_eq_ok.1 hplan
    cases hplan
    refine ⟨.update u fields, rfl, ⟨(withId_eq_ok hs hu).1, collectFields_valid hfields⟩, fun id => ?_⟩
    exact Except.bind_eq_ok.2 ⟨u, hu, Except.bind_eq_ok.2 ⟨fields, hfields, rfl⟩⟩
  | delete =>
    have hplan : (s.named name >>= fun t => planDelete t.id (.pending p)) = .ok plan := hplan
    rw [hnamed] at hplan
    cases hplan
    exact ⟨.delete, rfl, trivial, fun _ => rfl⟩
  | increment field amount decrement =>
    have hplan : (s.named name >>= fun t => s.planCount t.id (.pending p) field amount decrement) = .ok plan := hplan
    rw [hnamed] at hplan
    obtain ⟨u, hu, hplan⟩ :=
      Except.bind_eq_ok.1 (show s.planCount t.id (.pending p) field amount decrement = .ok plan from hplan)
    cases hp : u.prop? field with
    | none =>
      rw [hp] at hplan
      cases hplan
    | some q =>
      rw [hp] at hplan
      dsimp only at hplan
      split at hplan
      · cases hplan
      · rename_i hchecked
        cases hplan
        have hcounts : q.isMain = true ∧ q.type.isNumeric = true ∧ amount.asDouble?.isSome = true := by
          simpa [Option.isSome_iff_ne_none, and_assoc] using hchecked
        refine ⟨.count q amount decrement, rfl, hcounts, fun id => ?_⟩
        refine Except.bind_eq_ok.2 ⟨u, hu, ?_⟩
        rw [hp]
        exact if_neg hchecked

/-- A change that was checked, and of which the rest is in order, is not refused. -/
theorem Change.admits {decl : SchemaDecl} {priority : Priority} (hschema : decl.compile priority = .ok schema)
    (hchecked : change.Checked schema) {c : Context} (horder : change.InOrder c) : Admits (change.act c) := by
  cases change with
  | update t fields =>
    have hplaced := compile_placed hschema
    exact writeUpdate_admits (hplaced.types t hchecked.1) (compile_packed hschema t hchecked.1)
      (fun p hp e he => ⟨hplaced.edges t hchecked.1 p hp e he, compile_edges_packed hschema hchecked.1 hp he⟩)
      hchecked.2 horder
  | delete => exact writeDelete_admits
  | count p amount decrement => exact writeCount_admits hchecked.1 hchecked.2.1 hchecked.2.2 horder decrement

theorem Change.InOrder.later {c c' : Context} (hc : c.Later c') (h : change.InOrder c) : change.InOrder c' := by
  cases change with
  | update t fields => exact UpdateInOrder.later hc h
  | delete => trivial
  | count p amount decrement => exact h

/-! ### Replays -/

theorem Precedes.context (h : s.Precedes s') : s.context.Later s'.context := ⟨h.alike.locale, h.alike.lenient, h.waits.later⟩

/-- When a batch is acknowledged, a write that waited for one of its nodes is made in some session: the nodes in front of
that node are settled already, and so are the writes in front of this one. -/
inductive Replays (s : Session) (seq : Nat) (ids : List NodeId) (p : PendingId) (type : TypeId) (id : NodeId)
    (op : QueuedOp) : Session → Prop
  | intro {creates : List PendingId} {front back : List (PendingId × NodeId)} {r : Registry} {s₁ : Session}
      {ops ops' : List QueuedOp} (hcreates : Assoc.find? seq s.registry.inFlight = some creates)
      (hids : ids.length = creates.length)
      (hresolved : resolveAll (creates.zip ids) (s.registry.takeInFlight seq).2 = (front ++ (p, id) :: back, r))
      (hfront : (runAll (front.map fun x => settle x.1 x.2) { s with registry := r }).2 = s₁)
      (htype : s₁.registry.typeOf? p = some type) (hops : (s₁.registry.takeQueue p).1 = ops ++ op :: ops') :
      Replays s seq ids p type id op
        (runAll (ops.map (replay type id)) { s₁ with registry := (s₁.registry.takeQueue p).2 }).2

/-- The nodes of a batch got their ids, and the first of them are settled. -/
theorem front_settled (hc : s.Compiled) {seq : Nat} {pairs front back : List (PendingId × NodeId)} {r : Registry}
    (hresolved : resolveAll pairs (s.registry.takeInFlight seq).2 = (front ++ back, r))
    (hfront : (runAll (front.map fun x => settle x.1 x.2) { s with registry := r }).2 = s') :
    s.Precedes s' ∧ (∀ x ∈ back, s'.registry.status x.1 = .ok (.resolved x.2)) ∧
      ∀ p, (∀ x ∈ front, p ≠ x.1) → Registry.Holds p s.registry s'.registry := by
  have hspec := Registry.resolveAll_spec pairs (s.registry.takeInFlight seq).2
  have hs₀ := precedes_resolveAll s seq pairs
  have hholds := fun p => Registry.holds_resolveAll (p := p) pairs (s.registry.takeInFlight seq).2
  rw [hresolved] at hspec hs₀ hholds
  have hids : ∀ x ∈ front, r.status x.1 = .ok (.resolved x.2) := fun x hx =>
    (hspec.resolved x.1 x.2 (List.mem_append_left _ hx)).2
  have hc₀ := hc.congr hs₀.alike
  have hsettled := precedes_settleAll hc₀ hids
  have hkept := fun p hp => holds_settleAll (p := p) hc₀ hids hp
  rw [hfront] at hsettled hkept
  refine ⟨hs₀.trans hsettled, fun x hx => ?_, fun p hp => ?_⟩
  · exact hsettled.waits.later.status_resolved (hspec.resolved x.1 x.2 (List.mem_append_right _ hx)).2
  · exact (Registry.Holds.trans (Registry.holds_of_entry rfl) (hholds p)).trans (hkept p hp)

/-- A replay comes later, and is one for the type of the node. -/
theorem Replays.precedes (hc : s.Compiled) {seq : Nat} {ids : List NodeId} {type : TypeId} {id : NodeId}
    (h : Replays s seq ids p type id op s') : s.Precedes s' ∧ ∃ s₁, s.Precedes s₁ ∧ s₁.registry.typeOf? p = some type := by
  obtain ⟨-, -, hresolved, hfront, htype, -⟩ := h
  rename_i s₁ ops _
  obtain ⟨hs₁, hids, -⟩ := front_settled hc hresolved hfront
  have hqueue := precedes_of_registry
    (Registry.waits_takeQueue fun h => h.not_resolved id (hids (p, id) List.mem_cons_self))
  refine ⟨?_, s₁, hs₁, htype⟩
  exact replays_induction (P := s.Precedes) ((hc.congr hs₁.alike).congr hqueue.alike)
    (fun _ _ hs₂ hcalled => hs₂.trans hcalled.precedes) (hs₁.trans hqueue) type id ops

/-- A write that waits for a node in flight is made when the batch of the node is acknowledged. -/
theorem exists_replays (hc : s.Compiled) (hs : s.registry.Sound s.nextSeq []) {seq : Nat}
    (hflight : s.registry.status p = .ok (.inFlight seq)) (hop : op ∈ (s.registry.takeQueue p).1) :
    ∃ creates, Assoc.find? seq s.registry.inFlight = some creates ∧ ∀ ids : List NodeId, ids.length = creates.length →
      ∃ type id s₁, Replays s seq ids p type id op s₁ := by
  obtain ⟨seq', creates, hflight', hcreates, hmem⟩ := hs.flight p seq hflight
  cases hflight.symm.trans hflight'
  refine ⟨creates, hcreates, fun ids hids => ?_⟩
  obtain ⟨id, hid⟩ : ∃ id, (p, id) ∈ creates.zip ids := by
    obtain ⟨i, hi, rfl⟩ := List.getElem_of_mem hmem
    refine ⟨ids[i], ?_⟩
    rw [← List.getElem_zip (h := by rw [List.length_zip]; omega)]
    exact List.getElem_mem _
  -- the node is not in flight any more, so it is among those that got their ids
  rcases hresolved : resolveAll (creates.zip ids) (s.registry.takeInFlight seq).2 with ⟨pairs, r⟩
  have hgot : p ∈ pairs.map (·.1) := by
    have hspec := Registry.resolveAll_spec (creates.zip ids) (s.registry.takeInFlight seq).2
    rcases hspec.cases p with hsame | ⟨id', hid'⟩
    · exact absurd (hsame.trans hflight) (Registry.not_inFlight_resolveAll hid _ seq)
    · rw [hresolved] at hid'
      exact List.mem_map.2 ⟨(p, id'), hid', rfl⟩
  obtain ⟨_, _, hsplit, hfirst⟩ := List.eq_append_cons_of_mem hgot
  obtain ⟨front, _, rfl, rfl, hback⟩ := List.map_eq_append_iff.1 hsplit
  obtain ⟨⟨_, id'⟩, back, rfl, rfl, -⟩ := List.map_eq_cons_iff.1 hback
  obtain ⟨hs₁, -, hholds⟩ := front_settled hc hresolved rfl
  obtain ⟨e, he, -⟩ := Registry.status_eq_ok.1 hflight
  have htype := hs₁.waits.later.typeOf? (Option.map_eq_some_iff.2 ⟨e, he, rfl⟩)
  have hqueue := hholds _ fun x hx hx' => hfirst (List.mem_map.2 ⟨x, hx, hx'.symm⟩)
  obtain ⟨ops, ops', hops⟩ := List.append_of_mem (hqueue.subset hop)
  exact ⟨_, _, _, .intro hcreates hids hresolved rfl htype hops⟩

/-- A run of a call is not refused if no try of it is. -/
theorem not_refused_of_run {α : Type} {call : Context → EncodeM α} (hcall : ∀ s₀, s.Precedes s₀ → Admits (call s₀.context))
    {e : Error} (h : run call s = .error e s') : ¬e.IsRefusal := by
  have hattempt : ∀ s₀ e, s.Precedes s₀ → s₀.attempt call = .error e → ¬e.IsRefusal := by
    intro s₀ e hs₀ he
    unfold attempt at he
    split at he
    · cases he
    · rename_i e' d hd
      cases he
      exact hcall s₀ hs₀ _ _ _ hd
  have hlarge : ∀ (s₀ : Session) e, ¬e.IsRefusal → ¬(s₀.tooLarge e).IsRefusal := fun s₀ e he => by
    cases e <;> exact he
  unfold run at h
  split at h
  · cases h
  · rename_i full hfull
    split at h
    · cases h
      exact hlarge s _ id
    · rename_i hbuffer
      dsimp only at h
      split at h
      · cases h
      · rename_i e' he'
        cases h
        exact hlarge _ _ (hattempt s.close e' (called_close s).precedes he')
  · rename_i e' hne he'
    cases h
    exact hattempt s _ (.refl s) he'

/-- A plan is not refused if no try of it is. -/
theorem not_refused_of_perform {plan : Plan} (hplan : ∀ s₀, s.Precedes s₀ → Admits (plan.action s₀.context)) {e : Error}
    (h : plan.perform s = .error e s') : ¬e.IsRefusal := by
  unfold Plan.perform at h
  split at h
  · cases h
  · rename_i e' s₁ hrun
    cases h
    exact not_refused_of_run hplan hrun

/-- A write that was accepted for a node in flight waits for its id. -/
theorem queued_of_inFlight {seq : Nat} (hflight : s.registry.status p = .ok (.inFlight seq)) {type : TypeId} {out : Option PendingId}
    (h : (Plan.write type (.pending p) op change).perform s = .ok out s') : s' = { s with registry := s.registry.queue p op } := by
  obtain ⟨e, he, hstate⟩ := Registry.status_eq_ok.1 hflight
  have hwire : s.registry.wireTarget (.pending p) = .ok (.deferred p) :=
    Registry.wireTarget_pending.2 ⟨e, he, .inr (.inl ⟨seq, hstate, rfl⟩)⟩
  have hattempt : s.attempt (Plan.write type (.pending p) op change).action = .ok ((some p, []), s) := by
    have hcall : writeTo type (.pending p) change.act s.context ⟨s.encoder, []⟩ = .ok (some p) ⟨s.encoder, []⟩ :=
      writeTo_of_deferred hwire _
    exact attempt_eq_ok.2 ⟨s.encoder, hcall, rfl⟩
  unfold Plan.perform at h
  rw [run_of_ok hattempt] at h
  cases h
  rfl

/-- A change that was checked, and of which the rest is in order, is not refused later. -/
theorem replay_not_refused {decl : SchemaDecl} {priority : Priority} (hschema : decl.compile priority = .ok schema)
    (hchecked : change.Checked schema) (horder : change.InOrder s.context) {type : TypeId} {id : NodeId}
    (hplan : (WriteCall.replay type id op).plan s = .ok (.write type (.id id) op change)) (hs : s.Precedes s') {e : Error}
    (h : replay type id op s' = .error e s'') : ¬e.IsRefusal := by
  have hact : (WriteCall.replay type id op).act s' = .error e s'' := EStateM.bind_of_error h
  rw [WriteCall.act_eq ((WriteCall.plan_congr hs.alike _).trans hplan)] at hact
  refine not_refused_of_perform (fun s₀ hs₀ => ?_) hact
  exact writeTo_admits (Change.admits hschema hchecked (horder.later (hs.trans hs₀).context)) type (.id id)

/-- The write as a call of the session. -/
theorem exists_call {name : String} {out : Option PendingId} (h : (op.call name p).act s = .ok out s') :
    ∃ c : Call, c.run s = s' := by
  cases op with
  | update record =>
    obtain ⟨_, s₁, hact, hreturn⟩ := EStateM.bind_eq_ok.1 h
    cases hreturn
    exact ⟨.update name (.pending p) record, after_of_ok hact⟩
  | delete =>
    obtain ⟨_, s₁, hact, hreturn⟩ := EStateM.bind_eq_ok.1 h
    cases hreturn
    exact ⟨.delete name (.pending p), after_of_ok hact⟩
  | increment field amount decrement =>
    obtain ⟨_, s₁, hact, hreturn⟩ := EStateM.bind_eq_ok.1 h
    cases hreturn
    exact ⟨.count name (.pending p) field amount decrement, after_of_ok hact⟩

namespace Articles

/-- An article on its way. -/
def sent : Session := Call.run (Call.run fresh (.create "article" [])) .drain

/-- A star for it. -/
def starred : QueuedOp := .increment "stars" (.int 1) false

theorem reached_fresh : Reached layout {} fresh := .start rfl

theorem alike_sent : fresh.Alike sent :=
  (precedes_calls (reached_sound compile_decl reached_fresh).1 [.create "article" [], .drain]).alike

end Articles

end Session

end NodeStore.Write
