import NodeStore.Proofs.Inversion
import NodeStore.Write.Session

/-!
# What becomes of created nodes

* `Registry.Sends`: what calls and closed buffers do to the states of nodes.
* `Registry.Later`: whatever happens, resolved and failed nodes stay so.
* `failAll_spec`: a failure takes the obligations of the nodes that it reaches, and no other.
-/

namespace NodeStore.Write

namespace PendingState

/-- Closing a buffer sends its creates on their way. -/
def Sends (s s' : PendingState) : Prop := s' = s ∨ (∃ tmp, s = .buffered tmp) ∧ ∃ seq, s' = .inFlight seq

theorem Sends.trans {s s' s'' : PendingState} (h : s.Sends s') (h' : s'.Sends s'') : s.Sends s'' := by
  rcases h with rfl | ⟨hs, seq, rfl⟩
  · exact h'
  · rcases h' with rfl | ⟨⟨_, h⟩, -⟩
    · exact .inr ⟨hs, seq, rfl⟩
    · cases h

end PendingState

namespace Registry

variable {r r' r'' : Registry} {p q : PendingId} {e : PendingEntry}

theorem entry?_modifyEntry (r : Registry) (p q : PendingId) (f : PendingEntry → PendingEntry) :
    entry? (r.modifyEntry p f) q = if q = p then (r.entry? q).map f else r.entry? q := by
  unfold modifyEntry entry?
  by_cases hp : p.raw = 0
  · by_cases hq : q = p
    · simp [hp, hq]
    · simp [hp, hq]
  · by_cases hq : q.raw = 0
    · have hne : q ≠ p := fun h => hp (h ▸ hq)
      simp [hq, hne]
    · simp only [if_neg hp, if_neg hq, List.getElem?_modify]
      by_cases hpq : q = p
      · simp [hpq]
      · have hraw : p.raw ≠ q.raw := fun h => hpq (by cases p; cases q; simp_all)
        have hne : ¬p.raw - 1 = q.raw - 1 := by omega
        simp [hpq, hne]

theorem modifyEntry_batches (r : Registry) (p : PendingId) (f : PendingEntry → PendingEntry) :
    (r.modifyEntry p f).buffered = r.buffered ∧ (r.modifyEntry p f).inFlight = r.inFlight := by
  unfold modifyEntry
  split <;> exact ⟨rfl, rfl⟩

theorem length_entries_modifyEntry (r : Registry) (p : PendingId) (f : PendingEntry → PendingEntry) :
    (r.modifyEntry p f).entries.length = r.entries.length := by
  unfold modifyEntry
  split
  · rfl
  · exact List.length_modify ..

theorem status_eq_ok {s : PendingState} : r.status p = .ok s ↔ ∃ e, r.entry? p = some e ∧ e.state = s := by
  unfold status
  cases r.entry? p with
  | none => simp
  | some e => simp

theorem status_of_state {s : PendingState} (h : (r.entry? p).map (·.state) = some s) : r.status p = .ok s := by
  obtain ⟨e, he, hs⟩ := Option.map_eq_some_iff.1 h
  exact status_eq_ok.2 ⟨e, he, hs⟩

theorem wireTarget_pending {w : WireTarget} :
    r.wireTarget (.pending p) = .ok w ↔
      ∃ e, r.entry? p = some e ∧
        ((∃ tmp, e.state = .buffered tmp ∧ w = .tmp tmp) ∨ (∃ seq, e.state = .inFlight seq ∧ w = .deferred p) ∨
          ∃ n, e.state = .resolved n ∧ w = .id n) := by
  constructor
  · intro h
    obtain ⟨state, hs, hw⟩ := Except.bind_eq_ok.1 h
    obtain ⟨e, he, rfl⟩ := status_eq_ok.1 hs
    refine ⟨e, he, ?_⟩
    cases hstate : e.state with
    | buffered tmp => rw [hstate] at hw; cases hw; exact .inl ⟨tmp, rfl, rfl⟩
    | inFlight seq => rw [hstate] at hw; cases hw; exact .inr (.inl ⟨seq, rfl, rfl⟩)
    | resolved n => rw [hstate] at hw; cases hw; exact .inr (.inr ⟨n, rfl, rfl⟩)
    | failed f => rw [hstate] at hw; cases hw
  · rintro ⟨e, he, ⟨tmp, hs, rfl⟩ | ⟨seq, hs, rfl⟩ | ⟨n, hs, rfl⟩⟩ <;>
      exact Except.bind_eq_ok.2 ⟨_, status_eq_ok.2 ⟨e, he, hs⟩, rfl⟩

/-- A node may be referred to unless it has failed. -/
theorem exists_wireTarget_pending :
    (∃ w, r.wireTarget (.pending p) = .ok w) ↔ ∃ e, r.entry? p = some e ∧ ∀ f, e.state ≠ .failed f := by
  constructor
  · rintro ⟨w, hw⟩
    obtain ⟨e, he, hs⟩ := wireTarget_pending.1 hw
    refine ⟨e, he, fun f hf => ?_⟩
    rw [hf] at hs
    rcases hs with ⟨_, h, -⟩ | ⟨_, h, -⟩ | ⟨_, h, -⟩ <;> cases h
  · rintro ⟨e, he, hs⟩
    cases hstate : e.state with
    | buffered tmp => exact ⟨_, wireTarget_pending.2 ⟨e, he, .inl ⟨tmp, hstate, rfl⟩⟩⟩
    | inFlight seq => exact ⟨_, wireTarget_pending.2 ⟨e, he, .inr (.inl ⟨seq, hstate, rfl⟩)⟩⟩
    | resolved n => exact ⟨_, wireTarget_pending.2 ⟨e, he, .inr (.inr ⟨n, hstate, rfl⟩)⟩⟩
    | failed f => exact absurd hstate (hs f)

/-- A batch that is closed and not acknowledged. -/
def Awaits (r : Registry) (seq : Nat) : Prop := ∃ ps, Assoc.find? seq r.inFlight = some ps

/-! ### Calls -/

/-- The states of nodes after some calls. -/
def Sends (r r' : Registry) : Prop :=
  ∀ q e, r.entry? q = some e → ∃ e', r'.entry? q = some e' ∧ e'.type = e.type ∧ e.state.Sends e'.state

theorem Sends.refl (r : Registry) : r.Sends r := fun _ e he => ⟨e, he, rfl, .inl rfl⟩

theorem Sends.trans (h : r.Sends r') (h' : r'.Sends r'') : r.Sends r'' := by
  intro q e he
  obtain ⟨e', he', ht, hs⟩ := h q e he
  obtain ⟨e'', he'', ht', hs'⟩ := h' q e' he'
  exact ⟨e'', he'', ht'.trans ht, hs.trans hs'⟩

theorem Sends.of_entries (h : r'.entries = r.entries) : r.Sends r' := by
  intro q e he
  refine ⟨e, ?_, rfl, .inl rfl⟩
  rw [ entry?, h]
  exact he

theorem Sends.modifyEntry (r : Registry) (p : PendingId) {f : PendingEntry → PendingEntry}
    (hf : ∀ e, (f e).type = e.type ∧ e.state.Sends (f e).state) : r.Sends (r.modifyEntry p f) := by
  intro q e he
  rw [ entry?_modifyEntry, he]
  split
  · exact ⟨f e, rfl, hf e⟩
  · exact ⟨e, rfl, rfl, .inl rfl⟩

/-- A new entry changes no other. -/
theorem entry?_register {type : TypeId} (h : r.entry? q = some e) : entry? (r.register type).2 q = some e := by
  unfold entry? at h ⊢
  split at h
  · cases h
  · rename_i hq
    rw [if_neg hq]
    exact List.getElem?_append_left (List.getElem?_eq_some_iff.1 h).1 |>.trans h

theorem status_register {type : TypeId} {state : PendingState} (h : r.status q = .ok state) :
    (r.register type).2.status q = .ok state := by
  obtain ⟨e, he, hstate⟩ := status_eq_ok.1 h
  exact status_eq_ok.2 ⟨e, entry?_register he, hstate⟩

theorem wireTarget_register {type : TypeId} {owner : NodeRef} {w : WireTarget} (h : r.wireTarget owner = .ok w) :
    (r.register type).2.wireTarget owner = .ok w := by
  cases owner with
  | id n => exact h
  | pending p =>
    obtain ⟨e, he, hstate⟩ := wireTarget_pending.1 h
    exact wireTarget_pending.2 ⟨e, entry?_register he, hstate⟩

/-- The new node is addressed by its number in the open buffer. -/
theorem wireTarget_register_self (r : Registry) (type : TypeId) :
    (r.register type).2.wireTarget (.pending (r.register type).1) = .ok (.tmp r.nextTmp) := by
  refine wireTarget_pending.2 ⟨⟨type, .buffered r.nextTmp, []⟩, ?_, .inl ⟨r.nextTmp, rfl, rfl⟩⟩
  have hraw : (r.register type).1.raw ≠ 0 := Nat.succ_ne_zero _
  unfold entry?
  rw [if_neg hraw]
  exact List.getElem?_concat_length ..

theorem Sends.register (r : Registry) (type : TypeId) : r.Sends (r.register type).2 :=
  fun _ e he => ⟨e, entry?_register he, rfl, .inl rfl⟩

theorem Sends.queue (r : Registry) (p : PendingId) (op : QueuedOp) : r.Sends (r.queue p op) :=
  .modifyEntry r p fun _ => ⟨rfl, .inl rfl⟩

theorem Sends.takeQueue (r : Registry) (p : PendingId) : r.Sends (r.takeQueue p).2 :=
  .modifyEntry r p fun _ => ⟨rfl, .inl rfl⟩

theorem Sends.foldl {f : PendingEntry → PendingEntry} (hf : ∀ e, (f e).type = e.type ∧ e.state.Sends (f e).state)
    (ps : List PendingId) (r : Registry) : r.Sends (ps.foldl (fun r p => r.modifyEntry p f) r) := by
  induction ps generalizing r with
  | nil => exact .refl r
  | cons p ps ih => exact (Sends.modifyEntry r p hf).trans (ih _)

theorem Sends.close (r : Registry) (seq : Nat) : r.Sends (r.close seq).2 := by
  refine (Sends.foldl (fun e => ?_) r.buffered r).trans (.of_entries rfl)
  split
  · rename_i tmp hs
    exact ⟨rfl, .inr ⟨⟨tmp, hs⟩, seq, rfl⟩⟩
  · exact ⟨rfl, .inl rfl⟩

/-- A node that may be referred to may be so after calls. -/
theorem Sends.wireTarget (h : r.Sends r') {owner : NodeRef} {w : WireTarget} (hw : r.wireTarget owner = .ok w) :
    ∃ w', r'.wireTarget owner = .ok w' := by
  cases owner with
  | id n => exact ⟨_, rfl⟩
  | pending p =>
    obtain ⟨e, he, hlive⟩ := exists_wireTarget_pending.1 ⟨w, hw⟩
    obtain ⟨e', he', -, hs⟩ := h p e he
    refine exists_wireTarget_pending.2 ⟨e', he', fun f hf => ?_⟩
    rcases hs with hs | ⟨-, seq, hs⟩
    · exact hlive f (hs.symm.trans hf)
    · rw [hs] at hf
      cases hf

/-- A node in flight stays so during calls. -/
theorem Sends.status_inFlight (h : r.Sends r') {seq : Nat} (hp : r.status p = .ok (.inFlight seq)) :
    r'.status p = .ok (.inFlight seq) := by
  obtain ⟨e, he, hstate⟩ := status_eq_ok.1 hp
  obtain ⟨e', he', -, hs | ⟨⟨tmp, ht⟩, -⟩⟩ := h p e he
  · exact status_eq_ok.2 ⟨e', he', hs.trans hstate⟩
  · rw [hstate] at ht
    cases ht

/-! ### The same states -/

/-- The states of nodes are the same. -/
def SameStates (r r' : Registry) : Prop := ∀ q, (r'.entry? q).map (·.state) = (r.entry? q).map (·.state)

theorem SameStates.status (h : r.SameStates r') (p : PendingId) : r'.status p = r.status p := by
  have hp := h p
  unfold Registry.status
  cases he : r.entry? p <;> cases he' : r'.entry? p <;> simp_all

theorem SameStates.wireTarget (h : r.SameStates r') (target : NodeRef) : r'.wireTarget target = r.wireTarget target := by
  unfold Registry.wireTarget
  cases target with
  | id n => rfl
  | pending p =>
    dsimp only
    rw [h.status p]

theorem SameStates.of_entries (h : r'.entries = r.entries) : r.SameStates r' := by
  intro q
  unfold entry?
  rw [h]

theorem SameStates.modifyEntry (r : Registry) (p : PendingId) {f : PendingEntry → PendingEntry}
    (hf : ∀ e, (f e).state = e.state) : r.SameStates (r.modifyEntry p f) := by
  intro q
  rw [ entry?_modifyEntry]
  split
  · cases r.entry? q <;> simp [hf]
  · rfl

theorem SameStates.queue (r : Registry) (p : PendingId) (op : QueuedOp) : r.SameStates (r.queue p op) :=
  .modifyEntry r p fun _ => rfl

theorem SameStates.takeQueue (r : Registry) (p : PendingId) : r.SameStates (r.takeQueue p).2 :=
  .modifyEntry r p fun _ => rfl

/-! ### Acknowledged nodes -/

/-- Resolved and failed nodes stay so, and every node stays of its type. -/
def Later (r r' : Registry) : Prop :=
  ∀ q e, r.entry? q = some e → ∃ e', r'.entry? q = some e' ∧ e'.type = e.type ∧
    (e.state.settled = true → e'.state = e.state)

theorem Sends.later (h : r.Sends r') : r.Later r' := by
  intro q e he
  obtain ⟨e', he', ht, hs⟩ := h q e he
  refine ⟨e', he', ht, fun hsettled => ?_⟩
  rcases hs with hs | ⟨⟨tmp, hs⟩, -⟩
  · exact hs
  · rw [hs] at hsettled
    cases hsettled

theorem Later.trans (h : r.Later r') (h' : r'.Later r'') : r.Later r'' := by
  intro q e he
  obtain ⟨e', he', ht, hs⟩ := h q e he
  obtain ⟨e'', he'', ht', hs'⟩ := h' q e' he'
  refine ⟨e'', he'', ht'.trans ht, fun hsettled => ?_⟩
  have h₁ := hs hsettled
  rw [← h₁]
  exact hs' (by rw [h₁]; exact hsettled)

theorem Later.refl (r : Registry) : r.Later r := fun _ e he => ⟨e, he, rfl, fun _ => rfl⟩

/-- Every node stays of its type. -/
theorem Later.typeOf? (h : r.Later r') {type : TypeId} (hp : r.typeOf? p = some type) : r'.typeOf? p = some type := by
  obtain ⟨e, he, rfl⟩ := Option.map_eq_some_iff.1 hp
  obtain ⟨e', he', hsame, -⟩ := h p e he
  exact Option.map_eq_some_iff.2 ⟨e', he', hsame⟩

/-- Only a node that is not settled changes its state. -/
theorem Later.modifyEntry {f : PendingEntry → PendingEntry} (he : r.entry? p = some e) (hs : e.state.settled = false)
    (hf : ∀ e, (f e).type = e.type) : r.Later (r.modifyEntry p f) := by
  intro q e' he'
  rw [ entry?_modifyEntry, he']
  split
  · rename_i hq
    subst hq
    rw [he] at he'
    cases he'
    refine ⟨f e, rfl, hf e, fun h => ?_⟩
    rw [hs] at h
    cases h
  · exact ⟨e', rfl, rfl, fun _ => rfl⟩

theorem status_modifyEntry_of_ne (h : q ≠ p) (f : PendingEntry → PendingEntry) :
    (r.modifyEntry p f).status q = r.status q := by
  unfold status
  rw [ entry?_modifyEntry, if_neg h]

theorem wireTarget_modifyEntry_of_ne {owner : NodeRef} (h : owner ≠ .pending p) (f : PendingEntry → PendingEntry) :
    (r.modifyEntry p f).wireTarget owner = r.wireTarget owner := by
  cases owner with
  | id n => rfl
  | pending q =>
    have hq : q ≠ p := fun hqp => h (by rw [hqp])
    unfold wireTarget
    dsimp only
    rw [status_modifyEntry_of_ne hq]

/-- The state of a node that got its id. -/
theorem Later.status_resolved (h : r.Later r') {id : NodeId} (hp : r.status p = .ok (.resolved id)) :
    r'.status p = .ok (.resolved id) := by
  obtain ⟨e, he, hs⟩ := status_eq_ok.1 hp
  obtain ⟨e', he', -, hs'⟩ := h p e he
  exact status_eq_ok.2 ⟨e', he', (hs' (by rw [hs]; rfl)).trans hs⟩

theorem Later.status_failed (h : r.Later r') {f : PendingFailure} (hp : r.status p = .ok (.failed f)) :
    r'.status p = .ok (.failed f) := by
  obtain ⟨e, he, hs⟩ := status_eq_ok.1 hp
  obtain ⟨e', he', -, hs'⟩ := h p e he
  exact status_eq_ok.2 ⟨e', he', (hs' (by rw [hs]; rfl)).trans hs⟩

/-- What the answer to a batch does to its creates: those in flight get their ids. -/
structure Resolves (pairs : List (PendingId × NodeId)) (r r' : Registry) : Prop where
  later : r.Later r'
  obligations : r'.obligations = r.obligations
  known : ∀ owner w, r.wireTarget owner = .ok w → ∃ w', r'.wireTarget owner = .ok w'
  kept : ∀ owner w, r.wireTarget owner = .ok w → (∀ p, w ≠ .deferred p) → r'.wireTarget owner = .ok w
  others : ∀ q, (∀ id, (q, id) ∉ pairs) → r'.status q = r.status q
  resolved : ∀ q id, (q, id) ∈ pairs → (∃ seq, r.status q = .ok (.inFlight seq)) ∧ r'.status q = .ok (.resolved id)
  batches : r'.buffered = r.buffered ∧ r'.inFlight = r.inFlight
  length : r'.entries.length = r.entries.length

theorem Resolves.refl (r : Registry) : Resolves [] r r where
  later := .refl r
  obligations := rfl
  known _ w h := ⟨w, h⟩
  kept _ _ h _ := h
  others _ _ := rfl
  resolved _ _ h := absurd h List.not_mem_nil
  batches := ⟨rfl, rfl⟩
  length := rfl

/-- A node gets its id or is as it was. -/
theorem Resolves.cases {pairs : List (PendingId × NodeId)} (h : Resolves pairs r r') (q : PendingId) :
    r'.status q = r.status q ∨ ∃ id, (q, id) ∈ pairs := by
  by_cases hq : ∃ id, (q, id) ∈ pairs
  · exact .inr hq
  · exact .inl (h.others q fun id hid => hq ⟨id, hid⟩)

theorem Resolves.trans {ps qs : List (PendingId × NodeId)} (h : Resolves ps r r') (h' : Resolves qs r' r'') :
    Resolves (ps ++ qs) r r'' where
  later := h.later.trans h'.later
  obligations := h'.obligations.trans h.obligations
  known owner w hw := by
    obtain ⟨w', hw'⟩ := h.known owner w hw
    exact h'.known owner w' hw'
  kept owner w hw hd := h'.kept owner w (h.kept owner w hw hd) hd
  others q hq := (h'.others q fun id hid => hq id (List.mem_append_right _ hid)).trans
    (h.others q fun id hid => hq id (List.mem_append_left _ hid))
  resolved q id hid := by
    rcases List.mem_append.1 hid with hid | hid
    · obtain ⟨hflight, hresolved⟩ := h.resolved q id hid
      exact ⟨hflight, h'.later.status_resolved hresolved⟩
    · obtain ⟨⟨seq, hseq⟩, hresolved⟩ := h'.resolved q id hid
      refine ⟨⟨seq, ?_⟩, hresolved⟩
      rcases h.cases q with hq | ⟨id', hid'⟩
      · exact hq.symm.trans hseq
      · rw [(h.resolved q id' hid').2] at hseq
        cases hseq
  batches := ⟨h'.batches.1.trans h.batches.1, h'.batches.2.trans h.batches.2⟩
  length := h'.length.trans h.length

/-- A node in flight gets its id. -/
theorem Resolves.modifyEntry {seq : Nat} (he : r.entry? p = some e) (hs : e.state = .inFlight seq) (id : NodeId) :
    Resolves [(p, id)] r (r.modifyEntry p fun e => { e with state := .resolved id }) := by
  have hresolved : (r.modifyEntry p fun e => { e with state := .resolved id }).status p = .ok (.resolved id) := by
    refine status_eq_ok.2 ⟨{ e with state := .resolved id }, ?_, rfl⟩
    rw [ entry?_modifyEntry, if_pos rfl, he]
    rfl
  refine ⟨.modifyEntry he (by rw [hs]; rfl) fun _ => rfl, modifyEntry_obligations .., ?_, ?_, ?_, ?_,
    modifyEntry_batches .., length_entries_modifyEntry ..⟩
  · intro owner w hw
    by_cases ho : owner = .pending p
    · exact ⟨.id id, by rw [ho]; exact Except.bind_eq_ok.2 ⟨_, hresolved, rfl⟩⟩
    · exact ⟨w, by rwa [wireTarget_modifyEntry_of_ne ho]⟩
  · intro owner w hw hd
    by_cases ho : owner = .pending p
    · subst ho
      obtain ⟨e', he', hstate⟩ := wireTarget_pending.1 hw
      rw [he] at he'
      cases he'
      rw [hs] at hstate
      rcases hstate with ⟨_, h, -⟩ | ⟨_, -, hw⟩ | ⟨_, h, -⟩
      · cases h
      · exact absurd hw (hd p)
      · cases h
    · rwa [wireTarget_modifyEntry_of_ne ho]
  · intro q hq
    exact status_modifyEntry_of_ne (fun hqp => hq id (List.mem_singleton.2 (by rw [hqp]))) _
  · intro q id' hid
    cases List.mem_singleton.1 hid
    exact ⟨⟨seq, status_eq_ok.2 ⟨e, he, hs⟩⟩, hresolved⟩

/-- Of the creates of a batch those in flight get their ids. -/
theorem resolveAll_spec (pairs : List (PendingId × NodeId)) (r : Registry) :
    Resolves (Session.resolveAll pairs r).1 r (Session.resolveAll pairs r).2 := by
  induction pairs generalizing r with
  | nil => exact .refl r
  | cons x rest ih =>
    obtain ⟨p, id⟩ := x
    rw [Session.resolveAll]
    unfold resolve
    cases he : r.entry? p with
    | none => exact ih r
    | some e =>
      obtain ⟨type, state, queue⟩ := e
      cases state with
      | inFlight seq => exact (Resolves.modifyEntry he rfl id).trans (ih _)
      | buffered _ | resolved _ | failed _ => exact ih r

theorem resolveAll_sublist (pairs : List (PendingId × NodeId)) (r : Registry) :
    (Session.resolveAll pairs r).1.Sublist pairs := by
  induction pairs generalizing r with
  | nil => exact .refl _
  | cons x rest ih =>
    rw [Session.resolveAll]
    dsimp only
    split
    · exact (ih _).cons_cons x
    · exact (ih _).cons x

/-- No create of an acknowledged batch is in flight any more. -/
theorem not_inFlight_resolveAll {pairs : List (PendingId × NodeId)} {id : NodeId} (h : (p, id) ∈ pairs) (r : Registry)
    (seq : Nat) : (Session.resolveAll pairs r).2.status p ≠ .ok (.inFlight seq) := by
  induction pairs generalizing r with
  | nil => cases h
  | cons x rest ih =>
    have hrest := (resolveAll_spec rest (r.resolve x.1 x.2).2).later
    rcases List.mem_cons.1 h with rfl | h
    · intro hflight
      -- the first step leaves the node in another state than in flight, and no step brings it back to that
      have hfirst : ∀ seq', (r.resolve p id).2.status p ≠ .ok (.inFlight seq') := by
        intro seq' hs
        obtain ⟨e, he, hstate⟩ := status_eq_ok.1 hs
        unfold resolve at he
        split at he
        · rename_i htype hentry
          rw [ entry?_modifyEntry, if_pos rfl, hentry] at he
          cases he
          cases hstate
        · rename_i hentry
          obtain ⟨type, state, queue⟩ := e
          cases hstate
          exact hentry _ _ _ he
      rcases (resolveAll_spec rest (r.resolve p id).2).cases p with hs | ⟨id', hid'⟩
      · exact hfirst seq (hs.symm.trans hflight)
      · obtain ⟨⟨seq', hseq'⟩, -⟩ := (resolveAll_spec rest (r.resolve p id).2).resolved p id' hid'
        exact hfirst seq' hseq'
    · exact ih h _

/-! ### Failed nodes -/

/-- The node that holds a reference, or the node that it waits on, has failed. -/
def Drops (r : Registry) (o : Obligation) : Prop :=
  (∃ q f, o.owner = .pending q ∧ r.status q = .ok (.failed f)) ∨ ∃ f, r.status o.target = .ok (.failed f)

/-- What a failure does: it takes the obligations whose owner or target it reaches. -/
structure Fails (r r' : Registry) : Prop where
  later : r.Later r'
  sublist : r'.obligations.Sublist r.obligations
  owner : ∀ o ∈ r'.obligations, r'.wireTarget o.owner = r.wireTarget o.owner
  target : ∀ o ∈ r'.obligations, r'.status o.target = r.status o.target
  dropped : ∀ o ∈ r.obligations, o ∈ r'.obligations ∨ r'.Drops o
  batches : r'.buffered = r.buffered ∧ r'.inFlight = r.inFlight
  cases : ∀ q, r'.status q = r.status q ∨ ∃ f, r'.status q = .ok (.failed f)
  length : r'.entries.length = r.entries.length

theorem Fails.refl (r : Registry) : Fails r r where
  later := .refl r
  sublist := .refl _
  owner _ _ := rfl
  target _ _ := rfl
  dropped _ ho := .inl ho
  batches := ⟨rfl, rfl⟩
  cases _ := .inl rfl
  length := rfl

theorem Drops.later (h : r.Later r') {o : Obligation} (ho : r.Drops o) : r'.Drops o := by
  rcases ho with ⟨q, f, hq, hf⟩ | ⟨f, hf⟩
  · exact .inl ⟨q, f, hq, h.status_failed hf⟩
  · exact .inr ⟨f, h.status_failed hf⟩

theorem Fails.trans (h : Fails r r') (h' : Fails r' r'') : Fails r r'' where
  later := h.later.trans h'.later
  sublist := h'.sublist.trans h.sublist
  owner o ho := (h'.owner o ho).trans (h.owner o (h'.sublist.subset ho))
  target o ho := (h'.target o ho).trans (h.target o (h'.sublist.subset ho))
  dropped o ho := by
    rcases h.dropped o ho with ho | ho
    · exact h'.dropped o ho
    · exact .inr (ho.later h'.later)
  batches := ⟨h'.batches.1.trans h.batches.1, h'.batches.2.trans h.batches.2⟩
  cases q := by
    rcases h'.cases q with hq | hq
    · rw [hq]
      exact h.cases q
    · exact .inr hq
  length := h'.length.trans h.length

/-- A node whose state can still change. -/
def Unsettled (r : Registry) (p : PendingId) : Prop := ∃ e, r.entry? p = some e ∧ e.state.settled = false

/-- The registry once a node has failed and nothing waits on it any more. -/
abbrev dropNode (r : Registry) (p : PendingId) (failure : PendingFailure) : Registry :=
  ((r.markFailed p failure).takeObligations p).2

theorem mem_dropNode {failure : PendingFailure} {o : Obligation} :
    o ∈ (r.dropNode p failure).obligations ↔ o ∈ r.obligations ∧ o.owner ≠ .pending p ∧ o.target ≠ p := by
  simp only [dropNode, takeObligations, markFailed, modifyEntry_obligations, List.mem_filter, Bool.not_eq_true',
    decide_eq_false_iff_not]
  exact ⟨fun h => ⟨h.1.1, h.1.2, h.2⟩, fun h => ⟨⟨h.1, h.2.1⟩, h.2.2⟩⟩

theorem entry?_dropNode (failure : PendingFailure) :
    entry? (r.dropNode p failure) q =
      if q = p then (r.entry? q).map fun e => { e with state := .failed failure, queue := [] } else r.entry? q :=
  entry?_modifyEntry ..

theorem unsettled_dropNode {failure : PendingFailure} : (r.dropNode p failure).Unsettled q ↔ q ≠ p ∧ r.Unsettled q := by
  unfold Unsettled
  rw [ entry?_dropNode]
  split
  · rename_i hq
    refine ⟨?_, fun h => absurd hq h.1⟩
    rintro ⟨e, he, hs⟩
    obtain ⟨e', -, rfl⟩ := Option.map_eq_some_iff.1 he
    cases hs
  · rename_i hq
    exact ⟨fun h => ⟨hq, h⟩, fun h => h.2⟩

theorem status_dropNode_self (hp : r.Unsettled p) (failure : PendingFailure) :
    (r.dropNode p failure).status p = .ok (.failed failure) := by
  obtain ⟨e, he, -⟩ := hp
  refine status_eq_ok.2 ⟨{ e with state := .failed failure, queue := [] }, ?_, rfl⟩
  rw [ entry?_dropNode, if_pos rfl, he]
  rfl

theorem status_dropNode_of_ne (h : q ≠ p) (failure : PendingFailure) :
    (r.dropNode p failure).status q = r.status q := status_modifyEntry_of_ne h _

theorem later_dropNode (hp : r.Unsettled p) (failure : PendingFailure) : r.Later (r.dropNode p failure) := by
  obtain ⟨e, he, hs⟩ := hp
  have hlater := Later.modifyEntry (f := fun e => { e with state := .failed failure, queue := [] }) he hs fun _ => rfl
  exact hlater.trans (Sends.of_entries rfl).later

/-- One node fails, and its references and those that wait on it are dropped. -/
theorem Fails.dropNode (hp : r.Unsettled p) (failure : PendingFailure) : Fails r (r.dropNode p failure) where
  later := later_dropNode hp failure
  sublist := by
    simp only [Registry.dropNode, takeObligations, markFailed, modifyEntry_obligations]
    exact List.filter_sublist.trans List.filter_sublist
  owner _ ho := wireTarget_modifyEntry_of_ne (mem_dropNode.1 ho).2.1 _
  target _ ho := status_dropNode_of_ne (mem_dropNode.1 ho).2.2 failure
  dropped o ho := by
    by_cases howner : o.owner = .pending p
    · exact .inr (.inl ⟨p, failure, howner, status_dropNode_self hp failure⟩)
    · by_cases htarget : o.target = p
      · exact .inr (.inr ⟨failure, by rw [htarget]; exact status_dropNode_self hp failure⟩)
      · exact .inl (mem_dropNode.2 ⟨ho, howner, htarget⟩)
  batches := modifyEntry_batches ..
  cases q := by
    by_cases hq : q = p
    · exact .inr ⟨failure, by rw [hq]; exact status_dropNode_self hp failure⟩
    · exact .inl (status_dropNode_of_ne hq failure)
  length := length_entries_modifyEntry ..

/-- The test by which the worklist passes over a node. -/
theorem unsettled_iff : r.Unsettled p ↔ ¬((r.entry? p).map (·.state.settled)).getD true = true := by
  unfold Unsettled
  cases r.entry? p with
  | none => simp
  | some e => simp

/-- A failure takes the obligations of the nodes that it reaches, and no other. -/
theorem failAll_spec (r : Registry) (work : List (PendingId × PendingFailure)) : Fails r (r.failAll work) := by
  induction r, work using failAll.induct with
  | case1 r =>
    rw [failAll]
    exact .refl r
  | case2 r p failure work hsettled ih =>
    rw [failAll, if_pos hsettled]
    exact ih
  | case3 r p failure work hsettled marked taken ih =>
    rw [failAll, if_neg hsettled]
    exact (Fails.dropNode (unsettled_iff.2 hsettled) failure).trans ih

theorem fail_spec (r : Registry) (p : PendingId) (failure : PendingFailure) : Fails r (r.fail p failure) :=
  failAll_spec r _

/-- All creates of a batch fail. -/
theorem foldl_fail_spec (failure : PendingFailure) (ps : List PendingId) (r : Registry) :
    Fails r (ps.foldl (fun r p => r.fail p failure) r) := by
  induction ps generalizing r with
  | nil => exact .refl r
  | cons p ps ih => exact (fail_spec r p failure).trans (ih _)

end Registry

end NodeStore.Write
