import NodeStore.Proofs.Write.Calls
import NodeStore.Proofs.Write.Failures

/-!
# Nodes in flight

Between calls every obligation waits on a node of a batch that is not acknowledged, and no failed node owes anything.

* `Registry.Sound`: the invariant, given the nodes that are being settled.
* `Sound.oblige`, `register`, `close`, `takeObligations`, `acknowledged`: what happens to a registry keeps it.
-/

namespace NodeStore.Write

namespace Registry

variable {r r' : Registry} {p q : PendingId} {due : List PendingId} {bound : Nat}

/-- A node that will never get an id. -/
def Failed (r : Registry) (p : PendingId) : Prop := ∃ f, r.status p = .ok (.failed f)

/-- A node of a batch that is not acknowledged. -/
def Awaited (r : Registry) (p : PendingId) : Prop :=
  ∃ seq ps, r.status p = .ok (.inFlight seq) ∧ Assoc.find? seq r.inFlight = some ps ∧ p ∈ ps

/-- Batches are numbered below `bound`. Obligations wait on nodes in flight, or on those `due` that are being settled,
and they are owned by nodes that can be addressed. -/
structure Sound (r : Registry) (bound : Nat) (due : List PendingId) : Prop where
  buffered : ∀ p ∈ r.buffered, (∃ tmp, r.status p = .ok (.buffered tmp)) ∨ r.Failed p
  sent : ∀ seq ps, Assoc.find? seq r.inFlight = some ps →
    seq < bound ∧ ∀ p ∈ ps, r.status p = .ok (.inFlight seq) ∨ r.Failed p
  flight : ∀ p seq, r.status p = .ok (.inFlight seq) → r.Awaited p
  sorted : Assoc.Sorted r.inFlight
  waits : ∀ o ∈ r.obligations, (∃ seq, r.status o.target = .ok (.inFlight seq)) ∨ o.target ∈ due
  live : ∀ o ∈ r.obligations, ∃ w, r.wireTarget o.owner = .ok w

theorem Sound.empty : empty.Sound bound [] where
  buffered := nofun
  sent := nofun
  flight _ _ h := by
    obtain ⟨e, he, -⟩ := status_eq_ok.1 h
    simp [ entry?, Registry.empty] at he
  sorted := .nil
  waits := nofun
  live := nofun

/-- A node that may be referred to has not failed. -/
theorem not_failed_of_wireTarget {w : WireTarget} (h : r.wireTarget (.pending p) = .ok w) : ¬r.Failed p := by
  rintro ⟨f, hf⟩
  obtain ⟨e, he, hs⟩ := exists_wireTarget_pending.1 ⟨w, h⟩
  obtain ⟨e', he', hf⟩ := status_eq_ok.1 hf
  rw [he] at he'
  cases he'
  exact hs f hf

theorem Failed.later (h : r.Later r') (hp : r.Failed p) : r'.Failed p := by
  obtain ⟨f, hf⟩ := hp
  exact ⟨f, h.status_failed hf⟩

/-! ### Steps that keep all states -/

/-- What changes neither states nor batches keeps the invariant, if its new obligations are sound. -/
theorem Sound.sameStates (h : r.Sound bound due) {due' : List PendingId} (hsame : r.SameStates r')
    (hbuffered : r'.buffered = r.buffered) (hflight : r'.inFlight = r.inFlight)
    (hobligations : ∀ o ∈ r'.obligations, (o ∈ r.obligations ∧ (o.target ∈ due → o.target ∈ due')) ∨
      (∃ seq, r.status o.target = .ok (.inFlight seq)) ∧ ∃ w, r.wireTarget o.owner = .ok w) :
    r'.Sound bound due' := by
  have hawaited : ∀ p, r.Awaited p → r'.Awaited p := by
    rintro p ⟨seq, ps, hs, hf, hp⟩
    exact ⟨seq, ps, (hsame.status p).trans hs, by rw [hflight]; exact hf, hp⟩
  refine ⟨?_, ?_, ?_, ?_, ?_, ?_⟩
  · rw [hbuffered]
    unfold Failed
    simp only [hsame.status]
    exact h.buffered
  · rw [hflight]
    unfold Failed
    simp only [hsame.status]
    exact h.sent
  · intro p seq hp
    rw [hsame.status] at hp
    exact hawaited p (h.flight p seq hp)
  · rw [hflight]
    exact h.sorted
  · intro o ho
    rw [hsame.status]
    rcases hobligations o ho with ⟨ho, hdue⟩ | ⟨hseq, -⟩
    · exact (h.waits o ho).imp_right hdue
    · exact .inl hseq
  · intro o ho
    rw [hsame.wireTarget]
    rcases hobligations o ho with ⟨ho, -⟩ | ⟨-, hw⟩
    · exact h.live o ho
    · exact hw

theorem Sound.queue (h : r.Sound bound due) (p : PendingId) (op : QueuedOp) : (r.queue p op).Sound bound due := by
  have hbatches := modifyEntry_batches r p fun e => { e with queue := e.queue ++ [op] }
  refine h.sameStates (.queue r p op) hbatches.1 hbatches.2 fun o ho => ?_
  rw [show (r.queue p op).obligations = r.obligations from modifyEntry_obligations ..] at ho
  exact .inl ⟨ho, id⟩

theorem Sound.takeQueue (h : r.Sound bound due) (p : PendingId) : (r.takeQueue p).2.Sound bound due := by
  have hbatches := modifyEntry_batches r p fun e => { e with queue := [] }
  refine h.sameStates (.takeQueue r p) hbatches.1 hbatches.2 fun o ho => ?_
  rw [show (r.takeQueue p).2.obligations = r.obligations from modifyEntry_obligations ..] at ho
  exact .inl ⟨ho, id⟩

/-- Nothing waits on a node any more once its obligations are taken. -/
theorem Sound.takeObligations (h : r.Sound bound (p :: due)) : (r.takeObligations p).2.Sound bound due := by
  refine h.sameStates (.of_entries rfl) rfl rfl fun o ho => ?_
  obtain ⟨ho, hne⟩ := List.mem_filter.1 ho
  exact .inl ⟨ho, fun hdue => (List.mem_cons.1 hdue).resolve_left (by simpa using hne)⟩

/-- New obligations wait on nodes in flight. -/
theorem Sound.oblige (h : r.Sound bound due) {owner : NodeRef} {w : WireTarget} (howner : r.wireTarget owner = .ok w)
    (type : TypeId) {hs : List Placeholder} (hflight : ∀ x ∈ hs, ∃ seq, r.status x.target = .ok (.inFlight seq)) :
    (hs.foldl (fun r x => r.oblige owner type x) r).Sound bound due := by
  rw [foldl_oblige]
  refine h.sameStates (.of_entries rfl) rfl rfl fun o ho => ?_
  rcases List.mem_append.1 ho with ho | ho
  · exact .inl ⟨ho, id⟩
  · obtain ⟨x, hx, rfl⟩ := List.mem_map.1 ho
    exact .inr ⟨hflight x hx, w, howner⟩

/-! ### New creates -/

theorem status_register_of_ne {type : TypeId} (h : q ≠ (r.register type).1) :
    (r.register type).2.status q = r.status q := by
  have hentry : entry? (r.register type).2 q = r.entry? q := by
    unfold entry?
    split
    · rfl
    · rename_i hq
      have hraw : q.raw ≠ r.entries.length + 1 := fun hr => h (by cases q; cases hr; rfl)
      change (r.entries ++ [_])[q.raw - 1]? = _
      rw [List.getElem?_append]
      split
      · rfl
      · rename_i hlen
        rw [List.getElem?_eq_none (l := r.entries) (by omega)]
        exact List.getElem?_eq_none (by rw [List.length_singleton]; omega)
  unfold status
  rw [hentry]

theorem status_register_self (r : Registry) (type : TypeId) :
    (r.register type).2.status (r.register type).1 = .ok (.buffered r.nextTmp) := by
  obtain ⟨e, he, hs⟩ := wireTarget_pending.1 (wireTarget_register_self r type)
  refine status_eq_ok.2 ⟨e, he, ?_⟩
  rcases hs with ⟨tmp, hs, hw⟩ | ⟨_, -, hw⟩ | ⟨_, -, hw⟩
  · cases hw
    exact hs
  · cases hw
  · cases hw

theorem Sound.register (h : r.Sound bound due) (type : TypeId) : (r.register type).2.Sound bound due := by
  have hlater := (Sends.register r type).later
  refine ⟨?_, fun seq ps hps => ?_, fun p seq hp => ?_, h.sorted, fun o ho => ?_, fun o ho => ?_⟩
  · intro p hp
    rcases List.mem_append.1 hp with hp | hp
    · exact (h.buffered p hp).imp (fun ⟨tmp, ht⟩ => ⟨tmp, status_register ht⟩) (Failed.later hlater)
    · rw [List.mem_singleton.1 hp]
      exact .inl ⟨_, status_register_self r type⟩
  · obtain ⟨hbound, hsent⟩ := h.sent seq ps hps
    exact ⟨hbound, fun p hp => (hsent p hp).imp status_register (Failed.later hlater)⟩
  · have hne : p ≠ (r.register type).1 := by
      rintro rfl
      rw [status_register_self] at hp
      cases hp
    rw [status_register_of_ne hne] at hp
    obtain ⟨seq', ps, hs, hf, hmem⟩ := h.flight p seq hp
    exact ⟨seq', ps, status_register hs, hf, hmem⟩
  · exact (h.waits o ho).imp_left fun ⟨seq, hseq⟩ => ⟨seq, status_register hseq⟩
  · obtain ⟨w, hw⟩ := h.live o ho
    exact ⟨w, wireTarget_register hw⟩

/-! ### Closed buffers -/

theorem entry?_foldl_modifyEntry {f : PendingEntry → PendingEntry} (hf : ∀ e, f (f e) = f e) (ps : List PendingId)
    (r : Registry) :
    entry? (ps.foldl (fun r p => r.modifyEntry p f) r) q = if q ∈ ps then (r.entry? q).map f else r.entry? q := by
  induction ps generalizing r with
  | nil => rfl
  | cons p ps ih =>
    rw [List.foldl_cons, ih, entry?_modifyEntry]
    by_cases hp : q = p
    · subst hp
      by_cases hq : q ∈ ps
      · simp [hq, hf, Function.comp_def]
      · simp [hq]
    · by_cases hq : q ∈ ps
      · simp [hp, hq]
      · simp [hp, hq]

/-- The entry once the batch is sent. -/
def PendingEntry.sent (seq : Nat) (e : PendingEntry) : PendingEntry :=
  match e.state with
  | .buffered _ => { e with state := .inFlight seq }
  | _ => e

theorem entry?_close (r : Registry) (seq : Nat) (q : PendingId) :
    entry? (r.close seq).2 q = if q ∈ r.buffered then (r.entry? q).map (PendingEntry.sent seq) else r.entry? q := by
  refine entry?_foldl_modifyEntry (f := PendingEntry.sent seq) ?_ r.buffered r
  rintro ⟨type, state, queue⟩
  cases state <;> rfl

/-- A closed buffer sends its creates, as far as they have not failed, and changes no other node. -/
theorem status_close (r : Registry) (seq : Nat) (q : PendingId) :
    (q ∈ r.buffered ∧ (∃ tmp, r.status q = .ok (.buffered tmp)) ∧ (r.close seq).2.status q = .ok (.inFlight seq)) ∨
      (q ∉ r.buffered ∨ ∀ tmp, r.status q ≠ .ok (.buffered tmp)) ∧ (r.close seq).2.status q = r.status q := by
  unfold status
  rw [ entry?_close]
  by_cases hq : q ∈ r.buffered
  · rw [if_pos hq]
    cases he : r.entry? q with
    | none => exact .inr ⟨.inr (fun _ h => by cases h), rfl⟩
    | some e =>
      obtain ⟨type, state, queue⟩ := e
      cases state with
      | buffered tmp => exact .inl ⟨hq, ⟨tmp, rfl⟩, rfl⟩
      | inFlight _ | resolved _ | failed _ => exact .inr ⟨.inr (fun _ h => by cases h), rfl⟩
  · rw [if_neg hq]
    exact .inr ⟨.inl hq, rfl⟩

theorem Sound.close (h : r.Sound bound due) : (r.close bound).2.Sound (bound + 1) due := by
  have hlater := (Sends.close r bound).later
  have hfind : ∀ seq, Assoc.find? seq (r.close bound).2.inFlight =
      if seq = bound then some r.buffered else Assoc.find? seq r.inFlight := fun seq => Assoc.find?_insert ..
  refine ⟨nofun, fun seq ps hps => ?_, fun p seq hp => ?_, h.sorted.insert _ _, fun o ho => ?_, fun o ho => ?_⟩
  · rw [hfind] at hps
    split at hps
    · rename_i hseq
      cases hps
      refine ⟨by omega, fun p hp => ?_⟩
      rcases status_close r bound p with ⟨-, -, hs⟩ | ⟨hnot, -⟩
      · exact .inl (hseq ▸ hs)
      · have hnone := hnot.resolve_left fun hp' => hp' hp
        exact .inr (Failed.later hlater ((h.buffered p hp).resolve_left fun ⟨tmp, ht⟩ => hnone tmp ht))
    · obtain ⟨hbound, hsent⟩ := h.sent seq ps hps
      exact ⟨by omega, fun p hp => (hsent p hp).imp (Sends.close r bound).status_inFlight (Failed.later hlater)⟩
  · rcases status_close r bound p with ⟨hmem, -, hs⟩ | ⟨-, hs⟩
    · exact ⟨bound, r.buffered, hs, by rw [hfind, if_pos rfl], hmem⟩
    · obtain ⟨seq', ps, hs', hf, hmem⟩ := h.flight p seq (hs.symm.trans hp)
      have hne : seq' ≠ bound := Nat.ne_of_lt (h.sent seq' ps hf).1
      exact ⟨seq', ps, hs.trans hs', by rw [hfind, if_neg hne]; exact hf, hmem⟩
  · obtain ⟨o', ho', rfl⟩ := List.mem_map.1 ho
    exact (h.waits o' ho').imp_left fun ⟨seq, hseq⟩ => ⟨seq, (Sends.close r bound).status_inFlight hseq⟩
  · obtain ⟨o', ho', rfl⟩ := List.mem_map.1 ho
    obtain ⟨w, hw⟩ := h.live o' ho'
    exact (Sends.close r bound).wireTarget hw

/-! ### Acknowledged batches -/

theorem awaited_takeInFlight (h : r.Sound bound due) {seq : Nat} {ps : List PendingId}
    (hps : Assoc.find? seq r.inFlight = some ps) (hp : r.Awaited p) : p ∈ ps ∨ (r.takeInFlight seq).2.Awaited p := by
  obtain ⟨seq', ps', hs, hf, hmem⟩ := hp
  by_cases hseq : seq' = seq
  · subst hseq
    rw [hps] at hf
    cases hf
    exact .inl hmem
  · refine .inr ⟨seq', ps', hs, ?_, hmem⟩
    exact (Assoc.find?_erase h.sorted seq' seq).trans (by rw [if_neg hseq]; exact hf)

/-- A batch whose nodes are all settled leaves the registry. -/
theorem Sound.acknowledged (h : r.Sound bound due) {seq : Nat} {ps : List PendingId} {due' : List PendingId}
    (hps : Assoc.find? seq r.inFlight = some ps) (hlater : r.Later r') (hbuffered : r'.buffered = r.buffered)
    (hflight : r'.inFlight = Assoc.erase seq r.inFlight)
    (hstate : ∀ p, r'.status p = r.status p ∨ r'.Failed p ∨ p ∈ ps ∧ ∃ id, r'.status p = .ok (.resolved id))
    (hsettled : ∀ p ∈ ps, ∀ seq, r'.status p ≠ .ok (.inFlight seq))
    (hwaits : ∀ o ∈ r'.obligations, (∃ seq, r'.status o.target = .ok (.inFlight seq)) ∨ o.target ∈ due')
    (hlive : ∀ o ∈ r'.obligations, ∃ w, r'.wireTarget o.owner = .ok w) : r'.Sound bound due' := by
  have hfind : ∀ seq' ps', Assoc.find? seq' r'.inFlight = some ps' →
      seq' ≠ seq ∧ Assoc.find? seq' r.inFlight = some ps' := by
    intro seq' ps' hf
    rw [hflight, Assoc.find?_erase h.sorted] at hf
    split at hf
    · cases hf
    · exact ⟨‹_›, hf⟩
  -- a create of another batch cannot have been resolved with this one
  have hother : ∀ p, p ∈ ps → ∀ state, r.status p = .ok state → state = .inFlight seq ∨ r.Failed p := by
    intro p hp state hs
    rcases (h.sent seq ps hps).2 p hp with hs' | hf
    · rw [hs] at hs'
      cases hs'
      exact .inl rfl
    · exact .inr hf
  refine ⟨?_, fun seq' ps' hf => ?_, fun p seq' hp => ?_, ?_, hwaits, hlive⟩
  · rw [hbuffered]
    intro p hp
    rcases h.buffered p hp with ⟨tmp, ht⟩ | hf
    · rcases hstate p with hs | hf | ⟨hmem, -⟩
      · exact .inl ⟨tmp, hs.trans ht⟩
      · exact .inr hf
      · rcases hother p hmem _ ht with ht' | hf
        · cases ht'
        · exact .inr (hf.later hlater)
    · exact .inr (hf.later hlater)
  · obtain ⟨hne, hf⟩ := hfind seq' ps' hf
    obtain ⟨hbound, hsent⟩ := h.sent seq' ps' hf
    refine ⟨hbound, fun p hp => ?_⟩
    rcases hsent p hp with hs | hf
    · rcases hstate p with hs' | hf | ⟨hmem, -⟩
      · exact .inl (hs'.trans hs)
      · exact .inr hf
      · rcases hother p hmem _ hs with hs' | hf
        · cases hs'
          exact absurd rfl hne
        · exact .inr (hf.later hlater)
    · exact .inr (hf.later hlater)
  · have hs : r'.status p = r.status p := by
      rcases hstate p with hs | ⟨f, hf⟩ | ⟨-, id, hid⟩
      · exact hs
      · rw [hf] at hp
        cases hp
      · rw [hid] at hp
        cases hp
    have hnot : p ∉ ps := fun hmem => hsettled p hmem seq' hp
    obtain ⟨seq₁, ps₁, hs₁, hf₁, hmem₁⟩ :=
      (awaited_takeInFlight h hps (h.flight p seq' (hs.symm.trans hp))).resolve_left hnot
    exact ⟨seq₁, ps₁, hs.trans hs₁, by rw [hflight]; exact hf₁, hmem₁⟩
  · rw [hflight]
    exact h.sorted.erase seq

end Registry

end NodeStore.Write
