import NodeStore.Proofs.Write.Registries

/-!
# How far a failure reaches

A failed node takes down every node that waits on it, unless that one has its id already.

* `Registry.Doomed`: the least set of nodes that holds some roots and whoever refers to a member.
* `Registry.TracesTo`: a reason that leads from failed node to failed node back to a batch.
* `failAll_reaches`: a worklist fails exactly the nodes that it dooms; `failBatch_reaches` for the creates of a batch.
-/

namespace NodeStore.Write

namespace Registry

variable {r r' : Registry} {p q : PendingId} {e : PendingEntry} {roots : List PendingId}

/-! ### The nodes that a failure reaches -/

/-- The nodes that fail with some roots: the roots themselves and, step by step, the nodes with a reference that waits
on one of them. Nodes with a final state are out of reach. -/
inductive Doomed (r : Registry) (roots : List PendingId) : PendingId → Prop
  | root {p : PendingId} (hp : p ∈ roots) (hu : r.Unsettled p) : Doomed r roots p
  | owner {p : PendingId} {o : Obligation} (ho : o ∈ r.obligations) (howner : o.owner = .pending p)
      (hu : r.Unsettled p) (htarget : Doomed r roots o.target) : Doomed r roots p

theorem Doomed.unsettled (h : r.Doomed roots p) : r.Unsettled p := by cases h <;> assumption

/-- Only roots that can still fail count. -/
theorem Doomed.mono {roots' : List PendingId} (h : ∀ q ∈ roots, r.Unsettled q → q ∈ roots')
    (hp : r.Doomed roots p) : r.Doomed roots' p := by
  induction hp with
  | root hp hu => exact .root (h _ hp hu) hu
  | owner ho howner hu _ ih => exact .owner ho howner hu ih

theorem not_doomed_nil : ¬r.Doomed [] p := by
  intro h
  induction h with
  | root hp => cases hp
  | owner _ _ _ _ ih => exact ih

/-- A settled root changes nothing. -/
theorem doomed_cons_of_settled (hp : ¬r.Unsettled p) : r.Doomed (p :: roots) q ↔ r.Doomed roots q := by
  refine ⟨Doomed.mono fun q hq hu => ?_, Doomed.mono fun q hq _ => List.mem_cons_of_mem _ hq⟩
  rcases List.mem_cons.1 hq with rfl | hq
  · exact absurd hu hp
  · exact hq

/-- Which batches are in flight does not matter. -/
theorem doomed_takeInFlight {seq : Nat} : (r.takeInFlight seq).2.Doomed roots p ↔ r.Doomed roots p := by
  constructor
  · intro h
    induction h with
    | root hp hu => exact .root hp hu
    | owner ho howner hu _ ih => exact .owner ho howner hu ih
  · intro h
    induction h with
    | root hp hu => exact .root hp hu
    | owner ho howner hu _ ih => exact .owner ho howner hu ih

/-! ### One node fails -/

/-- The nodes that a failed one takes down next. -/
theorem mem_dependents {failure : PendingFailure} {taken : List Obligation} :
    q ∈ (dependents p failure taken).map (·.1) ↔ ∃ o ∈ taken, o.owner = .pending q := by
  simp only [dependents, List.mem_map, List.mem_filterMap]
  constructor
  · rintro ⟨⟨q', f⟩, ⟨o, ho, h⟩, rfl⟩
    split at h
    · rename_i owner howner
      cases h
      exact ⟨o, ho, howner⟩
    · cases h
  · rintro ⟨o, ho, howner⟩
    exact ⟨(q, .dependency p failure), ⟨o, ho, by rw [howner]⟩, rfl⟩

theorem mem_taken {failure : PendingFailure} {o : Obligation} :
    o ∈ ((r.markFailed p failure).takeObligations p).1 ↔ o ∈ r.obligations ∧ o.owner ≠ .pending p ∧ o.target = p := by
  simp only [takeObligations, markFailed, modifyEntry_obligations, List.mem_filter, Bool.not_eq_true',
    decide_eq_false_iff_not, decide_eq_true_eq]
  exact and_assoc

/-- A root that fails dooms itself, and then dooms what waited on it. -/
theorem doomed_cons_of_unsettled (hp : r.Unsettled p) (failure : PendingFailure) {next : List PendingId}
    (hnext : ∀ q, q ∈ next ↔ (∃ o ∈ ((r.markFailed p failure).takeObligations p).1, o.owner = .pending q) ∨ q ∈ roots) :
    r.Doomed (p :: roots) q ↔ q = p ∨ (r.dropNode p failure).Doomed next q := by
  constructor
  · intro h
    induction h with
    | @root q hq hu =>
      by_cases hqp : q = p
      · exact .inl hqp
      · have hq : q ∈ roots := (List.mem_cons.1 hq).resolve_left hqp
        exact .inr (.root ((hnext q).2 (.inr hq)) (unsettled_dropNode.2 ⟨hqp, hu⟩))
    | @owner q o ho howner hu htarget ih =>
      by_cases hqp : q = p
      · exact .inl hqp
      · have hu' : (r.dropNode p failure).Unsettled q := unsettled_dropNode.2 ⟨hqp, hu⟩
        have hne : o.owner ≠ .pending p := fun h => hqp (by rw [howner] at h; cases h; rfl)
        refine .inr ?_
        by_cases htp : o.target = p
        · exact .root ((hnext q).2 (.inl ⟨o, mem_taken.2 ⟨ho, hne, htp⟩, howner⟩)) hu'
        · exact .owner (mem_dropNode.2 ⟨ho, hne, htp⟩) howner hu' (ih.resolve_left htp)
  · rintro (rfl | h)
    · exact .root List.mem_cons_self hp
    · induction h with
      | @root q hq hu =>
        obtain ⟨-, hu⟩ := unsettled_dropNode.1 hu
        rcases (hnext q).1 hq with ⟨o, ho, howner⟩ | hq
        · obtain ⟨ho, -, htarget⟩ := mem_taken.1 ho
          refine .owner ho howner hu ?_
          rw [htarget]
          exact .root List.mem_cons_self hp
        · exact .root (List.mem_cons_of_mem _ hq) hu
      | owner ho howner hu _ ih =>
        exact .owner (mem_dropNode.1 ho).1 howner (unsettled_dropNode.1 hu).2 ih

/-! ### The reasons of failures -/

/-- A reason that names a failed node for each step on the way back to a batch that failed. -/
inductive TracesTo (r : Registry) (seq : Nat) (error : Engine.Error) : PendingFailure → Prop
  | batch : TracesTo r seq error (.batch seq error)
  | dependency {q : PendingId} {cause : PendingFailure} (hq : r.status q = .ok (.failed cause))
      (hcause : TracesTo r seq error cause) : TracesTo r seq error (.dependency q cause)

variable {seq : Nat} {error : Engine.Error}

theorem TracesTo.later (h : r.Later r') {f : PendingFailure} (hf : r.TracesTo seq error f) :
    r'.TracesTo seq error f := by
  induction hf with
  | batch => exact .batch
  | dependency hq _ ih => exact .dependency (h.status_failed hq) ih

/-! ### The worklist -/

/-- A worklist fails exactly the nodes that it dooms, each for a reason that leads back to the batch. -/
theorem failAll_reaches (r : Registry) (work : List (PendingId × PendingFailure))
    (hwork : ∀ w ∈ work, r.TracesTo seq error w.2) (q : PendingId) :
    (r.Doomed (work.map (·.1)) q →
      ∃ f, (r.failAll work).status q = .ok (.failed f) ∧ (r.failAll work).TracesTo seq error f) ∧
    (¬r.Doomed (work.map (·.1)) q → (r.failAll work).status q = r.status q) := by
  induction r, work using failAll.induct with
  | case1 r =>
    rw [failAll]
    exact ⟨fun h => absurd h not_doomed_nil, fun _ => rfl⟩
  | case2 r p failure work hsettled ih =>
    have hp : ¬r.Unsettled p := fun hp => unsettled_iff.1 hp hsettled
    rw [failAll, if_pos hsettled, List.map_cons, doomed_cons_of_settled hp]
    exact ih fun w hw => hwork w (List.mem_cons_of_mem _ hw)
  | case3 r p failure work hsettled marked taken ih =>
    have hp : r.Unsettled p := unsettled_iff.2 hsettled
    have hlater := later_dropNode hp failure
    have hself := status_dropNode_self hp failure
    have hdoomed : r.Doomed (p :: work.map (·.1)) q ↔ q = p ∨ (r.dropNode p failure).Doomed
        (((dependents p failure taken.1).reverse ++ work).map (·.1)) q := by
      refine doomed_cons_of_unsettled hp failure fun q => ?_
      rw [List.map_append, List.mem_append, List.map_reverse, List.mem_reverse, mem_dependents]
    have htraced : ∀ w ∈ (dependents p failure taken.1).reverse ++ work, (r.dropNode p failure).TracesTo seq error w.2 := by
      intro w hw
      rcases List.mem_append.1 hw with hw | hw
      · obtain ⟨o, -, ho⟩ := List.mem_filterMap.1 (List.mem_reverse.1 hw)
        split at ho
        · cases ho
          exact .dependency hself ((hwork _ List.mem_cons_self).later hlater)
        · cases ho
      · exact (hwork w (List.mem_cons_of_mem _ hw)).later hlater
    obtain ⟨hreached, hkept⟩ := ih htraced
    have hrest := (failAll_spec (r.dropNode p failure) ((dependents p failure taken.1).reverse ++ work)).later
    rw [failAll, if_neg hsettled, List.map_cons, hdoomed]
    refine ⟨?_, fun h => ?_⟩
    · rintro (rfl | h)
      · exact ⟨failure, hrest.status_failed hself, ((hwork _ List.mem_cons_self).later hlater).later hrest⟩
      · exact hreached h
    · rw [not_or] at h
      exact (hkept h.2).trans (status_dropNode_of_ne h.1 failure)

theorem failAll_append (r : Registry) (work rest : List (PendingId × PendingFailure)) :
    r.failAll (work ++ rest) = (r.failAll work).failAll rest := by
  induction r, work using failAll.induct with
  | case1 r => rw [failAll, List.nil_append]
  | case2 r p failure work hsettled ih =>
    rw [List.cons_append, failAll, if_pos hsettled, ih, failAll, if_pos hsettled]
  | case3 r p failure work hsettled marked taken ih =>
    rw [List.cons_append, failAll, if_neg hsettled, failAll, if_neg hsettled, ← ih, List.append_assoc]

/-- To fail the creates of a batch one by one is to fail them as one worklist. -/
theorem foldl_fail (r : Registry) (ps : List PendingId) (failure : PendingFailure) :
    ps.foldl (fun r p => r.fail p failure) r = r.failAll (ps.map fun p => (p, failure)) := by
  induction ps generalizing r with
  | nil => rw [List.map_nil, failAll, List.foldl_nil]
  | cons p ps ih =>
    rw [List.foldl_cons, ih, fail, ← failAll_append]
    rfl

/-- The creates of a failed batch take down exactly the nodes that they doom. -/
theorem foldl_fail_reaches (seq : Nat) (error : Engine.Error) (r : Registry) (ps : List PendingId) (q : PendingId) :
    let r' := ps.foldl (fun r p => r.fail p (.batch seq error)) r
    (r.Doomed ps q → ∃ f, r'.status q = .ok (.failed f) ∧ r'.TracesTo seq error f) ∧
      (¬r.Doomed ps q → r'.status q = r.status q) := by
  dsimp only
  have hroots : (ps.map fun p => (p, PendingFailure.batch seq error)).map (·.1) = ps := by
    rw [List.map_map]
    exact List.map_id' ps
  have hwork : ∀ w ∈ ps.map fun p => (p, PendingFailure.batch seq error), r.TracesTo seq error w.2 := by
    intro w hw
    obtain ⟨p, -, rfl⟩ := List.mem_map.1 hw
    exact .batch
  have hreaches := failAll_reaches r _ hwork q
  rwa [hroots, ← foldl_fail] at hreaches

end Registry

end NodeStore.Write
