import NodeStore.Proofs.Write.Ledger

/-!
# Flushes end

A flush hands all batches to an engine and acknowledges them, and does so again as long as acknowledgments write more. They
do so only for nodes that get their ids, so there are at most as many such rounds as there are nodes without an id.

* `Loops`: the loop of a flush, with no bound on its rounds.
* `Rests`: a call that writes nothing unless a node is settled; `acknowledge_rests`.
* `exists_loops`: the loop ends within the rounds of `flush`; `flush_ends`: what it leaves.
-/

namespace NodeStore.Write

namespace Session

variable {s s' s'' : Session} {σ : Type}

/-! ### The loop -/

/-- What a loop has done once it ends: its calls, the batches that it handed to the engine, the first error, the engine,
and the session. -/
structure Flushed (σ : Type) where
  calls : List Call
  batches : List Batch
  error : Option Error
  engine : σ
  session : Session

/-- All batches are handed out and acknowledged, round by round, until there are none. -/
inductive Loops (apply : EngineStep σ) : σ → Session → Flushed σ → Prop
  | done {engine : σ} {s : Session} (h : s.drain.1 = []) : Loops apply engine s ⟨[.drain], [], none, engine, s.drain.2⟩
  | round {engine : σ} {s : Session} {out : Flushed σ} (h : s.drain.1 ≠ [])
      (hrest : Loops apply (applyBatches apply s.drain.1 engine s.drain.2).2.1
        (applyBatches apply s.drain.1 engine s.drain.2).2.2 out) :
      Loops apply engine s { out with
        calls := .drain :: answers apply s.drain.1 engine ++ out.calls
        batches := s.drain.1 ++ out.batches
        error := (applyBatches apply s.drain.1 engine s.drain.2).1 <|> out.error }

/-- The batches that some calls acknowledge. -/
def acknowledged (calls : List Call) : List Nat :=
  calls.filterMap fun
    | .acknowledge seq _ => some seq
    | _ => none

theorem acknowledged_answers (apply : EngineStep σ) (bs : List Batch) (engine : σ) :
    acknowledged (answers apply bs engine) = bs.map (·.seq) := by
  induction bs generalizing engine with
  | nil => rfl
  | cons b bs ih => exact congrArg (b.seq :: ·) (ih _)

variable {apply : EngineStep σ} {engine : σ} {out : Flushed σ}

theorem Loops.session_eq (h : Loops apply engine s out) : out.session = out.calls.foldl Call.run s := by
  induction h with
  | done => rfl
  | @round engine s out h hrest ih =>
    rw [applyBatches_eq] at ih
    simp only [List.cons_append, List.foldl_cons, List.foldl_append]
    exact ih

theorem Loops.acknowledged_eq (h : Loops apply engine s out) : acknowledged out.calls = out.batches.map (·.seq) := by
  induction h with
  | done => rfl
  | @round engine s out h hrest ih =>
    have happend : ∀ cs cs' : List Call, acknowledged (.drain :: cs ++ cs') = acknowledged cs ++ acknowledged cs' :=
      fun cs cs' => List.filterMap_append
    rw [List.map_append, happend, acknowledged_answers, ih]

/-- Nothing is left to be handed out. -/
theorem Loops.empty (h : Loops apply engine s out) :
    out.session.encoder.buffer.isEmpty = true ∧ out.session.outbox = [] := by
  induction h with
  | @done engine s h => exact ⟨isEmpty_close s, rfl⟩
  | round h hrest ih => exact ih

/-! ### What acknowledgments write -/

section

variable {α : Type} {p : α → Bool} {xs ys : List α}

theorem countP_le_of_forall₂ (h : List.Forall₂ (fun x y => p y = true → p x = true) xs ys) : ys.countP p ≤ xs.countP p := by
  induction h with
  | nil => exact Nat.le_refl _
  | @cons x y xs ys hxy _ ih =>
    rw [List.countP_cons, List.countP_cons]
    split
    · rename_i hy
      rw [if_pos (hxy hy)]
      omega
    · omega

theorem countP_lt_of_forall₂ (h : List.Forall₂ (fun x y => p y = true → p x = true) xs ys) {i : Nat} {x y : α}
    (hx : xs[i]? = some x) (hy : ys[i]? = some y) (hpx : p x = true) (hpy : p y = false) : ys.countP p < xs.countP p := by
  induction h generalizing i with
  | nil => cases hx
  | @cons x' y' xs ys hxy hrest ih =>
    rw [List.countP_cons, List.countP_cons]
    cases i with
    | zero =>
      cases hx
      cases hy
      have hle := countP_le_of_forall₂ hrest
      rw [if_pos hpx, hpy]
      exact Nat.lt_succ_of_le hle
    | succ i =>
      have hlt := ih hx hy
      split
      · rename_i hy'
        rw [if_pos (hxy hy')]
        omega
      · omega

end

theorem Registry.forall₂_of_later {r r' : Registry} (hlater : r.Later r') (hlength : r'.entries.length = r.entries.length) :
    List.Forall₂ (fun e e' : PendingEntry => (!e'.state.settled) = true → (!e.state.settled) = true) r.entries r'.entries := by
  refine List.forall₂_iff_get.2 ⟨hlength.symm, fun i hi hi' => ?_⟩
  obtain ⟨e', he', -, hsettled⟩ := hlater ⟨i + 1⟩ r.entries[i] (List.getElem?_eq_getElem hi)
  have heq : r'.entries[i] = e' := Option.some.inj ((List.getElem?_eq_getElem hi').symm.trans he')
  simp only [List.get_eq_getElem, heq, Bool.not_eq_true']
  intro h
  by_contra hs
  rw [hsettled (by simpa using hs)] at h
  exact hs h

theorem unsettled_le (hlater : s.registry.Later s'.registry)
    (hlength : s'.registry.entries.length = s.registry.entries.length) : s'.unsettled ≤ s.unsettled :=
  countP_le_of_forall₂ (Registry.forall₂_of_later hlater hlength)

theorem unsettled_lt (hlater : s.registry.Later s'.registry)
    (hlength : s'.registry.entries.length = s.registry.entries.length) {q : PendingId} {x x' : PendingState}
    (hx : s.registry.status q = .ok x) (hx' : s'.registry.status q = .ok x') (hs : x.settled = false)
    (hs' : x'.settled = true) : s'.unsettled < s.unsettled := by
  obtain ⟨e, he, rfl⟩ := Registry.status_eq_ok.1 hx
  obtain ⟨e', he', rfl⟩ := Registry.status_eq_ok.1 hx'
  unfold Registry.entry? at he he'
  split at he
  · cases he
  · rename_i hq
    rw [if_neg hq] at he'
    exact countP_lt_of_forall₂ (Registry.forall₂_of_later hlater hlength) he he' (by rw [hs]; rfl) (by rw [hs']; rfl)

/-- No node is new, and nothing was written unless a node got its id or failed. -/
structure Rests (s s' : Session) : Prop where
  le : s'.unsettled ≤ s.unsettled
  same : s'.unsettled = s.unsettled → s'.encoder = s.encoder ∧ s'.outbox = s.outbox

theorem Rests.refl (s : Session) : s.Rests s := ⟨Nat.le_refl _, fun _ => ⟨rfl, rfl⟩⟩

theorem Rests.trans (h : s.Rests s') (h' : s'.Rests s'') : s.Rests s'' where
  le := Nat.le_trans h'.le h.le
  same heq := by
    have hle := h.le
    have hle' := h'.le
    obtain ⟨hencoder, houtbox⟩ := h.same (by omega)
    obtain ⟨hencoder', houtbox'⟩ := h'.same (by omega)
    exact ⟨hencoder'.trans hencoder, houtbox'.trans houtbox⟩

theorem Rests.of_lt (h : s'.unsettled < s.unsettled) : s.Rests s' := ⟨by omega, fun heq => by omega⟩

theorem Rests.of_registry {r : Registry} (hlater : s.registry.Later r) (hlength : r.entries.length = s.registry.entries.length) :
    s.Rests { s with registry := r } := ⟨unsettled_le hlater hlength, fun _ => ⟨rfl, rfl⟩⟩

/-- An acknowledgment writes only for nodes to which it gives their ids. -/
theorem acknowledge_rests (hc : s.Compiled) (hs : s.registry.Sound s.nextSeq []) (seq : Nat)
    (result : Except Engine.Error (List NodeId)) : s.Rests (after (acknowledge seq result) s) := by
  cases hfind : Assoc.find? seq s.registry.inFlight with
  | none =>
    rw [after_acknowledge_unknown hfind]
    exact .refl s
  | some creates =>
    have htaken := (Registry.keeps_takeInFlight hs.sorted seq)
    cases hresult : refusal seq creates.length result with
    | some error =>
      rw [after_acknowledge_refused hfind hresult]
      have hfails := Registry.foldl_fail_spec (.batch seq error) creates (s.registry.takeInFlight seq).2
      exact .of_registry (htaken.later.trans hfails.later) (hfails.length.trans htaken.length)
    | none =>
      obtain ⟨ids, pairs, r, -, -, -, hresolves, hafter, hsettling⟩ := accepted_settling hc hs hfind hresult
      have hlater := htaken.later.trans hresolves.later
      have hlength := hresolves.length.trans htaken.length
      cases pairs with
      | nil =>
        rw [hafter]
        exact .of_registry hlater hlength
      | cons x pairs =>
        -- the node of the first pair was in flight, and has its id
        obtain ⟨⟨seq', hflight⟩, hid⟩ := hresolves.resolved x.1 x.2 List.mem_cons_self
        refine .of_lt (unsettled_lt (hlater.trans hsettling.continues.sends.later) (hsettling.length.trans hlength) hflight
          (hsettling.continues.sends.later.status_resolved hid) rfl rfl)

theorem unsettled_close (s : Session) : s.close.unsettled ≤ s.unsettled :=
  unsettled_le (continues_close s).sends.later (length_entries_close s)

variable {decl : SchemaDecl} {priority : Priority} {schema : SchemaLayout} {options : Options}

theorem answers_rests (hschema : decl.compile priority = .ok schema) (h : Reached schema options s) (apply : EngineStep σ)
    (bs : List Batch) (engine : σ) : s.Rests ((answers apply bs engine).foldl Call.run s) := by
  induction bs generalizing engine s with
  | nil => exact .refl s
  | cons b bs ih =>
    obtain ⟨hc, hs⟩ := reached_sound hschema h
    exact (acknowledge_rests hc hs b.seq _).trans (ih (h.call (.acknowledge b.seq (apply b.bytes engine).1)) _)

/-! ### The end of the loop -/

theorem flushRounds_of_empty (apply : EngineStep σ) (n : Nat) (engine : σ) (h : s.drain.1 = []) :
    flushRounds apply (n + 1) engine s = (none, engine, s.drain.2) := by
  unfold flushRounds
  generalize s.drain = drained at h ⊢
  obtain ⟨bs, s'⟩ := drained
  cases h
  rfl

theorem flushRounds_of_nonempty (apply : EngineStep σ) (n : Nat) (engine : σ) (h : s.drain.1 ≠ []) :
    flushRounds apply (n + 1) engine s =
      let first := applyBatches apply s.drain.1 engine s.drain.2
      let rest := flushRounds apply n first.2.1 first.2.2
      (first.1 <|> rest.1, rest.2.1, rest.2.2) := by
  conv_lhs => unfold flushRounds
  generalize s.drain = drained at h ⊢
  obtain ⟨bs, s'⟩ := drained
  cases bs with
  | nil => exact absurd rfl h
  | cons b bs => rfl

/-- A session in which nothing has been written since a drain has nothing to hand out. -/
theorem drain_of_drained (hencoder : s'.encoder = s.drain.2.encoder) (houtbox : s'.outbox = s.drain.2.outbox) :
    s'.drain.1 = [] := by
  have hempty : s'.encoder.buffer.isEmpty = true := by
    rw [hencoder]
    exact isEmpty_close s
  change s'.close.outbox = []
  rw [close_of_empty hempty, houtbox]
  rfl

/-- The loop ends, and takes at most two rounds more than there are nodes without an id. -/
theorem exists_loops (hschema : decl.compile priority = .ok schema) (apply : EngineStep σ) (n : Nat) (engine : σ)
    (h : Reached schema options s) (hn : s.unsettled + 2 ≤ n) :
    ∃ out, Loops apply engine s out ∧ flushRounds apply n engine s = (out.error, out.engine, out.session) := by
  induction n generalizing engine s with
  | zero => omega
  | succ n ih =>
    by_cases hempty : s.drain.1 = []
    · exact ⟨_, .done hempty, flushRounds_of_empty apply n engine hempty⟩
    · have hreached : Reached schema options s.drain.2 := h.call .drain
      have hrests := answers_rests hschema hreached apply s.drain.1 engine
      rw [← applyBatches_eq] at hrests
      have hle : s.drain.2.unsettled ≤ s.unsettled := unsettled_close s
      suffices hrest : ∃ out, Loops apply (applyBatches apply s.drain.1 engine s.drain.2).2.1
          (applyBatches apply s.drain.1 engine s.drain.2).2.2 out ∧
            flushRounds apply n (applyBatches apply s.drain.1 engine s.drain.2).2.1
              (applyBatches apply s.drain.1 engine s.drain.2).2.2 = (out.error, out.engine, out.session) by
        obtain ⟨out, hloops, hflush⟩ := hrest
        refine ⟨_, .round hempty hloops, ?_⟩
        rw [flushRounds_of_nonempty apply n engine hempty]
        dsimp only
        rw [hflush]
      have hreached' := hreached.applyBatches apply s.drain.1 engine
      generalize applyBatches apply s.drain.1 engine s.drain.2 = first at hrests hreached' ⊢
      rcases Nat.lt_or_eq_of_le hrests.le with hlt | heq
      · exact ih _ hreached' (by omega)
      · -- a round in which no node is settled has written nothing
        obtain ⟨hencoder, houtbox⟩ := hrests.same heq
        have hdone := drain_of_drained hencoder houtbox
        obtain ⟨m, rfl⟩ : ∃ m, n = m + 1 := ⟨n - 1, by omega⟩
        exact ⟨_, .done hdone, flushRounds_of_empty apply m _ hdone⟩

/-! ### The batches of the loop -/

variable {l : Ledger}

/-- Acknowledgments hand out nothing. -/
theorem handedOut_answers (apply : EngineStep σ) (bs : List Batch) (engine : σ) (s : Session) :
    handedOut s (answers apply bs engine) = [] := by
  induction bs generalizing engine s with
  | nil => rfl
  | cons b bs ih => exact ih ..

theorem Loops.handedOut_eq (h : Loops apply engine s out) : handedOut s out.calls = out.batches := by
  induction h with
  | @done engine s h => exact (List.append_nil _).trans h
  | @round engine s out h hrest ih =>
    rw [applyBatches_eq] at ih
    have hanswers : handedOut s.drain.2 (answers apply s.drain.1 engine ++ out.calls) = out.batches := by
      rw [handedOut_append, handedOut_answers, ih]
      rfl
    exact congrArg (s.drain.1 ++ ·) hanswers

/-- The batches that have been handed out have growing numbers, all of them in use. -/
theorem Logged.handed_seqs (hschema : decl.compile priority = .ok schema) (hl : Logged schema options s l) :
    ((l.handed.map (·.1)).map (·.seq)).Pairwise (· < ·) ∧ ∀ b ∈ l.handed.map (·.1), b.seq < s.nextSeq := by
  have hcounted := hl.counted hschema
  have hnumbers : ((l.handed.map (·.1)).map (·.seq)).Sublist (List.range' 1 l.closed.length) := by
    rw [← hcounted.seqs, Ledger.closed, List.map_append, List.map_map]
    exact List.sublist_append_left ..
  refine ⟨List.Pairwise.sublist hnumbers (List.pairwise_lt_range' ..), fun b hb => ?_⟩
  have hmem := List.mem_range'_1.1 (hnumbers.subset (List.mem_map_of_mem hb))
  rw [hcounted.next]
  omega

/-- A number that is in use and not awaited is never awaited again. -/
theorem Reached.not_awaits (hschema : decl.compile priority = .ok schema) (h : Reached schema options s) {seq : Nat}
    (hseq : seq < s.nextSeq) (hnot : ¬s.registry.Awaits seq) (cs : List Call) :
    ¬(cs.foldl Call.run s).registry.Awaits seq := by
  induction cs generalizing s with
  | nil => exact hnot
  | cons c cs ih =>
    obtain ⟨hc, hs⟩ := reached_sound hschema h
    have hsteps := Call.steps hc hs c
    refine ih (h.call c) (Nat.lt_of_lt_of_le hseq hsteps.seq) fun hawaits => ?_
    rcases (hsteps.awaits seq).1 hawaits with ⟨hbefore, -⟩ | ⟨hle, -⟩
    · exact hnot hbefore
    · omega

/-- No batch is awaited once it is acknowledged. -/
theorem answers_answered (hschema : decl.compile priority = .ok schema) (h : Reached schema options s)
    (apply : EngineStep σ) (bs : List Batch) (engine : σ) (hbs : ∀ b ∈ bs, b.seq < s.nextSeq) :
    ∀ b ∈ bs, ¬((answers apply bs engine).foldl Call.run s).registry.Awaits b.seq := by
  induction bs generalizing engine s with
  | nil => exact nofun
  | cons b bs ih =>
    obtain ⟨hc, hs⟩ := reached_sound hschema h
    have hsteps := Call.steps hc hs (.acknowledge b.seq (apply b.bytes engine).1)
    have hreached := h.call (.acknowledge b.seq (apply b.bytes engine).1)
    have hseq := hbs b List.mem_cons_self
    refine List.forall_mem_cons.2 ⟨?_, ih hreached _ fun b' hb' =>
      Nat.lt_of_lt_of_le (hbs b' (List.mem_cons_of_mem _ hb')) hsteps.seq⟩
    refine hreached.not_awaits hschema (Nat.lt_of_lt_of_le hseq hsteps.seq) (fun hawaits => ?_) _
    rcases (hsteps.awaits b.seq).1 hawaits with ⟨-, hnot⟩ | ⟨hle, -⟩
    · exact hnot ⟨_, rfl⟩
    · omega

theorem Loops.answered (hschema : decl.compile priority = .ok schema) (hloops : Loops apply engine s out)
    (h : Reached schema options s) (hl : Logged schema options s l) :
    ∀ b ∈ out.batches, ¬out.session.registry.Awaits b.seq := by
  induction hloops generalizing l with
  | done => exact nofun
  | @round engine s out hne hrest ih =>
    obtain ⟨l₁, hl₁, hhanded₁⟩ := hl.drain hschema
    have hreached : Reached schema options s.drain.2 := h.call .drain
    obtain ⟨l₂, hl₂, hhanded₂⟩ := hl₁.calls hschema hreached (answers apply s.drain.1 engine)
    rw [handedOut_answers, List.append_nil] at hhanded₂
    have hused : ∀ b ∈ s.drain.1, b ∈ l₁.handed.map (·.1) := fun b hb => by
      rw [hhanded₁]
      exact List.mem_append_right _ hb
    have hanswered := answers_answered hschema hreached apply s.drain.1 engine fun b hb =>
      (hl₁.handed_seqs hschema).2 b (hused b hb)
    have hseqs := (hl₂.handed_seqs hschema).2
    rw [← applyBatches_eq] at hl₂ hanswered hseqs
    have hreached₂ := hreached.applyBatches apply s.drain.1 engine
    intro b hb
    rcases List.mem_append.1 hb with hb | hb
    · change ¬out.session.registry.Awaits b.seq
      rw [hrest.session_eq]
      exact hreached₂.not_awaits hschema (hseqs b (hhanded₂ ▸ hused b hb)) (hanswered b hb) out.calls
    · exact ih hreached₂ hl₂ b hb

end Session

end NodeStore.Write
