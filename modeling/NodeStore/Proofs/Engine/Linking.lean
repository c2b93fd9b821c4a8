import NodeStore.Proofs.Engine.Collections
import NodeStore.Proofs.Engine.Selectors

/-!
# Linking stored nodes

The instructions that change a collection, executed on references to stored nodes. What such a reference makes depends on
the store only through the nodes that exist, so it stays the same while collections change.

* `Known.Alike`: the same nodes may be named; `edgeNode_congr`.
* `Refers`: a written reference to a stored node, and the link that it makes; `Refers.reads`.
* `executes_setRefs`, `executes_addRefs`, `executes_removeRefs`; `Unlinked`, `rejects_setRefs`, `rejects_addRefs`.
* `Changes`: what an instruction does to a collection; `setRefs_changes`, `addRefs_changes`, `removeRefs_changes`.
-/

namespace NodeStore.Engine

open Wire (Reads)
open Write (Instr RefEntry)

/-! ### What may be named -/

/-- The same nodes may be named. -/
structure Known.Alike (k k' : Known) : Prop where
  nodes : SameNodes k.store k'.store
  created : k'.created = k.created

section

variable {L E : Type} {k k' : Known}

theorem targetOf_congr (h : k.Alike k') (p : PropDef L) (flags : UInt8) (raw : UInt32) :
    targetOf k' p flags raw = targetOf k p flags raw := by
  have hnone : ∀ type id, (k'.store.node? type id).isNone = (k.store.node? type id).isNone := fun type id => by
    rw [← Option.not_isSome, ← Option.not_isSome, h.nodes type id]
  unfold targetOf
  simp only [hnone, h.created]

theorem readEntry_congr (h : k.Alike k') (edgesOf : L → Bytes → Except Fault E) (p : PropDef L) :
    readEntry k' edgesOf p = readEntry k edgesOf p := by
  unfold readEntry
  simp only [targetOf_congr h]

theorem readEntries_congr (h : k.Alike k') (edgesOf : L → Bytes → Except Fault E) (p : PropDef L) (n : Nat) :
    readEntries k' edgesOf p n = readEntries k edgesOf p n := by
  induction n with
  | zero => rfl
  | succ n ih => rw [readEntries, readEntries, ih, readEntry_congr h]

theorem edgeInstrs_congr (h : k.Alike k') (t : EdgeLayout) (n : Nat) : edgeInstrs k' t n = edgeInstrs k t n := by
  have hstep : edgeInstr k' t = edgeInstr k t := by
    funext e
    unfold edgeInstr
    simp only [readEntry_congr h, readEntries_congr h]
  induction n with
  | zero => rfl
  | succ n ih =>
    funext e
    rw [edgeInstrs, edgeInstrs, ih, hstep]

/-- What a link stores depends on the store only through the nodes that exist. -/
theorem edgeNode_congr (h : k.Alike k') : edgeNode k' = edgeNode k := by
  funext t block
  rw [edgeNode, edgeNode, edgeInstrs_congr h]

end

/-! ### References to stored nodes -/

/-- A written reference to a stored node, and the link that it makes. -/
structure Refers (k : Known) (p : PropDef EdgeLayout) (e : RefEntry) (l : Link EdgeNode) : Prop where
  target : e.target = .node l.id
  readable : RefEntry.Readable e
  stored : ∃ r, p.target = some r ∧ (k.store.node? r.id l.id).isSome = true
  link : linkTo (edgeNode k) p l.id e.edges = .ok l

variable {schema : SchemaLayout} {t u : TypeLayout} {p q : PropDef EdgeLayout} {k k' : Known} {e : RefEntry}
  {l : Link EdgeNode} {es : List RefEntry} {ls : List (Link EdgeNode)}

theorem Refers.congr (h : Refers k p e l) (hk : k.Alike k') : Refers k' p e l where
  target := h.target
  readable := h.readable
  stored := by
    obtain ⟨r, hr, hstored⟩ := h.stored
    exact ⟨r, hr, (hk.nodes _ _).trans hstored⟩
  link := by
    rw [edgeNode_congr hk]
    exact h.link

theorem Scan.reads_ofExcept {α : Type} {x : Except Fault α} {a : α} (h : x = .ok a) : Reads (liftM x : Scan α) [] a := by
  subst h
  exact fun _ _ => rfl

/-- The target of a reference to a stored node is neither a new node nor one that is not known yet. -/
theorem flags_of_node {id : NodeId} (h : e.target = .node id) :
    e.flags &&& RefEntry.tmpFlag = 0 ∧ e.flags &&& RefEntry.deferredFlag = 0 ∧ e.word = id := by
  have hflags : ∀ more ∈ [0, RefEntry.edgesFlag], (0 ||| more) &&& RefEntry.tmpFlag = 0 ∧
      (0 ||| more) &&& RefEntry.deferredFlag = 0 := by decide +kernel
  obtain ⟨target, edges⟩ := e
  cases h
  cases edges with
  | none => exact ⟨(hflags 0 (by simp)).1, (hflags 0 (by simp)).2, rfl⟩
  | some block => exact ⟨(hflags _ (by simp)).1, (hflags _ (by simp)).2, rfl⟩

/-- A stored node is found. -/
theorem targetOf_of_stored {id : NodeId} (h : e.target = .node id)
    (hstored : ∃ r, p.target = some r ∧ (k.store.node? r.id id).isSome = true) : targetOf k p e.flags e.word = .ok id := by
  obtain ⟨htmp, -, hword⟩ := flags_of_node h
  obtain ⟨r, hr, hsome⟩ := hstored
  have hnone : (k.store.node? r.id id).isNone = false := by
    rw [← Option.not_isSome, hsome]
    rfl
  unfold targetOf
  rw [hr, hword, htmp]
  refine Except.bind_eq_ok.2 ⟨r, rfl, Except.bind_eq_ok.2 ⟨id, rfl, ?_⟩⟩
  simp only [hnone]
  rfl

theorem Refers.reads (h : Refers k p e l) : Reads (readEntry k (edgeNode k) p) e.encode (some l) := by
  obtain ⟨-, hknown, -⟩ := flags_of_node h.target
  rw [RefEntry.encode_eq]
  unfold readEntry
  refine .bind (Scan.reads (.byte _ _)) (.bind (Scan.reads (.u32 _ _)) ?_)
  rw [← List.append_nil e.block]
  refine .bind (reads_readBlock h.readable) ?_
  rw [if_neg (not_not.2 hknown)]
  refine .bind_pure (Scan.reads_ofExcept (targetOf_of_stored h.target h.stored)) ?_
  exact .bind_pure (Scan.reads_ofExcept h.link) (.pure _)

theorem refers_reads (h : List.Forall₂ (Refers k p) es ls) :
    Reads (readEntries k (edgeNode k) p es.length) (es.flatMap RefEntry.encode) ls := by
  induction h with
  | nil => exact .pure _
  | @cons e l es ls hfirst _ ih =>
    rw [List.length_cons, readEntries, List.flatMap_cons]
    refine .bind hfirst.reads ?_
    rw [← List.append_nil (es.flatMap _)]
    exact .bind ih (.pure _)

/-! ### References that make no link -/

/-- A written reference to a node that makes no link. -/
def Unlinked (k : Known) (p : PropDef EdgeLayout) (e : RefEntry) : Prop :=
  ∃ id, e.target = .node id ∧ ∀ l, linkTo (edgeNode k) p id e.edges ≠ .ok l

section

variable {L E : Type} {edgesOf : L → Bytes → Except Fault E} {p : PropDef L} {r' : Wire.Reader}

theorem targetOf_of_node {id id' : NodeId} (h : e.target = .node id) (hok : targetOf k p e.flags e.word = .ok id') :
    id' = id := by
  obtain ⟨htmp, -, hword⟩ := flags_of_node h
  unfold targetOf at hok
  obtain ⟨r, -, hok⟩ := Except.bind_eq_ok.1 hok
  rw [if_neg (not_not.2 htmp), hword] at hok
  obtain ⟨_, hid, hok⟩ := Except.bind_eq_ok.1 hok
  cases hid
  dsimp only at hok
  split at hok
  · cases hok
  · exact (Except.ok.inj hok).symm

/-- A written reference to a node is read only if it makes a link. -/
theorem linkTo_of_readEntry (he : RefEntry.Readable e) {id : NodeId} (ht : e.target = .node id) {pos : Nat} {rest : Bytes}
    {l : Option (Link E)} (h : readEntry k edgesOf p ⟨pos, e.encode ++ rest⟩ = .ok l r') :
    ∃ l, linkTo edgesOf p id e.edges = .ok l := by
  obtain ⟨-, hknown, -⟩ := flags_of_node ht
  rw [RefEntry.encode_eq, List.append_assoc, List.append_assoc] at h
  unfold readEntry at h
  rw [EStateM.bind_of_ok (Scan.reads (.byte _ _) _ _), EStateM.bind_of_ok (Scan.reads (.u32 _ _) _ _),
    EStateM.bind_of_ok (reads_readBlock he _ _), if_neg (not_not.2 hknown)] at h
  obtain ⟨id', _, htarget, h⟩ := EStateM.bind_eq_ok.1 h
  obtain ⟨htarget, -⟩ := Scan.lift_eq_ok.1 htarget
  obtain rfl := targetOf_of_node ht htarget
  obtain ⟨l', _, hlink, -⟩ := EStateM.bind_eq_ok.1 h
  exact ⟨l', (Scan.lift_eq_ok.1 hlink).1⟩

theorem linkTo_of_readEntries (hes : ∀ e ∈ es, RefEntry.Readable e) {pos : Nat} {rest : Bytes} {ls : List (Link E)}
    (h : readEntries k edgesOf p es.length ⟨pos, es.flatMap RefEntry.encode ++ rest⟩ = .ok ls r') :
    ∀ e ∈ es, ∀ id, e.target = .node id → ∃ l, linkTo edgesOf p id e.edges = .ok l := by
  induction es generalizing pos ls r' with
  | nil => exact fun _ he => absurd he List.not_mem_nil
  | cons e es ih =>
    rw [List.length_cons, readEntries, List.flatMap_cons, List.append_assoc] at h
    obtain ⟨l, r₁, hfirst, h⟩ := EStateM.bind_eq_ok.1 h
    obtain ⟨hhere, hthere⟩ := List.forall_mem_cons.1 hes
    cases consumes_readEntry hhere _ _ _ _ hfirst
    obtain ⟨ls', _, hrest, -⟩ := EStateM.bind_eq_ok.1 h
    exact List.forall_mem_cons.2 ⟨fun id ht => linkTo_of_readEntry hhere ht hfirst, ih hthere hrest⟩

end

/-! ### Instructions -/

variable {s : Run} {id : NodeId} {n : StoredNode} {store store₁ : Store}

theorem Run.On.currentOfType (h : s.On t id n) (hf : s.field = some p) : currentOfType p.type s = .ok ((t, id, p), s) := by
  unfold Engine.currentOfType
  rw [StateT.bind_eq_ok]
  refine ⟨(t, id, p), s, h.currentField hf, ?_⟩
  dsimp only
  rw [if_neg (not_not.2 rfl)]
  rfl

theorem RunM.scan_ok {α : Type} {x : Scan α} {bs : Bytes} {a : α} (h : Reads x bs a) (s : Run) (pos : Nat) (rest : Bytes) :
    (liftM x : RunM α) { s with reader := ⟨pos, bs ++ rest⟩ } =
      .ok (a, { s with reader := ⟨pos + bs.length, rest⟩ }) := by
  rw [RunM.liftM_apply, h]

theorem onStore_ok {f : Store → Except Fault Store} (h : f s.store = .ok store) : onStore f s = .ok ((), { s with store }) := by
  unfold onStore
  simp only [StateT.bind_eq_ok, RunM.get_eq_ok, RunM.lift_eq_ok, RunM.modify_eq_ok]
  exact ⟨s, s, ⟨rfl, rfl⟩, store, s, ⟨h, rfl⟩, rfl⟩

/-- What the selected collection is changed to by references to stored nodes. -/
theorem linkRefs_of_refers (replace : Bool) (h : s.On t id n) (hf : s.field = some p) (hmany : p.type = .references)
    (hlen : es.length < 2 ^ 32) (hrefers : List.Forall₂ (Refers s.known p) es ls)
    (hd : if replace then
        disconnectAll schema t.id id p (((n.links (slotOf p)).map (·.id)).filter fun k => !ls.any (·.id = k)) s.store = .ok store₁
      else store₁ = s.store)
    (hc : connectAll schema t.id id p ls store₁ = .ok store) (pos : Nat) (rest : Bytes) :
    linkRefs schema replace { s with reader := ⟨pos, Instr.encodeItems es ++ rest⟩ } =
      .ok ((), { s with store, reader := ⟨pos + (Instr.encodeItems es).length, rest⟩ }) := by
  rw [Instr.encodeItems, List.append_assoc, List.length_append, ← Nat.add_assoc]
  unfold linkRefs
  rw [← hmany]
  simp only [StateT.bind_eq_ok, RunM.get_eq_ok]
  refine ⟨_, _, (h.withReader _).currentOfType hf, es.length, _, RunM.read_ok (.nat hlen _) s _ _, _, _, ⟨rfl, rfl⟩, ls, _,
    RunM.scan_ok (refers_reads hrefers) s _ _, ?_⟩
  cases replace with
  | true =>
    rw [if_pos rfl] at hd
    rw [if_pos rfl, StateT.bind_eq_ok]
    exact ⟨(), _, onStore_ok (Except.bind_eq_ok.2 ⟨_, linkedIds_eq_ok.2 ⟨n, h.found, rfl⟩, hd⟩), onStore_ok hc⟩
  | false =>
    rw [if_neg Bool.false_ne_true] at hd ⊢
    subst hd
    exact onStore_ok hc

/-- The links that are not written go, and those that are written come. -/
theorem executes_setRefs (h : s.On t id n) (hf : s.field = some p) (hmany : p.type = .references) (hlen : es.length < 2 ^ 32)
    (hrefers : List.Forall₂ (Refers s.known p) es ls)
    (hd : disconnectAll schema t.id id p (((n.links (slotOf p)).map (·.id)).filter fun k => !ls.any (·.id = k)) s.store =
      .ok store₁) (hc : connectAll schema t.id id p ls store₁ = .ok store) :
    Executes schema (.setRefs es) s { s with store } := by
  intro pos rest
  have hrun : ∀ bs, runInstr schema { s with reader := ⟨pos, Instr.opSetRefs :: bs⟩ } =
      linkRefs schema true { s with reader := ⟨pos + 1, bs⟩ } := fun _ => rfl
  rw [Instr.encode, List.cons_append, hrun, linkRefs_of_refers true h hf hmany hlen hrefers hd hc]
  simp [Nat.add_assoc, Nat.add_comm]

/-- The links that are written come. -/
theorem executes_addRefs (h : s.On t id n) (hf : s.field = some p) (hmany : p.type = .references) (hlen : es.length < 2 ^ 32)
    (hrefers : List.Forall₂ (Refers s.known p) es ls) (hc : connectAll schema t.id id p ls s.store = .ok store) :
    Executes schema (.addRefs es) s { s with store } := by
  intro pos rest
  have hrun : ∀ bs, runInstr schema { s with reader := ⟨pos, Instr.opAddRefs :: bs⟩ } =
      linkRefs schema false { s with reader := ⟨pos + 1, bs⟩ } := fun _ => rfl
  rw [Instr.encode, List.cons_append, hrun, linkRefs_of_refers false h hf hmany hlen hrefers rfl hc]
  simp [Nat.add_assoc, Nat.add_comm]

/-- References are rejected with one that makes no link. -/
theorem linkRefs_rejects (replace : Bool) (hf : s.field = some p) (hlen : es.length < 2 ^ 32)
    (hes : ∀ e ∈ es, RefEntry.Readable e) (hunlinked : ∃ e ∈ es, Unlinked s.known p e) {pos : Nat} {rest : Bytes}
    {r : Unit × Run} :
    linkRefs schema replace (s.at pos (Instr.encodeItems es ++ rest)) ≠ .ok r := by
  intro h
  rw [Instr.encodeItems, List.append_assoc] at h
  unfold linkRefs at h
  simp only [StateT.bind_eq_ok, RunM.get_eq_ok] at h
  obtain ⟨⟨t, id, p'⟩, _, hc, _, _, hn, _, _, ⟨rfl, rfl⟩, ls, _, hls, -⟩ := h
  obtain ⟨rfl, -, -, hfield, -⟩ := currentOfType_spec hc
  obtain rfl : p = p' := Option.some.inj (hf.symm.trans hfield)
  obtain ⟨rfl, rfl⟩ := RunM.reads (.nat hlen _) hn
  obtain ⟨r', hread, -⟩ := RunM.scan_spec hls
  obtain ⟨e, he, id, htarget, hnone⟩ := hunlinked
  obtain ⟨l, hl⟩ := linkTo_of_readEntries hes hread e he id htarget
  exact hnone l hl

theorem rejects_setRefs (hf : s.field = some p) (hlen : es.length < 2 ^ 32) (hes : ∀ e ∈ es, RefEntry.Readable e)
    (hunlinked : ∃ e ∈ es, Unlinked s.known p e) :
    Rejects schema (.setRefs es) s :=
  fun _ _ _ h => linkRefs_rejects true hf hlen hes hunlinked h

theorem rejects_addRefs (hf : s.field = some p) (hlen : es.length < 2 ^ 32) (hes : ∀ e ∈ es, RefEntry.Readable e)
    (hunlinked : ∃ e ∈ es, Unlinked s.known p e) :
    Rejects schema (.addRefs es) s :=
  fun _ _ _ h => linkRefs_rejects false hf hlen hes hunlinked h

/-- A written reference to a stored node that says nothing more. -/
def plainEntry (id : NodeId) : RefEntry := ⟨.node id, none⟩

theorem removeRefs_of_stored (h : Opposite schema t p u q) {targets : List NodeId} (hn : (s.store.node? t.id id).isSome = true)
    (htargets : ∀ k ∈ targets, (s.store.node? u.id k).isSome = true)
    (hd : disconnectAll schema t.id id p targets s.store = .ok store) (pos : Nat) (rest : Bytes) :
    removeRefs schema t id p targets.length
        { s with reader := ⟨pos, (targets.map plainEntry).flatMap RefEntry.encode ++ rest⟩ } =
      .ok ((), { s with store, reader := ⟨pos + ((targets.map plainEntry).flatMap RefEntry.encode).length, rest⟩ }) := by
  obtain ⟨r, _, hr, hid, -⟩ := inverseOf_spec h.inverse
  induction targets generalizing s pos with
  | nil =>
    cases hd
    rfl
  | cons target targets ih =>
    rw [disconnectAll, List.foldlM_cons] at hd
    obtain ⟨s₁, hfirst, hd⟩ := Except.bind_eq_ok.1 hd
    obtain ⟨s₁', hfirst', hnodes⟩ := disconnect_succeeds h hn target
    obtain rfl : s₁ = s₁' := Except.ok.inj (hfirst.symm.trans hfirst')
    have hencode : (plainEntry target).encode = [(plainEntry target).flags] ++ leBytes 4 (plainEntry target).word.toNat := by
      rw [RefEntry.encode_eq, RefEntry.block, plainEntry, List.append_nil]
    have htarget : targetOf s.known p (plainEntry target).flags (plainEntry target).word = .ok target :=
      targetOf_of_stored rfl ⟨r, hr, by rw [hid]; exact htargets target List.mem_cons_self⟩
    have hremove : removeRef schema t id p
        { s with reader := ⟨pos, (plainEntry target).encode ++ ((targets.map plainEntry).flatMap RefEntry.encode ++ rest)⟩ } =
        .ok ((), { s with
          store := s₁
          reader := ⟨pos + (plainEntry target).encode.length, (targets.map plainEntry).flatMap RefEntry.encode ++ rest⟩ }) := by
      rw [hencode, List.append_assoc, List.length_append, ← Nat.add_assoc]
      unfold removeRef
      simp only [StateT.bind_eq_ok, RunM.get_eq_ok, RunM.lift_eq_ok]
      exact ⟨_, _, RunM.read_ok (.byte _ _) s _ _, _, _, RunM.read_ok (.u32 _ _) s _ _, _, _, ⟨rfl, rfl⟩, target, _,
        ⟨htarget, rfl⟩, onStore_ok hfirst⟩
    rw [List.length_cons, removeRefs, List.map_cons, List.flatMap_cons, List.append_assoc, StateT.bind_eq_ok]
    refine ⟨(), _, hremove, ?_⟩
    have hrest := ih (s := { s with store := s₁ }) ((hnodes _ _).trans hn)
      (fun k hk => (hnodes _ _).trans (htargets k (List.mem_cons_of_mem _ hk))) hd (pos + (plainEntry target).encode.length)
    rw [hrest, List.length_append, Nat.add_assoc]

/-- The links to the nodes that are named go. -/
theorem executes_removeRefs (h : s.On t id n) (hf : s.field = some p) (hmany : p.type = .references)
    (hopp : Opposite schema t p u q) {targets : List NodeId} (hlen : targets.length < 2 ^ 32)
    (htargets : ∀ k ∈ targets, (s.store.node? u.id k).isSome = true)
    (hd : disconnectAll schema t.id id p targets s.store = .ok store) :
    Executes schema (.removeRefs (targets.map plainEntry)) s { s with store } := by
  intro pos rest
  have hrun : ∀ bs, runInstr schema { s with reader := ⟨pos, Instr.opRemoveRefs :: bs⟩ } =
      unlinkRefs schema { s with reader := ⟨pos + 1, bs⟩ } := fun _ => rfl
  rw [Instr.encode, Instr.encodeItems, List.cons_append, hrun, List.append_assoc, List.length_map]
  unfold unlinkRefs
  rw [← hmany]
  simp only [StateT.bind_eq_ok]
  refine ⟨_, _, (h.withReader _).currentOfType hf, targets.length, _, RunM.read_ok (.nat hlen _) s _ _, ?_⟩
  have hn : (s.store.node? t.id id).isSome = true := by rw [h.found]; rfl
  refine (removeRefs_of_stored hopp (s := s) hn htargets hd _ rest).trans ?_
  have hlength : ∀ (k : Nat) (bs : Bytes), (Instr.opRemoveRefs :: (leBytes 4 k ++ bs)).length = 1 + 4 + bs.length := by
    intro k bs
    rw [List.length_cons, List.length_append, length_leBytes, Nat.add_comm, Nat.add_assoc]
  rw [hlength, length_leBytes, Nat.add_assoc, Nat.add_assoc, Nat.add_assoc]

/-! ### Changes of a collection -/

/-- An instruction changes a collection as `f` does: where the node and the field are selected, it leads to such a store. -/
def Changes (schema : SchemaLayout) (t : TypeLayout) (p : PropDef EdgeLayout) (u : TypeLayout) (q : PropDef EdgeLayout)
    (id : NodeId) (k : Known) (joined : List NodeId) (f : List (Link EdgeNode) → List (Link EdgeNode)) (i : Instr) : Prop :=
  ∃ store, Collects schema t p u q id joined f k.store store ∧
    ∀ (r : Run) n, r.On t id n → r.field = some p → r.known = k → Executes schema i r { r with store }

section

variable (hp : schema.Placed) (hs : k.store.Sound schema) (h : Opposite schema t p u q) (hmany : p.type = .references)
  (hn : (k.store.node? t.id id).isSome = true)

include hp h in
/-- The links that are written fit, and they lead to nodes that exist. -/
theorem refers_fit (hrefers : List.Forall₂ (Refers k p) es ls) : ∀ l ∈ ls,
    (l.Fits EdgeFits p ∧ (l.edges.isSome = true → p.edges.isSome = true)) ∧ (k.store.node? u.id l.id).isSome = true := by
  obtain ⟨r, _, hr, hid, -⟩ := inverseOf_spec h.inverse
  induction hrefers with
  | nil => exact fun _ hl => absurd hl List.not_mem_nil
  | @cons e l es ls hfirst _ ih =>
    intro l' hl'
    rcases List.mem_cons.1 hl' with rfl | hl'
    · obtain ⟨r', hr', hstored⟩ := hfirst.stored
      obtain rfl : r = r' := Option.some.inj (hr.symm.trans hr')
      rw [hid] at hstored
      exact ⟨(linkTo_spec (edges_fit hp h.source h.prop k) hfirst.link).2, hstored⟩
    · exact ih l' hl'

include hp hs h hmany hn

theorem addRefs_changes (hlen : es.length < 2 ^ 32) (hrefers : List.Forall₂ (Refers k p) es ls) :
    Changes schema t p u q id k (ls.map (·.id)) (Node.joinAll ls) (.addRefs es) := by
  obtain ⟨store, hc, hcollects⟩ := connectAll_collects hp hs h hmany hn (refers_fit hp h hrefers)
  refine ⟨store, hcollects, fun r n hon hf hk => ?_⟩
  subst hk
  exact executes_addRefs hon hf hmany hlen hrefers hc

theorem setRefs_changes (hlen : es.length < 2 ^ 32) (hrefers : List.Forall₂ (Refers k p) es ls) :
    Changes schema t p u q id k (ls.map (·.id)) (fun old => Node.joinAll ls (Node.kept (some ls) old)) (.setRefs es) := by
  have houtdated : ∀ old : List (Link EdgeNode), (old.filter fun l => decide
      (l.id ∉ (old.map (·.id)).filter fun k => !ls.any (·.id = k))) = Node.kept (some ls) old := by
    intro old
    refine List.filter_congr fun l hl => ?_
    have hmem : l.id ∈ old.map (·.id) := List.mem_map_of_mem hl
    rw [decide_eq_decide, List.mem_filter, and_iff_right hmem]
    simp
  obtain ⟨n, hn'⟩ := Option.isSome_iff_exists.1 hn
  obtain ⟨store₁, hd, hfirst⟩ := disconnectAll_collects hp hs h hn
    (((n.links (slotOf p)).map (·.id)).filter fun k => !ls.any (·.id = k))
  obtain ⟨store, hc, hrest⟩ := connectAll_collects hp hfirst.sound h hmany ((hfirst.nodes _ _).trans hn)
    fun l hl => (refers_fit hp h hrefers l hl).imp_right ((hfirst.nodes _ _).trans ·)
  refine ⟨store, (hfirst.trans hrest).congr ?_, fun r m hon hf hk => ?_⟩
  · rw [Store.linksOf_of_node? hn', houtdated]
  · subst hk
    obtain rfl : m = n := Option.some.inj (hon.found.symm.trans hn')
    exact executes_setRefs hon hf hmany hlen hrefers hd hc

theorem removeRefs_changes {targets : List NodeId} (hlen : targets.length < 2 ^ 32)
    (htargets : ∀ k' ∈ targets, (k.store.node? u.id k').isSome = true) :
    Changes schema t p u q id k [] (·.filter fun l => decide (l.id ∉ targets)) (.removeRefs (targets.map plainEntry)) := by
  obtain ⟨store, hd, hcollects⟩ := disconnectAll_collects hp hs h hn targets
  refine ⟨store, hcollects, fun r n hon hf hk => ?_⟩
  subst hk
  exact executes_removeRefs hon hf hmany h hlen htargets hd

end

end NodeStore.Engine
