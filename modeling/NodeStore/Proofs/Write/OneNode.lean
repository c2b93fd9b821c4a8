import NodeStore.Proofs.Write.Assignments
import NodeStore.Proofs.Write.Lifecycle

/-!
# Sessions that write one node

A session creates a node and updates it, and everything fits into the open buffer.

* `PlainRecord`: a record that gives each property one value at most, and none to references.
* `Session.Open`: the session holds the create of one node and nothing else.
* `create_open`, `update_open`: the calls keep it so, and the buffer mirrors what was written.
-/

namespace NodeStore.Write

open Engine

/-! ### Records -/

/-- The record gives each property one value at most, and none to references. -/
structure PlainRecord (t : TypeLayout) (record : Record) : Prop where
  once : ∀ p ∈ t.props, (Record.writesAt p.path record).length ≤ 1
  plain : ∀ p ∈ t.props, p.type.isReference = true → Record.writesAt p.path record = []

section

variable {t : TypeLayout} {lenient create : Bool} {record : Record} {fields : List (Field EdgeLayout)}

/-- A property has the one value that the record gives it, if there is any. -/
theorem valuesOf_eq_givenTo (ha : t.Addressed) (hr : PlainRecord t record)
    (h : collectFields t lenient create record = .ok fields) {i : Nat} {p : PropDef EdgeLayout}
    (hp : t.props[i]? = some p) : valuesOf i fields = givenTo create record p ∧ (givenTo create record p).length ≤ 1 := by
  have hone : (givenTo create record p).length ≤ 1 := by
    have := hr.once p (List.mem_of_getElem? hp)
    unfold givenTo
    split
    · split
      · cases p.default <;> simp
      · exact Nat.zero_le _
    · assumption
  have hperm := (collectFields_values ha h).2 i p hp
  refine ⟨?_, hone⟩
  match hlist : givenTo create record p, hone with
  | [], _ => exact List.perm_nil.1 (hlist ▸ hperm)
  | [v], _ => exact List.perm_singleton.1 (hlist ▸ hperm)

theorem suits_of_collectFields (hk : t.Packed) (ha : t.Addressed) (hr : PlainRecord t record)
    (h : collectFields t lenient create record = .ok fields) : ∀ f ∈ fields, f.Suits t := by
  obtain ⟨hfields, -⟩ := collectFields_values ha h
  intro f hf
  obtain ⟨hprop, hcheck⟩ := hfields f hf
  have hmem := List.mem_of_getElem? hprop
  refine ⟨hprop, ?_, validateBuiltin_of_checkField hcheck⟩
  by_contra href
  have href : f.prop.type.isReference = true := by simpa using href
  -- A reference has no default, so nothing is given to it.
  have hdefault : f.prop.default = none := by
    cases hd : f.prop.default with
    | none => rfl
    | some v =>
      have := ((hk.declared _ hmem).default v hd).1
      rw [href] at this
      cases this
  have hnone : valuesOf f.index fields = [] := by
    rw [(valuesOf_eq_givenTo ha hr h hprop).1, givenTo, hr.plain _ hmem href]
    simp [hdefault]
  have hmem : f.value ∈ valuesOf f.index fields := List.mem_map.2 ⟨f, List.mem_filter.2 ⟨hf, by simp⟩, rfl⟩
  rw [hnone] at hmem
  cases hmem

end

/-! ### Drafts -/

/-- The type of the node is one of a compiled schema. -/
structure Creation.Compiled (g : Creation) : Prop where
  found : g.schema.typeById? g.type.id = some g.type
  placed : g.type.Placed
  packed : g.type.Packed
  addressed : g.type.Addressed

theorem selectType_idle (type : TypeId) : Cursor.idle.selectType type = [.selectType type] := by
  simp [Cursor.selectType, Cursor.node?]

/-- The first instructions of a batch create a node. -/
theorem createNode_mirrors {schema : SchemaLayout} {store : Store} {t : TypeLayout} (ht : schema.typeById? t.id = some t)
    (hplaced : t.Placed) (hroom : store.exhausted t.id = false) {d d' : Draft} (hempty : d.encoder.buffer.bytes = [])
    (hidle : d.encoder.cursor = .idle) (h : createNode t.id 0 d = .ok () d') :
    let g : Creation := ⟨schema, store, t, (store.create t).1⟩
    g.Selected d' ∧ d'.placeholders = d.placeholders ∧ g.Mirrors d' (.fresh t) := by
  intro g
  unfold createNode at h
  obtain ⟨c, d₁, hc, h⟩ := EStateM.bind_eq_ok.1 h
  obtain ⟨rfl, rfl⟩ := cursor_eq_ok.1 hc
  obtain ⟨start, d₂, he, h⟩ := EStateM.bind_eq_ok.1 h
  obtain ⟨-, rfl, rfl⟩ := emit_eq_ok.1 he
  cases moveTo_eq_ok.1 h
  rw [hidle, selectType_idle]
  have hfirst : (0 : UInt32).toNat = (Run.start store []).created.length := rfl
  have hexec := ExecutesAll.cons (executes_selectType ht (.start store []))
    (.single (executes_createNode schema rfl hfirst hroom))
  refine ⟨rfl, rfl, ⟨_, _, ?_, hexec, ⟨rfl, rfl, ?_⟩, rfl, nofun⟩, Node.Fits.fresh hplaced, Nat.zero_le _⟩
  · exact (congrArg (· ++ encodeAll _) hempty).trans rfl
  · simp [Run.start, Store.node?_create, g]

theorem Creation.Mirrors.bytes_ne_nil {g : Creation} {d : Draft} {n : StoredNode} (hm : g.Mirrors d n) :
    d.encoder.buffer.bytes ≠ [] := by
  obtain ⟨is, r, hbytes, hexec, -, hcreated, -⟩ := hm.run
  cases hexec with
  | nil => cases hcreated
  | @cons i is _ _ _ _ _ =>
    rw [hbytes, encodeAll_cons]
    exact List.append_ne_nil_of_left_ne_nil (Instr.encode_ne_nil i) _

theorem selectNode_of_selected {type : TypeId} {node : NodeTarget} {d : Draft}
    (h : d.encoder.cursor.node? = some (type, node)) : selectNode type node d = .ok () d := by
  unfold selectNode
  change EStateM.bind cursor _ d = _
  simp only [EStateM.bind, (cursor_eq_ok (d := d)).2 ⟨rfl, rfl⟩, if_pos h]
  rfl

/-! ### Calls -/

namespace Session

variable {s s' : Session} {type : String} {record : Record} {p : PendingId}

/-- A call that creates a node: its fields were written to the open buffer, or to an empty one. -/
theorem create_eq_ok (h : create type record s = .ok p s') :
    ∃ t fields s₀ enc hs, s.schema.typeByName? type = some t ∧ collectFields t s.lenient true record = .ok fields ∧
      s.Opened s₀ ∧
      (do createNode t.id s₀.registry.nextTmp; writeCreate s₀.context t fields) ⟨s₀.encoder, []⟩ = .ok () ⟨enc, hs⟩ ∧
      p = (s₀.registry.register t.id).1 ∧
      s' = { s₀ with
        encoder := enc
        registry := hs.foldl (fun r x => r.oblige (.pending p) t.id x) (s₀.registry.register t.id).2 } := by
  unfold create at h
  obtain ⟨t, s₁, ht, h⟩ := EStateM.bind_eq_ok.1 h
  obtain ⟨hname, rfl⟩ := typeNamed_eq_ok.1 ht
  obtain ⟨_, _, hget, h⟩ := EStateM.bind_eq_ok.1 h
  cases hget
  obtain ⟨fields, s₂, hfields, h⟩ := EStateM.bind_eq_ok.1 h
  obtain ⟨hcollect, rfl⟩ := ofExcept_eq_ok.1 hfields
  obtain ⟨⟨⟨⟩, hs⟩, s₃, hrun, h⟩ := EStateM.bind_eq_ok.1 h
  obtain ⟨s₀, enc, hopened, hcall, rfl⟩ := run_eq_ok hrun
  cases h
  exact ⟨t, fields, s₀, enc, hs, hname, hcollect, hopened, hcall, rfl, rfl⟩

/-- A call that creates a node, once its fields are known. -/
theorem create_of_fields {t : TypeLayout} (ht : s.schema.typeByName? type = some t) {fields : List (Field EdgeLayout)}
    (h : collectFields t s.lenient true record = .ok fields) :
    create type record s = (do
      let (_, hs) ← run fun c => do
        createNode t.id c.registry.nextTmp
        writeCreate c t fields
      let (p, registry) := (← get).registry.register t.id
      modify fun s => { s with registry }
      oblige (.pending p) t.id hs
      return p : SessionM PendingId) s := by
  have hnamed : typeNamed type s = .ok t s := by rw [typeNamed_eq, ht]; rfl
  unfold create
  rw [EStateM.bind_of_ok hnamed, EStateM.bind_of_ok (rfl : (get : SessionM Session) s = .ok s s), h,
    EStateM.bind_of_ok (rfl : ofExcept (.ok fields) s = .ok fields s)]

/-- A call that updates a node in the open buffer, or in an empty one; one in flight is updated later. -/
theorem update_eq_ok {target : NodeRef} (h : update type target record s = .ok () s') :
    ∃ t t' fields s₀ enc hs waits, s.schema.typeByName? type = some t ∧ s.schema.typeById? t.id = some t' ∧
      collectFields t' s.lenient false record = .ok fields ∧ s.Opened s₀ ∧
      writeTo t.id target (fun c => writeUpdate c t' fields) s₀.context ⟨s₀.encoder, []⟩ = .ok waits ⟨enc, hs⟩ ∧
      s' = match waits with
        | none => { s₀ with encoder := enc, registry := hs.foldl (fun r x => r.oblige target t.id x) s₀.registry }
        | some q => { s₀ with encoder := enc, registry := s₀.registry.queue q (.update record) } := by
  obtain ⟨t, hname, hnode⟩ := update_eq_ok_iff.1 h
  obtain ⟨t', fields, hid, hcollect, hperform⟩ := updateNode_eq_ok.1 hnode
  obtain ⟨s₀, enc, hs, waits, hopened, hcall, rfl⟩ := perform_eq_ok hperform
  exact ⟨t, t', fields, s₀, enc, hs, waits, hname, hid, hcollect, hopened, hcall, rfl⟩

/-! ### The open buffer -/

/-- The open buffer as a call meets it. -/
def draft (s : Session) : Draft := ⟨s.encoder, []⟩

/-- The session has created one node, and all that it wrote is in the open buffer. -/
structure Open (g : Creation) (s : Session) : Prop where
  schema : s.schema = g.schema
  registry : s.registry = (Registry.empty.register g.type.id).2
  outbox : s.outbox = []
  seq : s.nextSeq = 1
  selected : g.Selected s.draft

theorem opened_of_outbox {s₀ : Session} (h : s.Opened s₀) (hout : s₀.outbox = []) : s₀ = s := by
  rcases h with h | ⟨hbuffer, rfl⟩
  · exact h
  · rw [close_of_nonempty hbuffer] at hout
    simp at hout

variable {g : Creation}

/-- An update stays in the open buffer and goes on with what the node holds. -/
theorem update_open (hg : g.Compiled) (hname : g.schema.typeByName? type = some g.type) (hr : PlainRecord g.type record)
    (hs : s.Open g) (h : update type (.pending ⟨1⟩) record s = .ok () s') (hout : s'.outbox = []) :
    s'.Open g ∧ s'.locale = s.locale ∧ s.bufferedLength ≤ s'.bufferedLength ∧
      ∀ n, g.Mirrors s.draft n → s'.bufferedLength < 2 ^ 32 → ∃ n', g.Mirrors s'.draft n' ∧
        ∀ (i : Nat) q, g.type.props[i]? = some q → ∀ created updated, Holds g.type s.locale n q created updated →
          Holds g.type s.locale n' q created (updated ++ givenTo false record q) := by
  obtain ⟨t, t', fields, s₀, enc, hnoted, waits, ht, ht', hcollect, hopened, hwrite, rfl⟩ := update_eq_ok h
  obtain rfl : g.type = t := Option.some.inj (hname.symm.trans (hs.schema ▸ ht))
  obtain rfl : g.type = t' := Option.some.inj (hg.found.symm.trans (hs.schema ▸ ht'))
  obtain rfl : s₀ = s := opened_of_outbox hopened (by cases waits <;> exact hout)
  unfold writeTo at hwrite
  obtain ⟨wire, d, hlift, hrest⟩ := EStateM.bind_eq_ok.1 hwrite
  obtain ⟨hwire, rfl⟩ := liftExcept_eq_ok.1 hlift
  obtain rfl : wire = .tmp 0 := by
    have hself := Registry.wireTarget_register_self .empty g.type.id
    change s₀.registry.wireTarget (.pending ⟨1⟩) = .ok wire at hwire
    rw [hs.registry] at hwire
    exact Except.ok.inj (hwire.symm.trans hself)
  obtain ⟨_, d₁, hselect, hfields⟩ := EStateM.bind_eq_ok.1 hrest
  change selectNode g.type.id (.tmp 0) s₀.draft = _ at hselect
  rw [selectNode_of_selected hs.selected] at hselect
  cases hselect
  obtain ⟨_, d₂, hupdate, hpure⟩ := EStateM.bind_eq_ok.1 hfields
  cases hpure
  obtain ⟨hselected, hle, hplaceholders, hmirrors⟩ := Creation.writeUpdate_holds hg.placed hg.packed hg.addressed
    (suits_of_collectFields hg.packed hg.addressed hr hcollect) hs.selected hupdate
  obtain rfl : hnoted = [] := hplaceholders
  refine ⟨⟨hs.schema, hs.registry, hs.outbox, hs.seq, hselected⟩, rfl, hle, fun n hm hsize => ?_⟩
  obtain ⟨n', hm', hholds⟩ := hmirrors n hm hsize
  refine ⟨n', hm', fun i q hq created updated hn => ?_⟩
  rw [← (valuesOf_eq_givenTo hg.addressed hr hcollect hq).1]
  exact hholds i q hq created updated hn

/-- The create of a node is the first thing in the open buffer. -/
theorem create_open {schema : SchemaLayout} {store : Store} {t : TypeLayout}
    (hg : Creation.Compiled ⟨schema, store, t, (store.create t).1⟩) (hname : schema.typeByName? type = some t)
    (hroom : store.exhausted t.id = false) (hr : PlainRecord t record) {options : Options}
    (hs : start schema options = .ok s) (h : create type record s = .ok p s') (hout : s'.outbox = []) :
    let g : Creation := ⟨schema, store, t, (store.create t).1⟩
    p = ⟨1⟩ ∧ s'.Open g ∧ s'.locale = s.locale ∧
      (s'.bufferedLength < 2 ^ 32 → ∃ n, g.Mirrors s'.draft n ∧
        ∀ (i : Nat) q, t.props[i]? = some q → Holds t s.locale n q (givenTo true record q) []) := by
  intro g
  obtain ⟨hschema, -, -, hencoder, hregistry, -, hseq⟩ := started_of_start hs
  obtain ⟨t', fields, s₀, enc, hnoted, ht', hcollect, hopened, hwrite, rfl, rfl⟩ := create_eq_ok h
  obtain rfl : t = t' := Option.some.inj (hname.symm.trans (hschema ▸ ht'))
  obtain rfl : s₀ = s := opened_of_outbox hopened hout
  have hempty : s₀.encoder.buffer.bytes = [] := by rw [hencoder]; rfl
  have hidle : s₀.encoder.cursor = .idle := by rw [hencoder]; rfl
  rw [hregistry] at hwrite
  obtain ⟨_, d, hcreate, hfields⟩ := EStateM.bind_eq_ok.1 hwrite
  obtain ⟨hselected, hcreated, hmirrors⟩ := createNode_mirrors hg.found hg.placed hroom hempty hidle hcreate
  obtain ⟨hselected', hle, hplaceholders, hholds⟩ := Creation.writeCreate_holds (g := g) hg.placed hg.packed hg.addressed
    (suits_of_collectFields hg.packed hg.addressed hr hcollect) hselected hfields
  obtain rfl : hnoted = [] := hplaceholders.trans hcreated
  refine ⟨by rw [hregistry]; rfl, ⟨hschema, by rw [hregistry]; rfl, hout, hseq, hselected'⟩, rfl, fun hsize => ?_⟩
  obtain ⟨n, hm, hn⟩ := hholds hmirrors hsize
  refine ⟨n, hm, fun i q hq => ?_⟩
  obtain ⟨hvalues, hone⟩ := valuesOf_eq_givenTo hg.addressed hr hcollect hq
  rw [← hvalues]
  exact hn i q hq (hvalues ▸ hone)

/-- The updates of a node, one after the other. -/
def updateAll (type : String) (target : NodeRef) (records : List Record) : SessionM Unit :=
  records.forM (update type target)

theorem updateAll_outbox {target : NodeRef} {records : List Record} (h : updateAll type target records s = .ok () s')
    (hout : s'.outbox = []) : s.outbox = [] := by
  induction records generalizing s with
  | nil =>
    cases h
    exact hout
  | cons record records ih =>
    obtain ⟨_, s₁, hfirst, hrest⟩ := EStateM.bind_eq_ok.1 (h : (update type target record >>= fun _ => records.forM _) s = _)
    have hout₁ := ih hrest
    obtain ⟨t, t', fields, s₀, enc, hs, waits, -, -, -, hopened, -, rfl⟩ := update_eq_ok hfirst
    have hout₀ : s₀.outbox = [] := by cases waits <;> exact hout₁
    exact opened_of_outbox hopened hout₀ ▸ hout₀

/-- Updates that stay in the open buffer go on with what the node holds. -/
theorem updateAll_open (hg : g.Compiled) (hname : g.schema.typeByName? type = some g.type) {records : List Record}
    (hr : ∀ record ∈ records, PlainRecord g.type record) (hs : s.Open g)
    (h : updateAll type (.pending ⟨1⟩) records s = .ok () s') (hout : s'.outbox = []) :
    s'.Open g ∧ s.bufferedLength ≤ s'.bufferedLength ∧
      ∀ n, g.Mirrors s.draft n → s'.bufferedLength < 2 ^ 32 → ∃ n', g.Mirrors s'.draft n' ∧
        ∀ (i : Nat) q, g.type.props[i]? = some q → ∀ created updated, Holds g.type s.locale n q created updated →
          Holds g.type s.locale n' q created (updated ++ records.flatMap fun record => givenTo false record q) := by
  induction records generalizing s with
  | nil =>
    cases h
    exact ⟨hs, Nat.le_refl _, fun n hm _ => ⟨n, hm, fun i q _ created updated hn => by simpa using hn⟩⟩
  | cons record records ih =>
    obtain ⟨_, s₁, hfirst, hrest⟩ := EStateM.bind_eq_ok.1
      (h : (update type (.pending ⟨1⟩) record >>= fun _ => updateAll type (.pending ⟨1⟩) records) s = _)
    obtain ⟨hs₁, hlocale, hle, hstep⟩ := update_open hg hname (hr record List.mem_cons_self) hs hfirst
      (updateAll_outbox hrest hout)
    obtain ⟨hs', hle', hsteps⟩ := ih (fun r hmem => hr r (List.mem_cons_of_mem _ hmem)) hs₁ hrest
    refine ⟨hs', Nat.le_trans hle hle', fun n hm hsize => ?_⟩
    obtain ⟨n₁, hm₁, hholds₁⟩ := hstep n hm (Nat.lt_of_le_of_lt hle' hsize)
    obtain ⟨n', hm', hholds'⟩ := hsteps n₁ hm₁ hsize
    refine ⟨n', hm', fun i q hq created updated hn => ?_⟩
    have hn' := hholds' i q hq created _ (hlocale ▸ hholds₁ i q hq created updated hn)
    rw [List.flatMap_cons, ← List.append_assoc, ← hlocale]
    exact hn'

/-! ### Flushing -/

/-- The registry once the one create is acknowledged. -/
def resolvedTo (type : TypeId) (id : NodeId) : Registry := ⟨[⟨type, .resolved id, []⟩], [], [], []⟩

theorem acknowledge_created (hs : s.registry = ((Registry.empty.register g.type.id).2.close 1).2) :
    acknowledge 1 (.ok [g.id]) s = .ok () { s with registry := resolvedTo g.type.id g.id } := by
  unfold acknowledge
  rw [hs]
  rfl

/-- The engine executes the open buffer to the node that it mirrors. -/
theorem apply_mirrored {d : Draft} {n : StoredNode} (hm : g.Mirrors d n) {m : Memory} (hschema : m.schema = g.schema)
    (hstore : m.store = g.store) (hnext : m.failNext = none) :
    ∃ store, Memory.apply d.encoder.buffer.bytes m = (.ok [g.id], { m with store }) ∧
      store.node? g.type.id g.id = some n := by
  obtain ⟨is, r, hbytes, hexec, hon, hcreated, -⟩ := hm.run
  refine ⟨r.store, ?_, hon.found⟩
  rw [Memory.apply, hnext, hbytes, hschema, hstore]
  simp only [applyBatch_of_executes hexec, hcreated]
  rfl

/-- To flush the session is to hand over one batch, whose node gets its id. -/
theorem flush_open (hs : s.Open g) {n : StoredNode} (hm : g.Mirrors s.draft n) {m : Memory}
    (hschema : m.schema = g.schema) (hstore : m.store = g.store) (hnext : m.failNext = none) :
    ∃ store s', flush Memory.apply m s = (.ok (), { m with store }, s') ∧ s'.resolved? ⟨1⟩ = .ok (some g.id) ∧
      store.node? g.type.id g.id = some n := by
  obtain ⟨store, happly, hnode⟩ := apply_mirrored hm hschema hstore hnext
  have hbuffer : s.encoder.buffer.isEmpty = false := by
    have := hm.bytes_ne_nil
    simpa [Buffer.isEmpty, draft] using this
  let sent : Session := { s with
    encoder := s.encoder.close.2
    registry := ((Registry.empty.register g.type.id).2.close 1).2
    nextSeq := 2
    outbox := [] }
  have hdrain : s.drain = ([⟨1, s.encoder.buffer.bytes, 1⟩], sent) := by
    unfold drain
    rw [close_of_nonempty hbuffer]
    simp only [hs.outbox, hs.registry, hs.seq]
    rfl
  let done : Session := { sent with registry := resolvedTo g.type.id g.id }
  have happlied : applyBatches Memory.apply [⟨1, s.encoder.buffer.bytes, 1⟩] m sent = (none, { m with store }, done) := by
    have hack : acknowledge 1 (.ok [g.id]) sent = .ok () done := acknowledge_created rfl
    change Memory.apply s.encoder.buffer.bytes m = _ at happly
    simp only [applyBatches, happly, hack]
    rfl
  have hrest : done.drain = ([], done) := rfl
  refine ⟨store, done, ?_, rfl, hnode⟩
  simp only [flush, flushRounds, hdrain, happlied, hrest]
  rfl

/-- A node is created and then updated. -/
def writeAll (type : String) (record : Record) (updates : List Record) : SessionM PendingId := do
  let p ← create type record
  updateAll type (.pending p) updates
  return p

/-- The stored node holds what was written to each of its properties. -/
theorem writeAll_flush {schema : SchemaLayout} {t : TypeLayout} {m : Memory}
    (hg : Creation.Compiled ⟨schema, m.store, t, (m.store.create t).1⟩) (hname : schema.typeByName? type = some t)
    (hroom : m.store.exhausted t.id = false) (hschema : m.schema = schema) (hnext : m.failNext = none)
    {updates : List Record} (hr : PlainRecord t record) (hu : ∀ update ∈ updates, PlainRecord t update) {options : Options}
    (hs : start schema options = .ok s) (h : writeAll type record updates s = .ok p s') (hout : s'.outbox = [])
    (hsize : s'.bufferedLength < 2 ^ 32) :
    ∃ store s'' n, flush Memory.apply m s' = (.ok (), { m with store }, s'') ∧
      s''.resolved? p = .ok (some (m.store.create t).1) ∧ store.node? t.id (m.store.create t).1 = some n ∧
      n.Fits (fun _ _ => True) t ∧ n.size ≤ 2 * s'.bufferedLength ∧
      ∀ (i : Nat) q, t.props[i]? = some q →
        Holds t s.locale n q (givenTo true record q) (updates.flatMap fun update => givenTo false update q) := by
  unfold writeAll at h
  obtain ⟨p', s₁, hcreate, hrest⟩ := EStateM.bind_eq_ok.1 h
  obtain ⟨_, s₂, hupdates, hpure⟩ := EStateM.bind_eq_ok.1 hrest
  cases hpure
  obtain ⟨rfl, hopen₁, hlocale, hholds⟩ := create_open hg hname hroom hr hs hcreate (updateAll_outbox hupdates hout)
  obtain ⟨hopen, hle, hsteps⟩ := updateAll_open hg hname hu hopen₁ hupdates hout
  obtain ⟨n₁, hm₁, hn₁⟩ := hholds (Nat.lt_of_le_of_lt hle hsize)
  obtain ⟨n, hm, hn⟩ := hsteps n₁ hm₁ hsize
  obtain ⟨store, s'', hflush, hresolved, hnode⟩ := flush_open hopen hm hschema rfl hnext
  refine ⟨store, s'', n, hflush, hresolved, hnode, hm.fits, hm.size, fun i q hq => ?_⟩
  have hq' := hn i q hq _ _ (hlocale ▸ hn₁ i q hq)
  rw [hlocale] at hq'
  simpa using hq'

end Session

end NodeStore.Write
