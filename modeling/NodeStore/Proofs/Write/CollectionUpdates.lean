import NodeStore.Proofs.Engine.Linking
import NodeStore.Proofs.Write.Counters

/-!
# Updates of collections

An update of a collection is written as up to three instructions: one that replaces the links, one that adds some and one
that removes some.

* `linkOf`: the link that a reference stands for; `WrittenAs`: a reference to a node with an id, as it is written.
* `Session.BringsTo`: what the unsent writes of a session lead a memory to, with the node that is selected.
* `Session.Acts`: what an action does to a collection, or that it is refused; `writeReplaced_acts`, `writeAdded_acts` and
  `writeRemoved_acts` are the three instructions.
* `Session.collection_updated`: the whole update.
-/

namespace NodeStore

namespace Write

open Engine

/-! ### References to nodes with ids -/

/-- The ids of the nodes that references lead to. -/
def Registry.idsOf (r : Registry) (items : List RefItem) : List NodeId := items.filterMap fun item => r.idOf? item.1

theorem Registry.idsOf_append (r : Registry) (items items' : List RefItem) :
    r.idsOf (items ++ items') = r.idsOf items ++ r.idsOf items' := List.filterMap_append

/-- The link that a reference stands for, if its target has an id and the block of its edges can be executed. -/
def linkOf (c : Context) (k : Known) (p : PropDef EdgeLayout) (item : RefItem) : Option (Link EdgeNode) := do
  let id ← c.registry.idOf? item.1
  let block ← (linkBlock c (encodeEdges c) p item.2 false).toOption
  (linkTo (edgeNode k) p id block).toOption

/-- A reference to a node with an id, as it is written. -/
def WrittenAs (c : Context) (p : PropDef EdgeLayout) (item : RefItem) (e : RefEntry) : Prop :=
  ∃ id, c.registry.idOf? item.1 = some id ∧ e.target = .node id ∧
    linkBlock c (encodeEdges c) p item.2 false = .ok e.edges

section

variable {c : Context} {k k' : Known} {p : PropDef EdgeLayout} {item : RefItem} {e : RefEntry} {l : Link EdgeNode}
  {items : List RefItem} {es : List RefEntry}

theorem linkOf_congr (hk : k.Alike k') : linkOf c k' p = linkOf c k p := by
  funext item
  rw [linkOf, linkOf, edgeNode_congr hk]

theorem WrittenAs.linkOf_eq_some (h : WrittenAs c p item e) :
    linkOf c k p item = some l ↔ e.target = .node l.id ∧ linkTo (edgeNode k) p l.id e.edges = .ok l := by
  obtain ⟨id, hid, htarget, hblock⟩ := h
  have hof : linkOf c k p item = (linkTo (edgeNode k) p id e.edges).toOption := by
    rw [linkOf, hid, hblock]
    rfl
  rw [hof, htarget]
  cases hlink : linkTo (edgeNode k) p id e.edges with
  | error f =>
    refine ⟨nofun, fun ⟨hnode, h⟩ => ?_⟩
    cases hnode
    rw [hlink] at h
    cases h
  | ok l' =>
    obtain rfl := linkTo_id hlink
    refine ⟨fun h => ?_, fun ⟨hnode, h⟩ => ?_⟩
    · obtain rfl : l' = l := Option.some.inj h
      exact ⟨rfl, hlink⟩
    · obtain hl : l'.id = l.id := RefId.node.inj hnode
      rw [← hl, hlink] at h
      exact congrArg some (Except.ok.inj h)

/-- A reference that is written without edges stands for a link without edges. -/
theorem linkOf_of_plain {id : NodeId} (hid : c.registry.idOf? item.1 = some id) (hplain : item.2 = []) :
    linkOf c k p item = some ⟨id, none⟩ := by
  rw [linkOf, hid, hplain]
  rfl

/-- A reference to a node with an id waits for nothing. -/
theorem writtenAs_of_refEntry {id : NodeId} (hid : c.registry.idOf? item.1 = some id) {entry : RefEntry × Option PendingId}
    (hentry : refEntry c (encodeEdges c) p item = .ok entry) : entry.2 = none ∧ WrittenAs c p item entry.1 := by
  obtain ⟨wire, block, hwire, -, -, hblock, rfl⟩ := refEntry_eq_ok.1 hentry
  obtain rfl : wire = .id id := Except.ok.inj (hwire.symm.trans (Registry.idOf?_eq_some.1 hid))
  exact ⟨rfl, id, hid, rfl, hblock⟩

theorem writtenAs_of_refEntries (hids : ∀ item ∈ items, ∃ id, c.registry.idOf? item.1 = some id)
    {entries : List (RefEntry × Option PendingId)}
    (hentries : List.Forall₂ (fun item entry => refEntry c (encodeEdges c) p item = .ok entry) items entries) :
    (∀ entry ∈ entries, entry.2 = none) ∧ List.Forall₂ (WrittenAs c p) items (entries.map (·.1)) := by
  induction hentries with
  | nil => exact ⟨nofun, .nil⟩
  | cons hfirst _ ih =>
    obtain ⟨⟨id, hid⟩, hthere⟩ := List.forall_mem_cons.1 hids
    obtain ⟨hnone, hwritten⟩ := writtenAs_of_refEntry hid hfirst
    obtain ⟨hnones, hrest⟩ := ih hthere
    exact ⟨List.forall_mem_cons.2 ⟨hnone, hnones⟩, .cons hwritten hrest⟩

/-- Where each reference to a stored node stands for a link, these links are made. -/
theorem refers_of_writtenAs (h : List.Forall₂ (WrittenAs c p) items es) (hreadable : ∀ e ∈ es, RefEntry.Readable e)
    (hlinked : ∀ item ∈ items, (linkOf c k p item).isSome = true)
    (hstored : ∀ item ∈ items, ∀ id, c.registry.idOf? item.1 = some id →
      ∃ r, p.target = some r ∧ (k.store.node? r.id id).isSome = true) :
    List.Forall₂ (Refers k p) es (items.filterMap (linkOf c k p)) := by
  induction h with
  | nil => exact .nil
  | @cons item e items es hfirst _ ih =>
    obtain ⟨hread, hreads⟩ := List.forall_mem_cons.1 hreadable
    obtain ⟨hlink, hlinks⟩ := List.forall_mem_cons.1 hlinked
    obtain ⟨hhere, hthere⟩ := List.forall_mem_cons.1 hstored
    obtain ⟨l, hl⟩ := Option.isSome_iff_exists.1 hlink
    obtain ⟨htarget, hto⟩ := hfirst.linkOf_eq_some.1 hl
    obtain ⟨id, hid, hnode, -⟩ := hfirst
    obtain rfl : l.id = id := RefId.node.inj (htarget.symm.trans hnode)
    rw [List.filterMap_cons_some hl]
    exact .cons ⟨htarget, hread, hhere _ hid, hto⟩ (ih hreads hlinks hthere)

/-- Where a reference stands for no link, one of the written ones makes none. -/
theorem unlinked_of_writtenAs (h : List.Forall₂ (WrittenAs c p) items es)
    (hnone : ¬∀ item ∈ items, (linkOf c k p item).isSome = true) : ∃ e ∈ es, Unlinked k p e := by
  simp only [not_forall] at hnone
  obtain ⟨item, hitem, hnone⟩ := hnone
  obtain ⟨e, he, hwritten⟩ := exists_of_forall₂_left h hitem
  have ⟨id, _, htarget, _⟩ := hwritten
  refine ⟨e, he, id, htarget, fun l hl => hnone ?_⟩
  obtain rfl := linkTo_id hl
  rw [hwritten.linkOf_eq_some.2 ⟨htarget, hl⟩]
  rfl

theorem linkOf_id (h : linkOf c k p item = some l) : c.registry.idOf? item.1 = some l.id := by
  obtain ⟨id, hid, h⟩ := Option.bind_eq_some_iff.1 h
  obtain ⟨block, -, h⟩ := Option.bind_eq_some_iff.1 h
  cases hlink : linkTo (edgeNode k) p id block with
  | error f =>
    rw [hlink] at h
    cases h
  | ok l' =>
    rw [hlink] at h
    obtain rfl : l' = l := Option.some.inj h
    obtain rfl := linkTo_id hlink
    exact hid

theorem ids_linkOf (hlinked : ∀ item ∈ items, (linkOf c k p item).isSome = true) :
    (items.filterMap (linkOf c k p)).map (·.id) = c.registry.idsOf items := by
  rw [List.map_filterMap]
  refine List.filterMap_congr fun item hitem => ?_
  obtain ⟨l, hl⟩ := Option.isSome_iff_exists.1 (hlinked item hitem)
  rw [hl, linkOf_id hl]
  rfl

/-- Without edges, a reference to a node with an id always stands for a link. -/
theorem forall_linkOf_iff (hids : ∀ item ∈ items, ∃ id, c.registry.idOf? item.1 = some id) :
    (∀ item ∈ items, (linkOf c k p item).isSome = true) ↔
      ∀ item ∈ items, item.2 ≠ [] → (linkOf c k p item).isSome = true := by
  refine ⟨fun h item hitem _ => h item hitem, fun h item hitem => ?_⟩
  by_cases hedges : item.2 = []
  · obtain ⟨id, hid⟩ := hids item hitem
    rw [linkOf_of_plain hid hedges]
    rfl
  · exact h item hitem hedges

section

variable {replace : Option (List RefItem)} {add : List RefItem}

theorem filterMap_linkOf_written : (replace.map (·.filterMap (linkOf c k p))).getD [] ++ add.filterMap (linkOf c k p) =
    (replace.getD [] ++ add).filterMap (linkOf c k p) := by
  rw [List.filterMap_append]
  cases replace <;> rfl

theorem ids_linkOf_replaced (hlinked : ∀ item ∈ replace.getD [], (linkOf c k p item).isSome = true) :
    (replace.map (·.filterMap (linkOf c k p))).map (·.map (·.id)) = replace.map c.registry.idsOf := by
  cases replace with
  | none => rfl
  | some items => exact congrArg some (ids_linkOf hlinked)

/-- A link that stays stores what it stored, if no reference brings something else. -/
theorem edges_of_stays (hlinked : ∀ item ∈ replace.getD [], (linkOf c k p item).isSome = true) {old : List (Link EdgeNode)}
    (hnodup : (old.map (·.id)).Nodup) {remove : List NodeId} {l₀ : Link EdgeNode} (hl : l ∈ Node.updatedLinks
      (replace.map (·.filterMap (linkOf c k p))) (add.filterMap (linkOf c k p)) remove old) (hl₀ : l₀ ∈ old)
    (hid : l₀.id = l.id) (hstays : ∀ items, replace = some items → l.id ∈ c.registry.idsOf items)
    (hplain : ∀ item ∈ replace.getD [] ++ add, c.registry.idOf? item.1 = some l.id → item.2 = []) : l.edges = l₀.edges := by
  refine Node.edges_updatedLinks_of_mem hnodup hl hl₀ hid (fun ls hls => ?_) fun l' hl' hid' => ?_
  · have hids := ids_linkOf_replaced hlinked
    rw [hls] at hids
    obtain ⟨items, hitems, hls'⟩ := Option.map_eq_some_iff.1 hids.symm
    rw [show ls.map (·.id) = c.registry.idsOf items from hls'.symm]
    exact hstays items hitems
  · rw [filterMap_linkOf_written] at hl'
    obtain ⟨item, hitem, hlink⟩ := List.mem_filterMap.1 hl'
    have hid'' := linkOf_id hlink
    have hnothing := linkOf_of_plain (p := p) (k := k) hid'' (hplain item hitem (hid' ▸ hid''))
    exact congrArg Link.edges (Option.some.inj (hlink.symm.trans hnothing))

end

/-- Nothing is noted of references that wait for nothing. -/
theorem placeholdersOf_of_known (prop : String) (many : Bool) {waits : List (RefItem × Option PendingId)}
    (h : ∀ w ∈ waits, w.2 = none) (ps : List Nat) : placeholdersOf prop many waits ps = [] := by
  induction waits generalizing ps with
  | nil => cases ps <;> rfl
  | cons w waits ih =>
    obtain ⟨item, waits'⟩ := w
    obtain rfl : waits' = none := h _ List.mem_cons_self
    cases ps with
    | nil => rfl
    | cons pos ps => exact ih (fun w hw => h w (List.mem_cons_of_mem _ hw)) ps

theorem removedRefs_known {remove : List NodeRef} (hids : ∀ target ∈ remove, ∃ id, c.registry.idOf? target = some id)
    (v : Value) : remove.mapM (removedRef c p v) = .ok ((remove.filterMap c.registry.idOf?).map plainEntry) := by
  induction remove with
  | nil => rfl
  | cons target remove ih =>
    obtain ⟨⟨id, hid⟩, hrest⟩ := List.forall_mem_cons.1 hids
    have hfirst : removedRef c p v target = .ok (plainEntry id) := by
      unfold removedRef
      rw [Registry.idOf?_eq_some.1 hid]
      rfl
    rw [List.mapM_cons, hfirst, ih hrest, List.filterMap_cons_some hid]
    rfl

/-- References to nodes with ids are written by one instruction, and none of them is noted. -/
theorem writeRefs_known {make : List RefEntry → Instr} {d d' : Draft}
    (hids : ∀ item ∈ items, ∃ id, c.registry.idOf? item.1 = some id)
    (hwrite : writeRefs c (encodeEdges c) p make items d = .ok () d') :
    ∃ es start, fieldInstr p (make es) d = .ok start d' ∧ List.Forall₂ (WrittenAs c p) items es := by
  unfold writeRefs at hwrite
  obtain ⟨entries, d₀, hlift, hrest⟩ := EStateM.bind_eq_ok.1 hwrite
  obtain ⟨hentries, rfl⟩ := liftExcept_eq_ok.1 hlift
  obtain ⟨hnone, hwritten⟩ := writtenAs_of_refEntries hids (mapM_forall₂ hentries)
  unfold refInstr at hrest
  obtain ⟨start, d₁, hf, hnote⟩ := EStateM.bind_eq_ok.1 hrest
  cases note_eq_ok.1 hnote
  refine ⟨_, start, hf.trans ?_, hwritten⟩
  rw [placeholdersOf_of_known, List.append_nil]
  intro w hw
  obtain ⟨e, he, hwaits⟩ := List.mem_map.1 (List.of_mem_zip hw).2
  rw [← hwaits]
  exact hnone e he

end

/-- An instruction for a field stands behind what selects the field. -/
theorem appends_fieldInstr {E : Type} {p : PropDef E} {i : Instr} {d d' : Draft} {start : Nat}
    (h : fieldInstr p i d = .ok start d') :
    ∃ is, d'.encoder.buffer.bytes = d.encoder.buffer.bytes ++ encodeAll (is ++ [i]) := by
  have hd : ∃ type node, d.encoder.cursor.node? = some (type, node) := by
    obtain ⟨⟨type, node⟩, _, hactive, -⟩ := EStateM.bind_eq_ok.1 h
    exact ⟨type, node, (activeNode_eq_ok.1 hactive).1⟩
  obtain ⟨type, node, hd⟩ := hd
  obtain ⟨slot, -, -, -, rfl⟩ := (fieldInstr_eq_ok hd).1 h
  exact ⟨_, rfl⟩

/-! ### Unsent writes to a selected node -/

namespace Session

variable {s : Session} {m : Memory} {t u : TypeLayout} {p q : PropDef EdgeLayout} {id : NodeId} {k : Known} {i : Instr}

/-- Further instructions do not help. -/
theorem Fails.append (h : s.Fails m) (is : List Instr) {enc : Encoder}
    (henc : enc.buffer.bytes = s.encoder.buffer.bytes ++ encodeAll is) (registry : Registry) :
    Fails { s with encoder := enc, registry } m := by
  obtain ⟨m₁, is₁, i, js, r, hh⟩ := h
  refine ⟨m₁, is₁, i, js ++ is, r, hh.sent, hh.schema, hh.ready, ?_, hh.runs, hh.rejects⟩
  rw [henc, hh.bytes, ← encodeAll_append, List.append_assoc, List.cons_append]

/-- The unsent writes of a session lead a memory to a run that knows `k` and has a node selected, as the cursor has. -/
structure RunsTo (s : Session) (m : Memory) (t : TypeLayout) (id : NodeId) (k : Known) (m₁ : Memory) (is : List Instr)
    (r : Run) : Prop extends s.Delivers m m₁ is r where
  known : r.known = k
  type : r.type = some t
  node : r.node = some id
  cursor : s.encoder.cursor.node? = some (t.id, .id id)

/-- The unsent writes of a session lead a memory to a node that is selected, where `k` may be named. -/
def BringsTo (s : Session) (m : Memory) (t : TypeLayout) (id : NodeId) (k : Known) : Prop :=
  ∃ m₁ is r, s.RunsTo m t id k m₁ is r

theorem BringsTo.brings (h : s.BringsTo m t id k) : s.Brings m k.store := by
  obtain ⟨m₁, is, r, h⟩ := h
  exact ⟨m₁, is, r, h.toDelivers, congrArg Known.store h.known⟩

/-- Going to a stored node. -/
theorem bringsTo_of_selectNode {m₁ : Memory} {is : List Instr} {r : Run} (hd : s.Delivers m m₁ is r)
    (ht : s.schema.typeById? t.id = some t) (hn : (r.store.node? t.id id).isSome = true) {hs : List Placeholder} {d : Draft}
    (hselect : selectNode t.id (.id id) ⟨s.encoder, hs⟩ = .ok () d) :
    BringsTo { s with encoder := d.encoder } m t id r.known ∧ d.placeholders = hs := by
  obtain ⟨n, hn⟩ := Option.isSome_iff_exists.1 hn
  rw [selectNode_eq (by nofun)] at hselect
  obtain ⟨start, d₁, hemit, hmove⟩ := EStateM.bind_eq_ok.1 hselect
  obtain ⟨-, -, rfl⟩ := emit_eq_ok.1 hemit
  cases moveTo_eq_ok.1 hmove
  obtain ⟨r', hruns, hon, hknown, hfollows⟩ := executes_cursor_selectNode ht hd.follows hn
  refine ⟨⟨m₁, is ++ s.encoder.cursor.selectNode t.id (.id id), r',
    { hd with bytes := ?_, runs := hd.runs.append hruns, follows := hfollows, known := hknown, type := hon.type,
              node := hon.node, cursor := Cursor.node?_on .. }⟩, rfl⟩
  simp [Draft.append, hd.bytes]

/-- An instruction for a field of the selected node stands where the field is selected. -/
theorem BringsTo.selectField (h : s.BringsTo m t id k) (hp : s.schema.Placed) (hsource : t ∈ s.schema.types)
    (hprop : p ∈ t.props) (hn : (k.store.node? t.id id).isSome = true) {hs : List Placeholder} {start : Nat} {d : Draft}
    (hwrite : fieldInstr p i ⟨s.encoder, hs⟩ = .ok start d) :
    d.placeholders = hs ∧ i.encode.length ≤ d.encoder.buffer.length ∧
      ∃ enc m₁ is r, RunsTo { s with encoder := enc } m t id k m₁ is r ∧ r.field = some p ∧
        d.encoder.cursor = enc.cursor ∧ d.encoder.buffer.bytes = encodeAll (is ++ [i]) := by
  obtain ⟨m₁, is, r, h⟩ := h
  obtain ⟨slot, hslot, -, -, rfl⟩ := (fieldInstr_eq_ok h.cursor).1 hwrite
  obtain ⟨n, hn⟩ := Option.isSome_iff_exists.1 hn
  have hstore : r.store = k.store := congrArg Known.store h.known
  have hon : r.On t id n := ⟨h.type, h.node, by rw [hstore, hn]⟩
  have hfound : t.propBySlot? slot = some p := (hp.types t hsource).propBySlot? hprop hslot
  have hselect : ExecutesAll s.schema (s.encoder.cursor.selectField slot p.type.tag) r { r with field := some p } := by
    unfold Cursor.selectField
    split
    · -- The cursor is on the field, and so is the run.
      rename_i hat
      have hfield : r.field = some p := by
        have hfollows := h.follows
        cases hc : s.encoder.cursor with
        | idle | main => rw [hc] at hat; cases hat
        | separate type node slot' =>
          rw [hc] at hat hfollows
          obtain rfl : slot' = slot := Option.some.inj hat
          obtain ⟨t', id', p', -, ht', -, -, hp', hfield⟩ := hfollows
          obtain rfl : t = t' := Option.some.inj (h.type.symm.trans ht')
          exact hfield.trans (hp'.symm.trans hfound)
      rw [← hfield]
      exact .nil r
    · exact .single (executes_selectField hon hfound)
  have hbytes : (Draft.append ⟨s.encoder, hs⟩ (s.encoder.cursor.selectField slot p.type.tag ++ [i])).encoder.buffer.bytes =
      encodeAll (is ++ s.encoder.cursor.selectField slot p.type.tag ++ [i]) := by
    simp [Draft.append, h.bytes]
  refine ⟨rfl, ?_, ⟨⟨encodeAll (is ++ s.encoder.cursor.selectField slot p.type.tag), s.encoder.buffer.max⟩,
    .separate t.id (.id id) slot⟩, m₁, is ++ s.encoder.cursor.selectField slot p.type.tag, { r with field := some p },
    { h with bytes := rfl, runs := h.runs.append hselect, follows := ?_, cursor := rfl }, rfl, rfl, hbytes⟩
  · refine le_of_le_of_eq ?_ (congrArg List.length hbytes).symm
    rw [encodeAll_append, List.length_append, encodeAll_cons, encodeAll_nil, List.append_nil]
    exact Nat.le_add_left _ _
  · exact ⟨t, id, p, hp.ids t hsource, h.type, h.node, rfl, hfound, rfl⟩

section

variable {d : Draft} {enc : Encoder} {m₁ : Memory} {is : List Instr} {r : Run}
  (h : RunsTo { s with encoder := enc } m t id k m₁ is r) (hcursor : d.encoder.cursor = enc.cursor)
  (hbytes : d.encoder.buffer.bytes = encodeAll (is ++ [i]))

include h hbytes

/-- An instruction that is refused where it stands. -/
theorem RunsTo.fails (hi : Rejects s.schema i r) : Fails { s with encoder := d.encoder } m :=
  ⟨m₁, is, i, [], r, h.sent, h.schema, h.ready, hbytes, h.runs, hi⟩

include hcursor

/-- An instruction that changes nothing but the store. -/
theorem RunsTo.step {store : Store} (hi : Executes s.schema i r { r with store }) :
    BringsTo { s with encoder := d.encoder } m t id { k with store } := by
  have hfollows : Run.Follows s.schema { r with store } d.encoder.cursor := by
    rw [hcursor]
    exact h.follows.withStore store
  have hknown : Run.known { r with store } = { k with store } := by
    rw [← h.known]
    rfl
  refine ⟨m₁, is ++ [i], { r with store }, { h with
    bytes := hbytes, runs := h.runs.append (.single hi), follows := hfollows, known := hknown, cursor := ?_ }⟩
  exact (congrArg Cursor.node? hcursor).trans h.cursor

end

/-! ### Actions on a collection -/

/-- An action writes what changes a collection of the selected node as `f` does, wherever the nodes of `known` exist, if
all its references stand for links, and else what is refused. -/
structure Acts (schema : SchemaLayout) (t : TypeLayout) (p : PropDef EdgeLayout) (u : TypeLayout) (q : PropDef EdgeLayout)
    (id : NodeId) (known : Known) (linked : Prop) (joined : List NodeId) (f : List (Link EdgeNode) → List (Link EdgeNode))
    (x : EncodeM Unit) : Prop where
  appends : ∀ d d', x d = .ok () d' → ∃ is, d'.encoder.buffer.bytes = d.encoder.buffer.bytes ++ encodeAll is
  collects : linked → ∀ (s : Session) (m : Memory) (k : Known) hs d, s.schema = schema → s.BringsTo m t id k →
    known.Alike k → k.store.Sound schema → x ⟨s.encoder, hs⟩ = .ok () d → d.encoder.buffer.length < 2 ^ 32 →
    ∃ store, Collects schema t p u q id joined f k.store store ∧
      BringsTo { s with encoder := d.encoder } m t id { k with store } ∧ d.placeholders = hs
  fails : ¬linked → ∀ (s : Session) (m : Memory) (k : Known) hs d, s.schema = schema → s.BringsTo m t id k →
    known.Alike k → k.store.Sound schema → x ⟨s.encoder, hs⟩ = .ok () d → d.encoder.buffer.length < 2 ^ 32 →
    Fails { s with encoder := d.encoder } m

namespace Acts

variable {schema : SchemaLayout} {known : Known} {linked linked' : Prop} {joined joined' : List NodeId}
  {f g : List (Link EdgeNode) → List (Link EdgeNode)} {x y : EncodeM Unit}

theorem congr (h : Acts schema t p u q id known linked joined f x) (hlinked : linked ↔ linked') (hjoined : joined = joined')
    (hf : ∀ old, f old = g old) : Acts schema t p u q id known linked' joined' g x := by
  obtain rfl : f = g := funext hf
  obtain rfl : linked = linked' := propext hlinked
  exact hjoined ▸ h

theorem nothing (hf : ∀ old, f old = old) : Acts schema t p u q id known True [] f (pure ()) where
  appends d d' h := by
    cases h
    exact ⟨[], (List.append_nil _).symm⟩
  collects _ s m k hs d _ hbrings _ hsound h _ := by
    cases h
    exact ⟨k.store, (Collects.refl hsound).congr (hf _).symm, hbrings, rfl⟩
  fails h := absurd trivial h

theorem length_le (hx : Acts schema t p u q id known linked joined f x) {d d' : Draft} (h : x d = .ok () d') :
    d.encoder.buffer.length ≤ d'.encoder.buffer.length := by
  obtain ⟨is, hbytes⟩ := hx.appends d d' h
  rw [Buffer.length, Buffer.length, hbytes, List.length_append]
  exact Nat.le_add_right _ _

theorem bind (hx : Acts schema t p u q id known linked joined f x)
    (hy : Acts schema t p u q id known linked' joined' g y) :
    Acts schema t p u q id known (linked ∧ linked') (joined ++ joined') (fun old => g (f old)) (x >>= fun _ => y) where
  appends d d' h := by
    obtain ⟨_, d₁, hfirst, hrest⟩ := EStateM.bind_eq_ok.1 h
    obtain ⟨is, his⟩ := hx.appends _ _ hfirst
    obtain ⟨js, hjs⟩ := hy.appends _ _ hrest
    exact ⟨is ++ js, by rw [hjs, his, encodeAll_append, List.append_assoc]⟩
  collects hlinked s m k hs d hschema hbrings hknown hsound h hsize := by
    obtain ⟨_, d₁, hfirst, hrest⟩ := EStateM.bind_eq_ok.1 h
    obtain ⟨store₁, hcollects, hbrings₁, rfl⟩ := hx.collects hlinked.1 s m k hs d₁ hschema hbrings hknown hsound hfirst
      (Nat.lt_of_le_of_lt (hy.length_le hrest) hsize)
    have hknown₁ : known.Alike { k with store := store₁ } := ⟨hknown.nodes.trans hcollects.nodes, hknown.created⟩
    obtain ⟨store, hcollects', hbrings', hnoted⟩ := hy.collects hlinked.2 { s with encoder := d₁.encoder } m _ d₁.placeholders
      d hschema hbrings₁ hknown₁ hcollects.sound hrest hsize
    exact ⟨store, hcollects.trans hcollects', hbrings', hnoted⟩
  fails hlinked s m k hs d hschema hbrings hknown hsound h hsize := by
    obtain ⟨_, d₁, hfirst, hrest⟩ := EStateM.bind_eq_ok.1 h
    have hsize₁ := Nat.lt_of_le_of_lt (hy.length_le hrest) hsize
    by_cases hl : linked
    · -- The first part leads on, and the second one is refused.
      obtain ⟨store₁, hcollects, hbrings₁, rfl⟩ := hx.collects hl s m k hs d₁ hschema hbrings hknown hsound hfirst hsize₁
      exact hy.fails (fun hl' => hlinked ⟨hl, hl'⟩) { s with encoder := d₁.encoder } m _ d₁.placeholders d hschema hbrings₁
        ⟨hknown.nodes.trans hcollects.nodes, hknown.created⟩ hcollects.sound hrest hsize
    · have hfails := hx.fails hl s m k hs d₁ hschema hbrings hknown hsound hfirst hsize₁
      obtain ⟨is, his⟩ := hy.appends _ _ hrest
      exact hfails.append _ his s.registry

/-- An action that writes one instruction for the collection. -/
theorem instr (hp : schema.Placed) (hopp : Opposite schema t p u q) (hn : (known.store.node? t.id id).isSome = true)
    (hx : ∀ d d', x d = .ok () d' → ∃ i start, fieldInstr p i d = .ok start d' ∧ (i.encode.length < 2 ^ 32 →
      (linked → ∀ k, known.Alike k → k.store.Sound schema → Changes schema t p u q id k joined f i) ∧
      (¬linked → ∀ r : Run, known.Alike r.known → r.field = some p → Rejects schema i r))) :
    Acts schema t p u q id known linked joined f x where
  appends d d' h := by
    obtain ⟨i, start, hwrite, -⟩ := hx d d' h
    obtain ⟨is, his⟩ := appends_fieldInstr hwrite
    exact ⟨_, his⟩
  collects hlinked s m k hs d hschema hbrings hknown hsound h hsize := by
    subst hschema
    obtain ⟨i, start, hwrite, hi⟩ := hx _ d h
    obtain ⟨rfl, hlen, enc, m₁, is, r, hruns, hfield, hcursor, hbytes⟩ := hbrings.selectField hp hopp.source hopp.prop
      ((hknown.nodes _ _).trans hn) hwrite
    obtain ⟨store, hcollects, hexecutes⟩ := (hi (Nat.lt_of_le_of_lt hlen hsize)).1 hlinked k hknown hsound
    obtain ⟨n, hn⟩ := Option.isSome_iff_exists.1 ((hknown.nodes _ _).trans hn)
    have hon : r.On t id n := ⟨hruns.type, hruns.node, by rw [← hn, ← hruns.known]; rfl⟩
    exact ⟨store, hcollects, hruns.step hcursor hbytes (hexecutes r n hon hfield hruns.known), rfl⟩
  fails hlinked s m k hs d hschema hbrings hknown hsound h hsize := by
    subst hschema
    obtain ⟨i, start, hwrite, hi⟩ := hx _ d h
    obtain ⟨rfl, hlen, enc, m₁, is, r, hruns, hfield, hcursor, hbytes⟩ := hbrings.selectField hp hopp.source hopp.prop
      ((hknown.nodes _ _).trans hn) hwrite
    exact hruns.fails hbytes ((hi (Nat.lt_of_le_of_lt hlen hsize)).2 hlinked r (hruns.known ▸ hknown) hfield)

end Acts

section

variable {c : Context} {schema : SchemaLayout} (hp : schema.Placed) (hopp : Opposite schema t p u q)
  (hmany : p.type = .references) (hn : (k.store.node? t.id id).isSome = true)

include hp hopp hn

/-- References to stored nodes are written as one instruction. -/
theorem writeRefs_acts {items : List RefItem}
    (hitems : ∀ item ∈ items, ∃ k', c.registry.idOf? item.1 = some k' ∧ (k.store.node? u.id k').isSome = true)
    {make : List RefEntry → Instr} {f : List (Link EdgeNode) → List (Link EdgeNode) → List (Link EdgeNode)}
    (hmake : ∀ es, make es = .setRefs es ∨ make es = .addRefs es)
    (hchanges : ∀ k es ls, k.store.Sound schema → (k.store.node? t.id id).isSome = true → es.length < 2 ^ 32 →
      List.Forall₂ (Refers k p) es ls → Changes schema t p u q id k (ls.map (·.id)) (f ls) (make es)) :
    Acts schema t p u q id k (∀ item ∈ items, (linkOf c k p item).isSome = true) (c.registry.idsOf items)
      (f (items.filterMap (linkOf c k p))) (writeRefs c (encodeEdges c) p make items) := by
  refine .instr hp hopp hn fun d d' h => ?_
  obtain ⟨es, start, hwrite, hwritten⟩ := writeRefs_known (fun item hitem => (hitems item hitem).imp fun _ h => h.1) h
  refine ⟨_, start, hwrite, fun hlen => ?_⟩
  obtain ⟨hcount, hreadable⟩ : es.length < 2 ^ 32 ∧ ∀ e ∈ es, RefEntry.Readable e := by
    rcases hmake es with h | h <;> rw [h] at hlen
    · exact Instr.ForField.readable (.setRefs es) hlen
    · exact Instr.ForField.readable (.addRefs es) hlen
  refine ⟨fun hlinked k' hknown hsound => ?_, fun hlinked r hknown hfield => ?_⟩
  · obtain ⟨target, _, htarget, hid, -⟩ := inverseOf_spec hopp.inverse
    have hrefers := refers_of_writtenAs hwritten hreadable hlinked fun item hitem k'' hk'' => by
      obtain ⟨k₀, hk₀, hstored⟩ := hitems item hitem
      obtain rfl : k₀ = k'' := Option.some.inj (hk₀.symm.trans hk'')
      exact ⟨target, htarget, hid ▸ hstored⟩
    rw [← ids_linkOf hlinked]
    exact hchanges k' es _ hsound ((hknown.nodes _ _).trans hn) hcount (hrefers.imp fun _ _ h => h.congr hknown)
  · rw [← linkOf_congr hknown] at hlinked
    have hunlinked := unlinked_of_writtenAs hwritten hlinked
    rcases hmake es with h | h <;> rw [h]
    · exact rejects_setRefs hfield hcount hreadable hunlinked
    · exact rejects_addRefs hfield hcount hreadable hunlinked

include hmany

theorem writeReplaced_acts {replace : Option (List RefItem)}
    (hitems : ∀ item ∈ replace.getD [], ∃ k', c.registry.idOf? item.1 = some k' ∧ (k.store.node? u.id k').isSome = true) :
    Acts schema t p u q id k (∀ item ∈ replace.getD [], (linkOf c k p item).isSome = true)
      (c.registry.idsOf (replace.getD []))
      (fun old => Node.joinAll ((replace.map (·.filterMap (linkOf c k p))).getD [])
        (Node.kept (replace.map (·.filterMap (linkOf c k p))) old))
      (writeReplaced c (encodeEdges c) p replace) := by
  cases replace with
  | none => exact (Acts.nothing fun old => rfl).congr (by simp) rfl fun old => rfl
  | some items =>
    exact writeRefs_acts hp hopp hn hitems (f := fun ls old => Node.joinAll ls (Node.kept (some ls) old)) (fun _ => .inl rfl)
      fun k es ls hsound hn hlen hrefers => setRefs_changes hp hsound hopp hmany hn hlen hrefers

theorem writeAdded_acts {add : List RefItem}
    (hitems : ∀ item ∈ add, ∃ k', c.registry.idOf? item.1 = some k' ∧ (k.store.node? u.id k').isSome = true) :
    Acts schema t p u q id k (∀ item ∈ add, (linkOf c k p item).isSome = true) (c.registry.idsOf add)
      (Node.joinAll (add.filterMap (linkOf c k p))) (writeAdded c (encodeEdges c) p add) := by
  unfold writeAdded
  cases add with
  | nil => exact (Acts.nothing fun old => rfl).congr (by simp) rfl fun old => rfl
  | cons item add =>
    exact writeRefs_acts hp hopp hn hitems (f := Node.joinAll) (fun _ => .inr rfl)
      fun k es ls hsound hn hlen hrefers => addRefs_changes hp hsound hopp hmany hn hlen hrefers

theorem writeRemoved_acts {remove : List NodeRef}
    (hremove : ∀ target ∈ remove, ∃ k', c.registry.idOf? target = some k' ∧ (k.store.node? u.id k').isSome = true)
    (v : Value) :
    Acts schema t p u q id k True [] (·.filter fun l => decide (l.id ∉ remove.filterMap c.registry.idOf?))
      (writeRemoved c p v remove) := by
  have hentries := removedRefs_known (p := p) (fun target htarget => (hremove target htarget).imp fun _ h => h.1) v
  have hstored : ∀ k' ∈ remove.filterMap c.registry.idOf?, (k.store.node? u.id k').isSome = true := by
    intro k' hk'
    obtain ⟨target, htarget, hid⟩ := List.mem_filterMap.1 hk'
    obtain ⟨k'', hid', hsome⟩ := hremove target htarget
    exact Option.some.inj (hid.symm.trans hid') ▸ hsome
  unfold writeRemoved
  by_cases hempty : remove = []
  · subst hempty
    exact .nothing fun old => by simp
  · rw [if_pos (by simpa using hempty)]
    refine .instr hp hopp hn fun d d' h => ?_
    obtain ⟨entries, d₀, hlift, hrest⟩ := EStateM.bind_eq_ok.1 h
    obtain ⟨hentries', rfl⟩ := liftExcept_eq_ok.1 hlift
    obtain rfl := Except.ok.inj (hentries.symm.trans hentries')
    obtain ⟨start, d₁, hwrite, hpure⟩ := EStateM.bind_eq_ok.1 hrest
    cases hpure
    refine ⟨_, start, hwrite, fun hlen => ⟨fun _ k' hknown hsound => ?_, fun h => absurd trivial h⟩⟩
    obtain ⟨hcount, -⟩ := Instr.ForField.readable (.removeRefs fun e he => by
      obtain ⟨_, -, rfl⟩ := List.mem_map.1 he
      rfl) hlen
    exact removeRefs_changes hp hsound hopp hmany ((hknown.nodes _ _).trans hn) (by simpa using hcount)
      fun k'' hk'' => (hknown.nodes _ _).trans (hstored k'' hk'')

/-- The three parts of an update change the collection one after the other. -/
theorem writeUpdate_acts {replace : Option (List RefItem)} {add : List RefItem} {remove : List NodeRef}
    (hitems : ∀ item ∈ replace.getD [] ++ add,
      ∃ k', c.registry.idOf? item.1 = some k' ∧ (k.store.node? u.id k').isSome = true)
    (hremove : ∀ target ∈ remove, ∃ k', c.registry.idOf? target = some k' ∧ (k.store.node? u.id k').isSome = true)
    (i : Nat) :
    Acts schema t p u q id k (∀ item ∈ replace.getD [] ++ add, (linkOf c k p item).isSome = true)
      (c.registry.idsOf (replace.getD [] ++ add))
      (Node.updatedLinks (replace.map (·.filterMap (linkOf c k p))) (add.filterMap (linkOf c k p))
        (remove.filterMap c.registry.idOf?))
      (writeUpdate c t [⟨i, p, .refs replace add remove⟩]) := by
  have hoffset := PropDef.offset?_of_slot? (hopp.slot hp)
  have hwrite : writeUpdate c t [⟨i, p, .refs replace add remove⟩] = (do
      writeReplaced c (encodeEdges c) p replace
      (do writeAdded c (encodeEdges c) p add; writeRemoved c p (.refs replace add remove) remove) : EncodeM Unit) := by
    simp [writeUpdate, writeUpdateWith, writeChange, hoffset, writeSeparate, hmany]
  rw [hwrite]
  rw [List.forall_mem_append] at hitems
  refine ((writeReplaced_acts hp hopp hmany hn hitems.1).bind ((writeAdded_acts hp hopp hmany hn hitems.2).bind
    (writeRemoved_acts hp hopp hmany hn hremove _))).congr ?_ ?_ fun old => rfl
  · rw [List.forall_mem_append, and_true]
  · rw [Registry.idsOf_append, List.append_nil]

end

/-! ### Calls -/

section

variable {decl : SchemaDecl} {priority : Priority} {schema : SchemaLayout} {options : Options} {s' : Session}

/-- A session with nothing to send leaves a memory where it is. -/
theorem Reached.delivers (hschema : decl.compile priority = .ok schema) (h : Reached schema options s) (hout : s.outbox = [])
    (hempty : s.bufferedLength = 0) (hm : m.schema = s.schema) (hready : m.failNext = none) :
    s.Delivers m m [] (.start m.store []) := by
  have hbytes : s.encoder.buffer.bytes = [] := List.length_eq_zero_iff.1 hempty
  refine ⟨by rw [hout]; rfl, hm, hready, hbytes, .nil _, ?_⟩
  rw [h.cursor_of_empty hschema hbytes]
  trivial

/-- An update of a collection with references to stored nodes leads to the updated links, or the memory rejects its batch. -/
theorem update_collects (hschema : decl.compile priority = .ok schema) (hs : Reached schema options s) (hout : s.outbox = [])
    (hempty : s.bufferedLength = 0) (hm : m.schema = schema) (hsound : m.store.Sound schema) (hready : m.failNext = none)
    {type : String} (ht : schema.typeByName? type = some t) (hopp : Opposite schema t p u q) (hmany : p.type = .references)
    {target : NodeRef} (hid : s.registry.idOf? target = some id) (hn : (m.store.node? t.id id).isSome = true)
    {replace : Option (List RefItem)} {add : List RefItem} {remove : List NodeRef}
    (hitems : ∀ item ∈ replace.getD [] ++ add, ∃ k, s.registry.idOf? item.1 = some k ∧ (m.store.node? u.id k).isSome = true)
    (hremove : ∀ target ∈ remove, ∃ k, s.registry.idOf? target = some k ∧ (m.store.node? u.id k).isSome = true)
    (hupdate : update type target [(p.name, .refs replace add remove)] s = .ok () s') (hsize : s'.bufferedLength < 2 ^ 32) :
    let link := linkOf s.context ⟨m.store, []⟩ p
    ((∀ item ∈ replace.getD [] ++ add, (link item).isSome = true) →
      ∃ m', Memory.applyAll (s'.drain.1.map (·.bytes)) m = .ok m' ∧
        Collects schema t p u q id (s.registry.idsOf (replace.getD [] ++ add))
          (Node.updatedLinks (replace.map (·.filterMap link)) (add.filterMap link) (remove.filterMap s.registry.idOf?))
          m.store m'.store) ∧
    ((¬∀ item ∈ replace.getD [] ++ add, (link item).isSome = true) →
      ∀ m', Memory.applyAll (s'.drain.1.map (·.bytes)) m ≠ .ok m') := by
  intro link
  obtain ⟨l, hl⟩ := hs.logged hschema
  obtain ⟨hc, rfl, -, -⟩ := hl.compiled hschema
  have hp := hc.placed
  obtain ⟨t₁, t₂, fields, s₀, enc, hnoted, waits, ht₁, ht₂, hfields, hopened, hwrite, rfl⟩ := update_eq_ok hupdate
  obtain rfl : t = t₁ := Option.some.inj (ht.symm.trans ht₁)
  obtain rfl : t = t₂ := Option.some.inj ((hp.ids t hopp.source).symm.trans ht₂)
  -- The buffer is empty, so it is not closed for the call.
  obtain rfl : s₀ = s := by
    rcases hopened with h | ⟨hbuffer, -⟩
    · exact h
    · rw [isEmpty_iff.2 (List.length_eq_zero_iff.1 hempty)] at hbuffer
      cases hbuffer
  obtain ⟨i, hi⟩ := List.getElem?_of_mem hopp.prop
  obtain rfl : fields = [⟨i, p, .refs replace add remove⟩] := by
    rw [collectFields_named (hc.addressed t hopp.source) hi] at hfields
    cases hcheck : checkField s₀.lenient (⟨i, p, .refs replace add remove⟩ : Field EdgeLayout) with
    | error e => rw [hcheck] at hfields; cases hfields
    | ok _ => rw [hcheck] at hfields; exact (Except.ok.inj hfields).symm
  rw [writeTo_of_node (Registry.idOf?_eq_some.1 hid) rfl] at hwrite
  obtain ⟨_, d₁, hselect, hwrite⟩ := EStateM.bind_eq_ok.1 hwrite
  obtain ⟨_, d₂, hfields, hreturn⟩ := EStateM.bind_eq_ok.1 hwrite
  cases hreturn
  obtain ⟨hbrings, hplaceholders⟩ := bringsTo_of_selectNode (Reached.delivers hschema hs hout hempty hm hready)
    (hp.ids t hopp.source) hn hselect
  have hacts := writeUpdate_acts (c := s₀.context) hp hopp hmany (k := ⟨m.store, []⟩) hn hitems hremove i
  refine ⟨fun hlinked => ?_, fun hlinked m' => ?_⟩
  · obtain ⟨store, hcollects, hbrings', hnone⟩ := hacts.collects hlinked { s₀ with encoder := d₁.encoder } m _ d₁.placeholders
      _ rfl hbrings ⟨.refl _, rfl⟩ hsound hfields hsize
    obtain rfl : hnoted = [] := hnone.trans hplaceholders
    obtain ⟨m', happly, rfl⟩ := hbrings'.brings.drain
    exact ⟨m', happly, hcollects⟩
  · have hfails := hacts.fails hlinked { s₀ with encoder := d₁.encoder } m _ d₁.placeholders _ rfl hbrings ⟨.refl _, rfl⟩
      hsound hfields hsize
    exact (hfails.append [] (List.append_nil _).symm _).drain m'

/-- The links of a collection of a node that exists lead to different nodes. -/
theorem nodup_linksOf {store : Store} (hp : schema.Placed) (hs : store.Fits schema) (ht : t ∈ schema.types) (id : NodeId)
    (slot : UInt8) : ((store.linksOf t.id id slot).map (·.id)).Nodup := by
  rw [Store.linksOf]
  cases hn : store.node? t.id id with
  | none => exact List.nodup_nil
  | some n => exact (hs.node hp ht hn).nodup_links slot

end

end Session

end Write

end NodeStore
