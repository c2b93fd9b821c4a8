import NodeStore.Proofs.Engine.Relinks

/-!
# Main blocks keep their size

Whatever batches a memory has been given, and however its relations are paired, each stored node has a main block of the
length that its type asks for, and an id that was given out: the first one is 1, and none is given out behind the last. The
nodes of a type stand in the order of their ids.

* `Store.Sized`, `Store.Regular`: the invariant, over everything that the tables hold.
* `Store.Regular.change`: a node changes in anything but the length of its main block; `Regular.relinks`: relations change.
* `runInstr_regular`: one instruction keeps it; `reached_regular`: so does every batch.
-/

namespace NodeStore.Engine

variable {schema : SchemaLayout}

/-- The nodes of the schema's types have main blocks as long as their types ask for. -/
def Store.Sized (schema : SchemaLayout) (s : Store) : Prop :=
  ∀ type t, schema.typeById? type = some t → ∀ e ∈ (s.table type).nodes, e.2.main.length = t.mainLen

/-- Moreover the nodes of a type stand in the order of their ids, and none has the id that is never given out. -/
structure Store.Regular (schema : SchemaLayout) (s : Store) : Prop where
  sized : s.Sized schema
  named : ∀ type, ∀ e ∈ (s.table type).nodes, e.1 ≠ 0
  sorted : ∀ type, Assoc.Sorted (s.table type).nodes

/-! ### Stores -/

namespace Node

variable {E L : Type}

@[simp] theorem main_removeLink (n : Node E) (slot : UInt8) (target : NodeId) : (n.removeLink slot target).main = n.main := by
  unfold removeLink
  split
  · split <;> rfl
  · split <;> rfl
  · rfl

@[simp] theorem main_putLink (n : Node E) (p : PropDef L) (slot : UInt8) (l : Link E) : (n.putLink p slot l).main = n.main := by
  unfold putLink
  split
  · split <;> rfl
  · split <;> rfl

theorem main_writePayload {n m : Node E} {p : PropDef L} {slot : UInt8} {payload : Bytes}
    (h : n.writePayload p slot payload = .ok m) : m.main = n.main := by
  obtain ⟨c, -, h⟩ := Except.bind_eq_ok.1 h
  cases h
  rfl

@[simp] theorem length_main_dropText (n : Node E) (slot locale : UInt8) : (n.dropText slot locale).main.length = n.main.length := by
  unfold dropText
  split
  · split <;> rfl
  · rfl

end Node

namespace Store

variable {s s' : Store} {type : TypeId} {id : NodeId} {n m : StoredNode} {p : PropDef EdgeLayout}

theorem sized_iff : s.Sized schema ↔ s.Each schema fun t n => n.main.length = t.mainLen := .rfl

theorem Sized.node (h : s.Sized schema) {t : TypeLayout} (ht : schema.typeById? type = some t)
    (hn : s.node? type id = some n) : n.main.length = t.mainLen := (sized_iff.1 h).node ht hn

/-- A node changes in anything but the length of its main block. -/
theorem Sized.change (h : s.Sized schema) (hn : s.node? type id = some n) (hm : m.main.length = n.main.length) :
    (s.setNode type id m).Sized schema := (sized_iff.1 h).change hn fun _ => hm.trans

theorem Regular.empty : Store.empty.Regular schema :=
  ⟨sized_iff.2 .empty, fun _ _ he => absurd he List.not_mem_nil, fun _ => List.Pairwise.nil⟩

/-- A node of the store, or one with a new id, is put into a table. -/
theorem Regular.insert (h : s.Regular schema) (hid : id ≠ 0) {lastId : NodeId} {n : StoredNode}
    (hs : (s.setTable type ⟨lastId, Assoc.insert id n (s.table type).nodes⟩).Sized schema) :
    (s.setTable type ⟨lastId, Assoc.insert id n (s.table type).nodes⟩).Regular schema where
  sized := hs
  named j e he := by
    rw [table_setTable] at he
    split at he
    · rcases Assoc.mem_insert he with rfl | he
      · exact hid
      · exact h.named type e he
    · exact h.named j e he
  sorted j := by
    rw [table_setTable]
    split
    · exact (h.sorted type).insert ..
    · exact h.sorted j

theorem Regular.setNode (h : s.Regular schema) (hn : s.node? type id = some n)
    (hm : ∀ t, schema.typeById? type = some t → m.main.length = t.mainLen) : (s.setNode type id m).Regular schema :=
  h.insert (h.named type _ (Assoc.mem_of_find? hn)) ((sized_iff.1 h.sized).setNode hm id)

/-- A node changes in anything but the length of its main block. -/
theorem Regular.change (h : s.Regular schema) (hn : s.node? type id = some n) (hm : m.main.length = n.main.length) :
    (s.setNode type id m).Regular schema := h.setNode hn fun _ ht => hm.trans (h.sized.node ht hn)

theorem Regular.create (h : s.Regular schema) (hp : schema.Placed) {t : TypeLayout} (ht : schema.typeById? t.id = some t)
    (hroom : s.exhausted t.id = false) : (s.create t).2.Regular schema :=
  h.insert (by simpa [exhausted] using hroom) ((sized_iff.1 h.sized).create ht (hp.types t (hp.found _ _ ht).1).defaults)

theorem Regular.remove (h : s.Regular schema) (type : TypeId) (id : NodeId) : (s.remove type id).Regular schema := by
  refine ⟨(sized_iff.1 h.sized).remove type id, fun j e he => ?_, fun j => ?_⟩
  · rw [Store.remove, table_setTable] at he
    split at he
    · exact h.named type e ((Assoc.erase_sublist ..).subset he)
    · exact h.named j e he
  · rw [Store.remove, table_setTable]
    split
    · exact (h.sorted type).erase _
    · exact h.sorted j

/-- Changes of relations leave main blocks alone. -/
theorem Regular.relinks (h : s.Regular schema) (hs : s.Relinks s') : s'.Regular schema := by
  induction hs with
  | refl => exact h
  | tail _ hstep ih =>
    cases hstep with
    | put hn p slot l => exact ih.change hn (by rw [Node.main_putLink])
    | take hn slot target => exact ih.change hn (by rw [Node.main_removeLink])
    | remove type id => exact ih.remove type id

end Store

/-! ### Steps of a run -/

/-- The store is regular, and the selected type is one of the schema. -/
structure Run.Regular (schema : SchemaLayout) (r : Run) : Prop where
  store : r.store.Regular schema
  type : ∀ t, r.type = some t → schema.typeById? t.id = some t

variable {r r' : Run}

theorem Run.Regular.withReader (h : r.Regular schema) (reader : Wire.Reader) : Run.Regular schema { r with reader } :=
  ⟨h.store, h.type⟩

/-- A step that changes relations only keeps the store regular. -/
theorem Run.Regular.relinks (h : r.Regular schema) (hr : r.store.Relinks r'.store ∧ r'.type = r.type) : r'.Regular schema :=
  ⟨h.store.relinks hr.1, hr.2 ▸ h.type⟩

theorem Run.Regular.onNode (h : r.Regular schema) {type : TypeId} {id : NodeId} {f : StoredNode → Except Fault StoredNode}
    (hf : ∀ n m, f n = .ok m → m.main.length = n.main.length) {u : Unit} (hr : onNode type id f r = .ok (u, r')) :
    r'.Regular schema := by
  obtain ⟨n, m, hn, hm, rfl⟩ := onNode_spec hr
  exact ⟨h.store.change hn (hf n m hm), h.type⟩

theorem selectType_regular (hp : schema.Placed) (h : r.Regular schema) (hr : selectType schema r = .ok ((), r')) :
    r'.Regular schema := by
  unfold selectType at hr
  simp only [StateT.bind_eq_ok, RunM.lift_eq_ok, RunM.modify_eq_ok] at hr
  obtain ⟨id, _, hid, t, _, ⟨ht, rfl⟩, rfl⟩ := hr
  obtain ⟨reader, rfl⟩ := RunM.read_spec hid
  refine ⟨h.store, ?_⟩
  rintro t' ⟨⟩
  exact hp.ids t (layoutOf_eq_ok ht).1

theorem selectNode_regular (h : r.Regular schema) {tmp : Bool} (hr : selectNode tmp r = .ok ((), r')) : r'.Regular schema := by
  unfold selectNode at hr
  simp only [StateT.bind_eq_ok, RunM.get_eq_ok, RunM.lift_eq_ok] at hr
  obtain ⟨raw, _, hraw, _, _, ⟨rfl, rfl⟩, t, _, ⟨ht, rfl⟩, hr⟩ := hr
  obtain ⟨reader, rfl⟩ := RunM.read_spec hraw
  split at hr <;>
  · simp only [StateT.bind_eq_ok, RunM.lift_eq_ok, StateT.pure_eq_ok, RunM.set_eq_ok, Prod.mk.injEq] at hr
    obtain ⟨id, _, ⟨-, rfl⟩, n, _, ⟨-, rfl⟩, rfl⟩ := hr
    exact ⟨h.store, h.type⟩

theorem createNode_regular (hp : schema.Placed) (h : r.Regular schema) (hr : createNode r = .ok ((), r')) : r'.Regular schema := by
  unfold createNode at hr
  simp only [StateT.bind_eq_ok, RunM.get_eq_ok, RunM.lift_eq_ok] at hr
  obtain ⟨tmp, _, htmp, _, _, ⟨rfl, rfl⟩, t, _, ⟨ht, rfl⟩, hr⟩ := hr
  obtain ⟨reader, rfl⟩ := RunM.read_spec htmp
  split at hr
  · cases hr
  · split at hr
    · cases hr
    · rename_i hroom
      cases RunM.set_eq_ok.1 hr
      exact ⟨h.store.create hp (h.type t (orFail_eq_ok.1 ht)) (by simpa using hroom), h.type⟩

theorem selectField_regular (h : r.Regular schema) (hr : selectField r = .ok ((), r')) : r'.Regular schema := by
  unfold selectField at hr
  simp only [StateT.bind_eq_ok, RunM.lift_eq_ok, RunM.modify_eq_ok] at hr
  obtain ⟨slot, _, hslot, tag, _, htag, ⟨t, id⟩, _, hc, p, _, ⟨-, rfl⟩, rfl⟩ := hr
  obtain ⟨_, rfl⟩ := RunM.read_spec hslot
  obtain ⟨_, rfl⟩ := RunM.read_spec htag
  obtain ⟨rfl, -, -⟩ := current_spec hc
  exact ⟨h.store, h.type⟩

/-- A new main block is taken only if it has the length of the type's. -/
theorem setMain_regular (h : r.Regular schema) (hr : setMain r = .ok ((), r')) : r'.Regular schema := by
  unfold setMain at hr
  simp only [StateT.bind_eq_ok] at hr
  obtain ⟨block, _, hblock, ⟨t, id⟩, _, hc, hr⟩ := hr
  obtain ⟨reader, rfl⟩ := RunM.read_spec hblock
  obtain ⟨rfl, ht, -⟩ := current_spec hc
  split at hr
  · cases hr
  · rename_i hlen
    obtain ⟨n, m, hn, hm, rfl⟩ := onNode_spec hr
    cases hm
    refine ⟨h.store.setNode hn fun u hu => ?_, h.type⟩
    obtain rfl : t = u := Option.some.inj ((h.type t ht).symm.trans hu)
    exact Decidable.not_not.1 hlen

theorem setMainPart_regular (h : r.Regular schema) (hr : setMainPart r = .ok ((), r')) : r'.Regular schema := by
  unfold setMainPart at hr
  simp only [StateT.bind_eq_ok] at hr
  obtain ⟨offset, _, h₁, length, _, h₂, bytes, _, h₃, ⟨t, id⟩, _, hc, hr⟩ := hr
  obtain ⟨_, rfl⟩ := RunM.read_spec h₁
  obtain ⟨_, rfl⟩ := RunM.read_spec h₂
  obtain ⟨reader, rfl⟩ := RunM.read_spec h₃
  obtain ⟨rfl, -, -⟩ := current_spec hc
  exact (h.withReader reader).onNode (fun _ _ hm => (changeMain_spec (fun _ _ => rfl) hm).1) hr

theorem count_regular (h : r.Regular schema) {decrement : Bool} (hr : count decrement r = .ok ((), r')) : r'.Regular schema := by
  unfold count at hr
  simp only [StateT.bind_eq_ok, RunM.lift_eq_ok] at hr
  obtain ⟨tag, _, h₁, offset, _, h₂, type, _, ⟨-, rfl⟩, delta, _, h₃, ⟨t, id⟩, _, hc, hr⟩ := hr
  obtain ⟨_, rfl⟩ := RunM.read_spec h₁
  obtain ⟨_, rfl⟩ := RunM.read_spec h₂
  obtain ⟨reader, rfl⟩ := RunM.read_spec h₃
  obtain ⟨rfl, -, -⟩ := current_spec hc
  exact (h.withReader reader).onNode (fun _ _ hm => (changeMain_spec (fun _ => length_addDelta) hm).1) hr

theorem updateField_regular (h : r.Regular schema) (hr : updateField r = .ok ((), r')) : r'.Regular schema := by
  unfold updateField at hr
  simp only [StateT.bind_eq_ok] at hr
  obtain ⟨payload, _, h₁, ⟨t, id, p⟩, _, hc, hr⟩ := hr
  obtain ⟨reader, rfl⟩ := RunM.read_spec h₁
  obtain ⟨rfl, -, -, -⟩ := currentField_spec hc
  exact (h.withReader reader).onNode (fun _ _ hm => congrArg _ (Node.main_writePayload hm)) hr

theorem deleteField_regular (h : r.Regular schema) (hr : deleteField schema r = .ok ((), r')) : r'.Regular schema := by
  unfold deleteField at hr
  obtain ⟨⟨t, id, p⟩, _, hc, hr⟩ := StateT.bind_eq_ok.1 hr
  obtain ⟨rfl, -, -, -⟩ := currentField_spec hc
  refine RunM.ite_elim (fun hd => ?_) (h.onNode ?_) hr
  · obtain ⟨store, hstore, rfl⟩ := onStore_spec hd
    exact h.relinks ⟨Store.disconnectField_relinks hstore, rfl⟩
  · rintro n _ ⟨⟩
    rfl

theorem deleteText_regular (h : r.Regular schema) (hr : deleteText r = .ok ((), r')) : r'.Regular schema := by
  unfold deleteText at hr
  simp only [StateT.bind_eq_ok] at hr
  obtain ⟨locale, _, h₁, ⟨t, id, p⟩, _, hc, hr⟩ := hr
  obtain ⟨reader, rfl⟩ := RunM.read_spec h₁
  obtain ⟨rfl, -, -, -⟩ := currentField_spec hc
  refine (h.withReader reader).onNode ?_ hr
  rintro n _ ⟨⟩
  exact Node.length_main_dropText ..

/-! ### Runs and batches -/

/-- Every instruction keeps the sizes of main blocks, and creates no node without an id. -/
theorem runInstr_regular (hp : schema.Placed) (h : r.Regular schema) (hr : runInstr schema r = .ok ((), r')) : r'.Regular schema := by
  unfold runInstr at hr
  obtain ⟨opcode, r₁, hopcode, hrest⟩ := StateT.bind_eq_ok.1 hr
  obtain ⟨reader, hr₁⟩ := RunM.read_spec hopcode
  have h₁ : r₁.Regular schema := hr₁ ▸ h.withReader reader
  -- one case for each opcode, in the order of the dispatch
  refine RunM.ite_elim (selectType_regular hp h₁) ?_ hrest
  refine RunM.ite_elim (selectNode_regular h₁) ?_
  refine RunM.ite_elim (selectNode_regular h₁) ?_
  refine RunM.ite_elim (createNode_regular hp h₁) ?_
  refine RunM.ite_elim (selectField_regular h₁) ?_
  refine RunM.ite_elim (setMain_regular h₁) ?_
  refine RunM.ite_elim (setMainPart_regular h₁) ?_
  refine RunM.ite_elim (count_regular h₁) ?_
  refine RunM.ite_elim (count_regular h₁) ?_
  refine RunM.ite_elim (fun h => h₁.relinks (deleteCurrent_relinks h)) ?_
  refine RunM.ite_elim (updateField_regular h₁) ?_
  refine RunM.ite_elim (deleteField_regular h₁) ?_
  refine RunM.ite_elim (deleteText_regular h₁) ?_
  refine RunM.ite_elim (fun h => h₁.relinks (setRef_relinks h)) ?_
  refine RunM.ite_elim (fun h => h₁.relinks (linkRefs_relinks h)) ?_
  refine RunM.ite_elim (fun h => h₁.relinks (linkRefs_relinks h)) ?_
  refine RunM.ite_elim (fun h => h₁.relinks (unlinkRefs_relinks h)) fun h => ?_
  cases h

theorem runInstrs_regular (hp : schema.Placed) {n : Nat} (h : r.Regular schema) (hr : runInstrs schema n r = .ok ((), r')) :
    r'.Regular schema := by
  induction n generalizing r with
  | zero =>
    cases hr
    exact h
  | succ n ih =>
    rw [runInstrs] at hr
    simp only [StateT.bind_eq_ok, RunM.get_eq_ok] at hr
    obtain ⟨_, _, ⟨rfl, rfl⟩, hr⟩ := hr
    split at hr
    · cases hr
      exact h
    · obtain ⟨_, r₁, h₁, hr⟩ := StateT.bind_eq_ok.1 hr
      exact ih (runInstr_regular hp h h₁) hr

theorem applyBatch_regular (hp : schema.Placed) {store store' : Store} {batch : Bytes} {ids : List NodeId}
    (h : store.Regular schema) (hb : applyBatch schema store batch = .ok (ids, store')) : store'.Regular schema := by
  obtain ⟨⟨_, r⟩, hr, hb⟩ := Except.bind_eq_ok.1 hb
  cases hb
  have hstart : (Run.start store batch).Regular schema := ⟨h, fun _ ht => (by cases ht)⟩
  exact (runInstrs_regular hp hstart hr).store

/-- Whatever batches a memory has been given, its store is regular. -/
theorem reached_regular (hp : schema.Placed) {m : Memory} (h : Reached schema m) :
    m.schema = schema ∧ m.store.Regular schema := by
  induction h with
  | new => exact ⟨rfl, .empty⟩
  | refuseNext reason h ih => exact ih
  | apply batch h ih =>
    obtain ⟨hschema, hs⟩ := ih
    unfold Memory.apply
    split
    · exact ⟨hschema, hs⟩
    · split
      · rename_i hb
        rw [hschema] at hb
        exact ⟨hschema, applyBatch_regular hp hs hb⟩
      · exact ⟨hschema, hs⟩

/-- Whatever batches a memory has been given, its main blocks have the sizes that the schema asks for. -/
theorem reached_sized (hp : schema.Placed) {m : Memory} (h : Reached schema m) :
    m.schema = schema ∧ m.store.Sized schema := (reached_regular hp h).imp_right (·.sized)

end NodeStore.Engine
