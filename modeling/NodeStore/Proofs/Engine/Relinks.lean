import Mathlib.Logic.Relation
import NodeStore.Proofs.Engine.Runs

/-!
# What changes of relations leave alone

Connecting, disconnecting and deleting nodes puts links on nodes, takes links from them and takes nodes out of the store,
and does nothing else. What these steps keep is kept by every instruction about references.

* `Store.Relink`, `Store.Relinks`: one such step, and some of them.
* `connectAll_relinks`, `disconnectAll_relinks`, `deleteNode_relinks`: changes of relations.
* `Store.Each`: something holds of every node; `Each.relinks`: it is kept if links do not matter to it.
* `setRef_relinks`, `linkRefs_relinks`, `unlinkRefs_relinks`, `deleteCurrent_relinks`: the instructions.
-/

namespace NodeStore.Engine

variable {schema : SchemaLayout}

namespace Store

/-- A node gets or loses a link, or is taken out of the store. -/
inductive Relink (s : Store) : Store → Prop
  | put {type : TypeId} {id : NodeId} {n : StoredNode} (hn : s.node? type id = some n) (p : PropDef EdgeLayout) (slot : UInt8)
      (l : Link EdgeNode) : Relink s (s.setNode type id (n.putLink p slot l))
  | take {type : TypeId} {id : NodeId} {n : StoredNode} (hn : s.node? type id = some n) (slot : UInt8) (target : NodeId) :
      Relink s (s.setNode type id (n.removeLink slot target))
  | remove (type : TypeId) (id : NodeId) : Relink s (s.remove type id)

/-- Some steps of this kind, one after the other. -/
def Relinks (s s' : Store) : Prop := Relation.ReflTransGen Relink s s'

variable {s s' : Store} {type : TypeId} {id target : NodeId} {p : PropDef EdgeLayout}

theorem Relinks.refl (s : Store) : s.Relinks s := Relation.ReflTransGen.refl

theorem Relinks.trans {s'' : Store} (h : s.Relinks s') (h' : s'.Relinks s'') : s.Relinks s'' :=
  Relation.ReflTransGen.trans h h'

theorem Relinks.foldlM {α : Type} {f : Store → α → Except Fault Store} {xs : List α} (h : xs.foldlM f s = .ok s')
    (hf : ∀ x ∈ xs, ∀ s s', f s x = .ok s' → s.Relinks s') : s.Relinks s' :=
  foldlM_invariant (P := fun s'' => s.Relinks s'') h (.refl s) fun x hx _ _ h hstep => h.trans (hf x hx _ _ hstep)

theorem modifyNode_putLink {l : Link EdgeNode} {slot : UInt8} (h : s.modifyNode type id (·.putLink p slot l) = .ok s') :
    s.Relinks s' := by
  obtain ⟨n, hn, rfl⟩ := modifyNode_eq_ok.1 h
  exact .single (.put hn p slot l)

theorem modifyNode_removeLink {slot : UInt8} (h : s.modifyNode type id (·.removeLink slot target) = .ok s') : s.Relinks s' := by
  obtain ⟨n, hn, rfl⟩ := modifyNode_eq_ok.1 h
  exact .single (.take hn slot target)

theorem disconnect_relinks (h : disconnect schema type id p target s = .ok s') : s.Relinks s' := by
  obtain ⟨s₁, hremove, h⟩ := Except.bind_eq_ok.1 h
  have h₁ := modifyNode_removeLink hremove
  obtain ⟨inverse, -, h⟩ := Except.bind_eq_ok.1 h
  split at h
  · cases h
    exact h₁
  · split at h
    · cases h
      exact h₁
    · rename_i hn
      cases h
      exact h₁.trans (.single (.take hn ..))

theorem disconnectAll_relinks {targets : List NodeId} (h : disconnectAll schema type id p targets s = .ok s') : s.Relinks s' :=
  .foldlM h fun _ _ _ _ hstep => disconnect_relinks hstep

theorem release_relinks (h : release schema type id p target s = .ok s') : s.Relinks s' := by
  unfold release at h
  split at h
  · obtain ⟨old, -, h⟩ := Except.bind_eq_ok.1 h
    dsimp only at h
    split at h
    · split at h
      · cases h
        exact .refl s
      · exact disconnect_relinks h
    · cases h
      exact .refl s
  · cases h
    exact .refl s

theorem connect_relinks {l : Link EdgeNode} (h : connect schema type id p l s = .ok s') : s.Relinks s' := by
  obtain ⟨s₁, hrelease, h⟩ := Except.bind_eq_ok.1 h
  obtain ⟨s₂, hput, h⟩ := Except.bind_eq_ok.1 h
  have h₂ := (release_relinks hrelease).trans (modifyNode_putLink hput)
  obtain ⟨inverse, -, h⟩ := Except.bind_eq_ok.1 h
  split at h
  · cases h
    exact h₂
  · obtain ⟨s₃, hback, h⟩ := Except.bind_eq_ok.1 h
    exact (h₂.trans (release_relinks hback)).trans (modifyNode_putLink h)

theorem connectAll_relinks {links : List (Link EdgeNode)} (h : connectAll schema type id p links s = .ok s') : s.Relinks s' :=
  .foldlM h fun _ _ _ _ hstep => connect_relinks hstep

theorem disconnectField_relinks (h : disconnectField schema type id p s = .ok s') : s.Relinks s' := by
  obtain ⟨targets, -, h⟩ := Except.bind_eq_ok.1 h
  exact disconnectAll_relinks h

theorem deleteNode_relinks {t : TypeLayout} (h : deleteNode schema t id s = .ok s') : s.Relinks s' := by
  obtain ⟨s₁, hfields, h⟩ := Except.bind_eq_ok.1 h
  cases h
  exact (Relinks.foldlM hfields fun _ _ _ _ hstep => disconnectField_relinks hstep).trans (.single (.remove t.id id))

/-! ### What holds of every node -/

/-- Something holds of every stored node, given the layout of its type. -/
def Each (schema : SchemaLayout) (N : TypeLayout → StoredNode → Prop) (s : Store) : Prop :=
  ∀ type t, schema.typeById? type = some t → ∀ e ∈ (s.table type).nodes, N t e.2

namespace Each

variable {N : TypeLayout → StoredNode → Prop} {n m : StoredNode}

theorem empty : Store.empty.Each schema N := fun _ _ _ _ he => absurd he List.not_mem_nil

theorem node (h : s.Each schema N) {t : TypeLayout} (ht : schema.typeById? type = some t) (hn : s.node? type id = some n) :
    N t n := h type t ht _ (Assoc.mem_of_find? hn)

theorem setNode (h : s.Each schema N) (hm : ∀ t, schema.typeById? type = some t → N t m) (id : NodeId) :
    (s.setNode type id m).Each schema N := by
  intro j t ht e he
  rw [Store.setNode, table_setTable] at he
  split at he
  · rename_i hj
    subst hj
    rcases Assoc.mem_insert he with rfl | he
    · exact hm t ht
    · exact h j t ht e he
  · exact h j t ht e he

/-- A node changes and keeps what holds of it. -/
theorem change (h : s.Each schema N) (hn : s.node? type id = some n) (hm : ∀ t, N t n → N t m) :
    (s.setNode type id m).Each schema N := h.setNode (fun t ht => hm t (h.node ht hn)) id

theorem create (h : s.Each schema N) {t : TypeLayout} (ht : schema.typeById? t.id = some t) (hfresh : N t (.fresh t)) :
    (s.create t).2.Each schema N := by
  intro j u hu e he
  rw [Store.create, table_setTable] at he
  split at he
  · rename_i hj
    subst hj
    obtain rfl : t = u := Option.some.inj (ht.symm.trans hu)
    rcases Assoc.mem_insert he with rfl | he
    · exact hfresh
    · exact h _ t ht e he
  · exact h j u hu e he

theorem remove (h : s.Each schema N) (type : TypeId) (id : NodeId) : (s.remove type id).Each schema N := by
  intro j t ht e he
  rw [Store.remove, table_setTable] at he
  split at he
  · rename_i hj
    subst hj
    exact h j t ht e ((Assoc.erase_sublist ..).subset he)
  · exact h j t ht e he

/-- Changes of relations keep what does not depend on links. -/
theorem relinks (h : s.Each schema N) (hput : ∀ t n (p : PropDef EdgeLayout) slot l, N t n → N t (n.putLink p slot l))
    (htake : ∀ t n slot target, N t n → N t (n.removeLink slot target)) (hs : s.Relinks s') : s'.Each schema N := by
  induction hs with
  | refl => exact h
  | tail _ hstep ih =>
    cases hstep with
    | put hn p slot l => exact ih.change hn fun t => hput t _ p slot l
    | take hn slot target => exact ih.change hn fun t => htake t _ slot target
    | remove type id => exact ih.remove type id

end Each

end Store

/-! ### Instructions about references -/

variable {r r' : Run}

theorem deleteCurrent_relinks (h : deleteCurrent schema r = .ok ((), r')) : r.store.Relinks r'.store ∧ r'.type = r.type := by
  unfold deleteCurrent at h
  simp only [StateT.bind_eq_ok, RunM.modify_eq_ok] at h
  obtain ⟨⟨t, id⟩, _, hc, _, _, hs, rfl⟩ := h
  obtain ⟨rfl, -, -⟩ := current_spec hc
  obtain ⟨store, hstore, rfl⟩ := onStore_spec hs
  exact ⟨Store.deleteNode_relinks hstore, rfl⟩

theorem setRef_relinks (h : setRef schema r = .ok ((), r')) : r.store.Relinks r'.store ∧ r'.type = r.type := by
  unfold setRef at h
  simp only [StateT.bind_eq_ok, RunM.get_eq_ok] at h
  obtain ⟨⟨t, id, p⟩, _, hc, _, _, ⟨rfl, rfl⟩, l, _, hl, h⟩ := h
  obtain ⟨rfl, -, -, -, -⟩ := currentOfType_spec hc
  obtain ⟨reader, -, rfl⟩ := RunM.scan_spec hl
  obtain ⟨store, hstore, rfl⟩ := onStore_spec h
  exact ⟨Store.connectAll_relinks hstore, rfl⟩

theorem linkRefs_relinks {replace : Bool} (h : linkRefs schema replace r = .ok ((), r')) :
    r.store.Relinks r'.store ∧ r'.type = r.type := by
  unfold linkRefs at h
  simp only [StateT.bind_eq_ok, RunM.get_eq_ok] at h
  obtain ⟨⟨t, id, p⟩, _, hc, n, _, hn, _, _, ⟨rfl, rfl⟩, ls, _, hls, h⟩ := h
  obtain ⟨rfl, -, -, -, -⟩ := currentOfType_spec hc
  obtain ⟨_, rfl⟩ := RunM.read_spec hn
  obtain ⟨reader, -, rfl⟩ := RunM.scan_spec hls
  split at h
  · obtain ⟨_, r₁, hdisconnect, h⟩ := StateT.bind_eq_ok.1 h
    obtain ⟨store, hs, rfl⟩ := onStore_spec hdisconnect
    obtain ⟨store', hconnect, rfl⟩ := onStore_spec h
    obtain ⟨old, -, hs⟩ := Except.bind_eq_ok.1 hs
    exact ⟨(Store.disconnectAll_relinks hs).trans (Store.connectAll_relinks hconnect), rfl⟩
  · obtain ⟨store, hconnect, rfl⟩ := onStore_spec h
    exact ⟨Store.connectAll_relinks hconnect, rfl⟩

theorem removeRef_relinks {t : TypeLayout} {id : NodeId} {p : PropDef EdgeLayout} (h : removeRef schema t id p r = .ok ((), r')) :
    r.store.Relinks r'.store ∧ r'.type = r.type := by
  unfold removeRef at h
  simp only [StateT.bind_eq_ok, RunM.get_eq_ok, RunM.lift_eq_ok] at h
  obtain ⟨flags, _, h₁, raw, _, h₂, _, _, ⟨rfl, rfl⟩, target, _, ⟨-, rfl⟩, h⟩ := h
  obtain ⟨_, rfl⟩ := RunM.read_spec h₁
  obtain ⟨reader, rfl⟩ := RunM.read_spec h₂
  obtain ⟨store, hstore, rfl⟩ := onStore_spec h
  exact ⟨Store.disconnect_relinks hstore, rfl⟩

theorem removeRefs_relinks {t : TypeLayout} {id : NodeId} {p : PropDef EdgeLayout} {n : Nat}
    (h : removeRefs schema t id p n r = .ok ((), r')) : r.store.Relinks r'.store ∧ r'.type = r.type := by
  induction n generalizing r with
  | zero =>
    cases h
    exact ⟨.refl _, rfl⟩
  | succ n ih =>
    rw [removeRefs] at h
    obtain ⟨_, r₁, h₁, h₂⟩ := StateT.bind_eq_ok.1 h
    obtain ⟨hfirst, htype⟩ := removeRef_relinks h₁
    obtain ⟨hrest, htype'⟩ := ih h₂
    exact ⟨hfirst.trans hrest, htype'.trans htype⟩

theorem unlinkRefs_relinks (h : unlinkRefs schema r = .ok ((), r')) : r.store.Relinks r'.store ∧ r'.type = r.type := by
  unfold unlinkRefs at h
  simp only [StateT.bind_eq_ok] at h
  obtain ⟨⟨t, id, p⟩, _, hc, n, _, hn, h⟩ := h
  obtain ⟨rfl, -, -, -, -⟩ := currentOfType_spec hc
  obtain ⟨reader, rfl⟩ := RunM.read_spec hn
  have hrelinks := removeRefs_relinks h
  exact hrelinks

end NodeStore.Engine
