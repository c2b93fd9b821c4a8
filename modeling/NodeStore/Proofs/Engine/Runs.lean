import NodeStore.Engine.Memory
import NodeStore.Proofs.Engine.Relations
import Std.Data.HashSet.Lemmas

/-!
# What batches keep

No batch, however it was made, can break the two sides of a relation apart or put content of another kind into a field:
every instruction keeps the store sound, so every run does, and so does every batch, whether it succeeds or not.

* `Run.Sound`: the store is sound, and what is selected belongs to the schema.
* `runInstr_sound`, `runInstrs_sound`, `applyBatch_sound`.
* `Reached`: the memories that batches lead to; `reached_sound`.
-/

namespace NodeStore.Engine

open Write (Instr)

/-! ## Steps of a run -/

/-- The store is sound, and the selected type and field belong to the schema. -/
structure Run.Sound (schema : SchemaLayout) (r : Run) : Prop where
  store : r.store.Sound schema
  type : ∀ t, r.type = some t → t ∈ schema.types
  field : ∀ p, r.field = some p → ∃ t slot, r.type = some t ∧ p ∈ t.props ∧ p.slot? = some slot

variable {schema : SchemaLayout} {r r' : Run}

theorem Run.Sound.withReader (h : r.Sound schema) (reader : Wire.Reader) : Run.Sound schema { r with reader } :=
  ⟨h.store, h.type, h.field⟩

theorem Run.Sound.withStore (h : r.Sound schema) {store : Store} (hs : store.Sound schema) :
    Run.Sound schema { r with store } :=
  ⟨hs, h.type, h.field⟩

namespace RunM

variable {α : Type}

theorem get_eq_ok {a : Run} : (get : RunM Run) r = .ok (a, r') ↔ r = a ∧ r = r' := by
  change Except.ok (r, r) = _ ↔ _
  rw [Except.ok.injEq, Prod.mk.injEq]

theorem set_eq_ok {s : Run} {u : PUnit} : (set s : RunM PUnit) r = .ok (u, r') ↔ r' = s := by
  change Except.ok (PUnit.unit, s) = _ ↔ _
  rw [Except.ok.injEq, Prod.mk.injEq]
  exact ⟨fun h => h.2.symm, fun h => ⟨rfl, h.symm⟩⟩

theorem modify_eq_ok {f : Run → Run} {u : PUnit} : (modify f : RunM PUnit) r = .ok (u, r') ↔ r' = f r := by
  change Except.ok (PUnit.unit, f r) = _ ↔ _
  rw [Except.ok.injEq, Prod.mk.injEq]
  exact ⟨fun h => h.2.symm, fun h => ⟨rfl, h.symm⟩⟩

theorem liftM_apply (x : Scan α) (r : Run) :
    (liftM x : RunM α) r =
      match x r.reader with
      | .ok a reader => .ok (a, { r with reader })
      | .error e _ => .error e := rfl

/-- Reading moves the reader only. -/
theorem scan_spec {x : Scan α} {a : α} (h : (liftM x : RunM α) r = .ok (a, r')) :
    ∃ reader, x r.reader = .ok a reader ∧ r' = { r with reader } := by
  rw [liftM_apply] at h
  split at h
  · rename_i hx
    cases h
    exact ⟨_, hx, rfl⟩
  · cases h

theorem read_spec {x : Wire.Read α} {a : α} (h : (liftM x : RunM α) r = .ok (a, r')) :
    ∃ reader, r' = { r with reader } := by
  obtain ⟨reader, -, hr⟩ := scan_spec (x := (liftM x : Scan α)) h
  exact ⟨reader, hr⟩

/-- A test that needs no run. -/
theorem lift_eq_ok {x : Except Fault α} {a : α} : (liftM x : RunM α) r = .ok (a, r') ↔ x = .ok a ∧ r = r' := by
  constructor
  · intro h
    obtain ⟨reader, hx, hr⟩ := scan_spec (x := (liftM x : Scan α)) h
    obtain ⟨hx', rfl⟩ := Scan.lift_eq_ok.1 hx
    exact ⟨hx', hr.symm⟩
  · rintro ⟨rfl, rfl⟩
    rfl

end RunM

theorem current_spec {x : TypeLayout × NodeId} (h : current r = .ok (x, r')) :
    r = r' ∧ r.type = some x.1 ∧ r.node = some x.2 := by
  unfold current at h
  simp only [StateT.bind_eq_ok, RunM.get_eq_ok] at h
  obtain ⟨_, _, ⟨rfl, rfl⟩, h⟩ := h
  cases ht : r.type with
  | none =>
    simp only [ht] at h
    cases h
  | some t =>
    cases hn : r.node with
    | none =>
      simp only [ht, hn] at h
      cases h
    | some id =>
      simp only [ht, hn] at h
      cases h
      exact ⟨rfl, rfl, rfl⟩

theorem currentField_spec {x : TypeLayout × NodeId × PropDef EdgeLayout} (h : currentField r = .ok (x, r')) :
    r = r' ∧ r.type = some x.1 ∧ r.node = some x.2.1 ∧ r.field = some x.2.2 := by
  unfold currentField at h
  simp only [StateT.bind_eq_ok, RunM.get_eq_ok, RunM.lift_eq_ok, StateT.pure_eq_ok] at h
  obtain ⟨⟨t, id⟩, _, hc, _, _, ⟨rfl, rfl⟩, p, _, ⟨hp, rfl⟩, h⟩ := h
  cases h
  obtain ⟨rfl, ht, hn⟩ := current_spec hc
  exact ⟨rfl, ht, hn, orFail_eq_ok.1 hp⟩

theorem currentOfType_spec {type : PropType} {x : TypeLayout × NodeId × PropDef EdgeLayout}
    (h : currentOfType type r = .ok (x, r')) :
    r = r' ∧ r.type = some x.1 ∧ r.node = some x.2.1 ∧ r.field = some x.2.2 ∧ x.2.2.type = type := by
  unfold currentOfType at h
  simp only [StateT.bind_eq_ok] at h
  obtain ⟨⟨t, id, p⟩, _, hc, h⟩ := h
  obtain ⟨rfl, ht, hn, hp⟩ := currentField_spec hc
  split at h
  · cases h
  · rename_i hty
    cases h
    exact ⟨rfl, ht, hn, hp, Decidable.not_not.1 hty⟩

theorem onStore_spec {f : Store → Except Fault Store} {u : Unit} (h : onStore f r = .ok (u, r')) :
    ∃ store, f r.store = .ok store ∧ r' = { r with store } := by
  unfold onStore at h
  simp only [StateT.bind_eq_ok, RunM.get_eq_ok, RunM.lift_eq_ok, RunM.modify_eq_ok] at h
  obtain ⟨_, _, ⟨rfl, rfl⟩, store, _, ⟨hf, rfl⟩, rfl⟩ := h
  exact ⟨store, hf, rfl⟩

theorem onNode_spec {type : TypeId} {id : NodeId} {f : StoredNode → Except Fault StoredNode} {u : Unit}
    (h : onNode type id f r = .ok (u, r')) :
    ∃ n m, r.store.node? type id = some n ∧ f n = .ok m ∧ r' = { r with store := r.store.setNode type id m } := by
  obtain ⟨store, hf, rfl⟩ := onStore_spec h
  obtain ⟨n, hn, hf⟩ := Except.bind_eq_ok.1 hf
  obtain ⟨m, hm, hf⟩ := Except.bind_eq_ok.1 hf
  cases hf
  exact ⟨n, m, Store.node_eq_ok.1 hn, hm, rfl⟩

/-! ## Instructions -/

theorem layoutOf_eq_ok {id : TypeId} {t : TypeLayout} (h : layoutOf schema id = .ok t) :
    t ∈ schema.types ∧ schema.typeById? id = some t := by
  unfold layoutOf at h
  split at h
  · rename_i ht
    cases h
    refine ⟨?_, ht⟩
    unfold SchemaLayout.typeById? at ht
    split at ht
    · cases ht
    · exact List.mem_of_getElem? ht
  · cases h

/-- The selected field, with its type and slot. -/
theorem Run.Sound.fieldOf (h : r.Sound schema) {t : TypeLayout} {p : PropDef EdgeLayout} (ht : r.type = some t)
    (hf : r.field = some p) : t ∈ schema.types ∧ p ∈ t.props ∧ p.slot? = some (slotOf p) := by
  obtain ⟨t', slot, ht', hmem, hs⟩ := h.field p hf
  rw [ht] at ht'
  cases ht'
  exact ⟨h.type t ht, hmem, by rw [slotOf_eq hs, hs]⟩

/-- A node of the selected type may change in everything but its references. -/
theorem Run.Sound.setNode (hp : schema.Placed) (h : r.Sound schema) {t : TypeLayout} (ht : r.type = some t)
    {id : NodeId} {n m : StoredNode} (hn : r.store.node? t.id id = some n) (hm : m.Fits EdgeFits t)
    (hlinks : ∀ p ∈ t.props, p.type.isReference = true → m.field? (slotOf p) = n.field? (slotOf p)) :
    Run.Sound schema { r with store := r.store.setNode t.id id m } :=
  h.withStore (setNode_sound hp h.store (h.type t ht) hn hm hlinks)

theorem selectType_sound (h : r.Sound schema) (hr : selectType schema r = .ok ((), r')) : r'.Sound schema := by
  unfold selectType at hr
  simp only [StateT.bind_eq_ok, RunM.lift_eq_ok, RunM.modify_eq_ok] at hr
  obtain ⟨id, _, hid, t, _, ⟨ht, rfl⟩, rfl⟩ := hr
  obtain ⟨reader, rfl⟩ := RunM.read_spec hid
  refine ⟨h.store, ?_, fun p hp => by cases hp⟩
  rintro t' ⟨⟩
  exact (layoutOf_eq_ok ht).1

theorem selectNode_sound (h : r.Sound schema) {tmp : Bool} (hr : selectNode tmp r = .ok ((), r')) :
    r'.Sound schema := by
  unfold selectNode at hr
  simp only [StateT.bind_eq_ok, RunM.get_eq_ok, RunM.lift_eq_ok] at hr
  obtain ⟨raw, _, hraw, _, _, ⟨rfl, rfl⟩, t, _, ⟨ht, rfl⟩, hr⟩ := hr
  obtain ⟨reader, rfl⟩ := RunM.read_spec hraw
  split at hr <;>
  · simp only [StateT.bind_eq_ok, RunM.lift_eq_ok, StateT.pure_eq_ok, RunM.set_eq_ok, Prod.mk.injEq] at hr
    obtain ⟨id, _, ⟨-, rfl⟩, n, _, ⟨-, rfl⟩, rfl⟩ := hr
    exact ⟨h.store, h.type, fun p hp => by cases hp⟩

theorem createNode_sound (hp : schema.Placed) (h : r.Sound schema) (hr : createNode r = .ok ((), r')) :
    r'.Sound schema := by
  unfold createNode at hr
  simp only [StateT.bind_eq_ok, RunM.get_eq_ok, RunM.lift_eq_ok] at hr
  obtain ⟨tmp, _, htmp, _, _, ⟨rfl, rfl⟩, t, _, ⟨ht, rfl⟩, hr⟩ := hr
  obtain ⟨reader, rfl⟩ := RunM.read_spec htmp
  split at hr
  · cases hr
  · split at hr
    · cases hr
    · rename_i hroom
      rw [RunM.set_eq_ok] at hr
      subst hr
      exact ⟨create_sound hp h.store (h.type t (orFail_eq_ok.1 ht)) (by simpa using hroom), h.type,
        fun p hp => by cases hp⟩

theorem selectField_sound (h : r.Sound schema) (hr : selectField r = .ok ((), r')) : r'.Sound schema := by
  unfold selectField at hr
  simp only [StateT.bind_eq_ok, RunM.lift_eq_ok, RunM.modify_eq_ok] at hr
  obtain ⟨slot, _, hslot, tag, _, htag, ⟨t, id⟩, _, hc, p, _, ⟨hp, rfl⟩, rfl⟩ := hr
  obtain ⟨reader, rfl⟩ := RunM.read_spec hslot
  obtain ⟨reader', rfl⟩ := RunM.read_spec htag
  obtain ⟨rfl, ht, -⟩ := current_spec hc
  refine ⟨h.store, h.type, ?_⟩
  rintro q ⟨⟩
  obtain ⟨hmem, hs⟩ := fieldAt_spec hp
  exact ⟨t, slot, ht, hmem, hs⟩

theorem setMain_sound (hp : schema.Placed) (h : r.Sound schema) (hr : setMain r = .ok ((), r')) :
    r'.Sound schema := by
  unfold setMain at hr
  simp only [StateT.bind_eq_ok] at hr
  obtain ⟨block, _, hblock, ⟨t, id⟩, _, hc, hr⟩ := hr
  obtain ⟨reader, rfl⟩ := RunM.read_spec hblock
  obtain ⟨rfl, ht, -⟩ := current_spec hc
  split at hr
  · cases hr
  · rename_i hlen
    obtain ⟨n, m, hn, hm, rfl⟩ := onNode_spec hr
    cases hm
    have hfits := h.store.fits.node hp (h.type t ht) hn
    exact (h.withReader reader).setNode hp ht hn (hfits.withMain (Decidable.not_not.1 hlen)) fun _ _ _ => rfl

/-- Changing bytes of a main block keeps its length. -/
theorem changeMain_spec {offset width : Nat} {f : Bytes → Bytes} (hf : ∀ bs, bs.length = width → (f bs).length = width)
    {outside : Fault} {n m : StoredNode} (h : changeMain offset width f outside n = .ok m) :
    m.main.length = n.main.length ∧ m.fields = n.fields := by
  obtain ⟨bs, hbs, h⟩ := Except.bind_eq_ok.1 h
  cases h
  refine ⟨?_, rfl⟩
  unfold changeBytes at hbs
  split at hbs
  · cases hbs
  · rename_i hlen
    cases hbs
    refine Bytes.length_overwrite ?_
    rw [hf _ (by simp; omega)]
    omega

theorem changeMain_sound (hp : schema.Placed) (h : r.Sound schema) {t : TypeLayout} {id : NodeId}
    (ht : r.type = some t) {offset width : Nat} {f : Bytes → Bytes}
    (hf : ∀ bs, bs.length = width → (f bs).length = width) {outside : Fault}
    (hr : onNode t.id id (changeMain offset width f outside) r = .ok ((), r')) : r'.Sound schema := by
  obtain ⟨n, m, hn, hm, rfl⟩ := onNode_spec hr
  obtain ⟨hlen, hfields⟩ := changeMain_spec hf hm
  have hfits := h.store.fits.node hp (h.type t ht) hn
  obtain ⟨main, fields⟩ := m
  dsimp only at hfields hlen
  subst hfields
  exact h.setNode hp ht hn (hfits.withMain (hlen.trans hfits.main)) fun _ _ _ => rfl

theorem setMainPart_sound (hp : schema.Placed) (h : r.Sound schema) (hr : setMainPart r = .ok ((), r')) :
    r'.Sound schema := by
  unfold setMainPart at hr
  simp only [StateT.bind_eq_ok] at hr
  obtain ⟨offset, _, h₁, length, _, h₂, bytes, _, h₃, ⟨t, id⟩, _, hc, hr⟩ := hr
  obtain ⟨_, rfl⟩ := RunM.read_spec h₁
  obtain ⟨_, rfl⟩ := RunM.read_spec h₂
  obtain ⟨reader, rfl⟩ := RunM.read_spec h₃
  obtain ⟨rfl, ht, -⟩ := current_spec hc
  exact changeMain_sound hp (h.withReader reader) ht (fun _ _ => rfl) hr

/-- A counter keeps its width. -/
theorem length_addDelta {type : PropType} {decrement : Bool} {delta field : Bytes}
    (h : field.length = type.fixedWidth.getD 0) :
    (addDelta type decrement delta field).length = type.fixedWidth.getD 0 := by
  unfold addDelta
  split
  · rename_i ht
    rw [ht, Binary64.length_toBytes]
    rfl
  · dsimp only
    split <;> rw [length_intBytes, h]

theorem count_sound (hp : schema.Placed) (h : r.Sound schema) {decrement : Bool}
    (hr : count decrement r = .ok ((), r')) : r'.Sound schema := by
  unfold count at hr
  simp only [StateT.bind_eq_ok, RunM.lift_eq_ok] at hr
  obtain ⟨tag, _, h₁, offset, _, h₂, type, _, ⟨-, rfl⟩, delta, _, h₃, ⟨t, id⟩, _, hc, hr⟩ := hr
  obtain ⟨_, rfl⟩ := RunM.read_spec h₁
  obtain ⟨_, rfl⟩ := RunM.read_spec h₂
  obtain ⟨reader, rfl⟩ := RunM.read_spec h₃
  obtain ⟨rfl, ht, -⟩ := current_spec hc
  exact changeMain_sound hp (h.withReader reader) ht (fun _ => length_addDelta) hr

theorem deleteCurrent_sound (hp : schema.Placed) (hrec : Reciprocal schema) (h : r.Sound schema)
    (hr : deleteCurrent schema r = .ok ((), r')) : r'.Sound schema := by
  unfold deleteCurrent at hr
  simp only [StateT.bind_eq_ok, RunM.modify_eq_ok] at hr
  obtain ⟨⟨t, id⟩, _, hc, _, _, hs, rfl⟩ := hr
  obtain ⟨rfl, ht, -⟩ := current_spec hc
  obtain ⟨store, hd, rfl⟩ := onStore_spec hs
  exact ⟨deleteNode_sound hp hrec h.store (h.type t ht) hd, h.type, fun p hp => by cases hp⟩

theorem updateField_sound (hp : schema.Placed) (h : r.Sound schema) (hr : updateField r = .ok ((), r')) :
    r'.Sound schema := by
  unfold updateField at hr
  simp only [StateT.bind_eq_ok] at hr
  obtain ⟨payload, _, h₁, ⟨t, id, p⟩, _, hc, hr⟩ := hr
  obtain ⟨reader, rfl⟩ := RunM.read_spec h₁
  obtain ⟨rfl, ht, -, hf⟩ := currentField_spec hc
  obtain ⟨n, m, hn, hm, rfl⟩ := onNode_spec hr
  obtain ⟨htype, hmem, hslot⟩ := h.fieldOf ht hf
  have hfits := h.store.fits.node hp htype hn
  obtain ⟨hvalue, hother⟩ := Node.field?_writePayload hm
  refine (h.withReader reader).setNode hp ht hn (hfits.writePayload hmem hslot hm) fun q hq href => hother _ ?_
  intro heq
  obtain ⟨slot, hqs⟩ := ((hp.types t htype).measured q hq).slot_of_reference href
  rw [slotOf_eq hqs] at heq
  rw [(hp.types t htype).slot_unique hq hmem hqs (by rw [hslot, heq]), hvalue] at href
  cases href

theorem deleteField_sound (hp : schema.Placed) (hrec : Reciprocal schema) (h : r.Sound schema)
    (hr : deleteField schema r = .ok ((), r')) : r'.Sound schema := by
  unfold deleteField at hr
  simp only [StateT.bind_eq_ok] at hr
  obtain ⟨⟨t, id, p⟩, _, hc, hr⟩ := hr
  obtain ⟨rfl, ht, -, hf⟩ := currentField_spec hc
  obtain ⟨htype, hmem, hslot⟩ := h.fieldOf ht hf
  split at hr
  · rename_i href
    obtain ⟨u, q, hopp⟩ := hrec t htype p hmem href
    obtain ⟨store, hd, rfl⟩ := onStore_spec hr
    exact h.withStore (disconnectField_sound hp h.store hopp hd).1
  · rename_i hvalue
    obtain ⟨n, m, hn, hm, rfl⟩ := onNode_spec hr
    cases hm
    have hfits := h.store.fits.node hp htype hn
    refine h.setNode hp ht hn (hfits.dropField _) fun q hq href => ?_
    rw [Node.field?_dropField hfits.sorted, if_neg]
    intro heq
    obtain ⟨slot, hqs⟩ := ((hp.types t htype).measured q hq).slot_of_reference href
    rw [slotOf_eq hqs] at heq
    rw [(hp.types t htype).slot_unique hq hmem hqs (by rw [hslot, heq])] at href
    exact hvalue href

theorem deleteText_sound (hp : schema.Placed) (h : r.Sound schema) (hr : deleteText r = .ok ((), r')) :
    r'.Sound schema := by
  unfold deleteText at hr
  simp only [StateT.bind_eq_ok] at hr
  obtain ⟨locale, _, h₁, ⟨t, id, p⟩, _, hc, hr⟩ := hr
  obtain ⟨reader, rfl⟩ := RunM.read_spec h₁
  obtain ⟨rfl, ht, -, hf⟩ := currentField_spec hc
  obtain ⟨n, m, hn, hm, rfl⟩ := onNode_spec hr
  cases hm
  have htype := h.type t ht
  have hfits := h.store.fits.node hp htype hn
  refine (h.withReader reader).setNode hp ht hn (hfits.dropText _ _) fun q hq href => ?_
  refine Node.field?_dropText hfits.sorted _ _ fun entries htext => ?_
  obtain ⟨slot, hqs⟩ := ((hp.types t htype).measured q hq).slot_of_reference href
  rw [slotOf_eq hqs] at htext
  have : q.type = .text := hfits.content (hp.types t htype) hq hqs htext
  simp [this, PropType.isReference] at href

/-- What is written for a property of a type fits the layout of its links. -/
theorem edges_fit (hp : schema.Placed) {t : TypeLayout} (ht : t ∈ schema.types) {p : PropDef EdgeLayout}
    (hmem : p ∈ t.props) (k : Known) :
    ∀ u, p.edges = some u → ∀ block e, edgeNode k u block = .ok e → EdgeFits u e :=
  fun u hu _ _ he => edgeNode_fits (hp.edges t ht p hmem u hu) he

theorem setRef_sound (hp : schema.Placed) (hrec : Reciprocal schema) (h : r.Sound schema)
    (hr : setRef schema r = .ok ((), r')) : r'.Sound schema := by
  unfold setRef at hr
  simp only [StateT.bind_eq_ok, RunM.get_eq_ok] at hr
  obtain ⟨⟨t, id, p⟩, _, hc, _, _, ⟨rfl, rfl⟩, l, _, hl, hr⟩ := hr
  obtain ⟨rfl, ht, -, hf, hty⟩ := currentOfType_spec hc
  obtain ⟨htype, hmem, -⟩ := h.fieldOf ht hf
  obtain ⟨u, q, hopp⟩ := hrec t htype p hmem (by dsimp only at hty; rw [hty]; rfl)
  obtain ⟨reader, hread, rfl⟩ := RunM.scan_spec hl
  obtain ⟨store, hconnect, rfl⟩ := onStore_spec hr
  have hlinks := readEntry_spec (edges_fit hp htype hmem _) hread
  exact h.withStore (connectAll_sound hp h.store hopp
    (fun l hl => by
      have := hlinks l (by simpa using hl)
      exact ⟨this.fits, this.edges⟩) hconnect) |>.withReader reader

theorem linkRefs_sound (hp : schema.Placed) (hrec : Reciprocal schema) (h : r.Sound schema) {replace : Bool}
    (hr : linkRefs schema replace r = .ok ((), r')) : r'.Sound schema := by
  unfold linkRefs at hr
  simp only [StateT.bind_eq_ok, RunM.get_eq_ok] at hr
  obtain ⟨⟨t, id, p⟩, _, hc, n, _, hn, _, _, ⟨rfl, rfl⟩, ls, _, hls, hr⟩ := hr
  obtain ⟨rfl, ht, -, hf, hty⟩ := currentOfType_spec hc
  obtain ⟨reader, rfl⟩ := RunM.read_spec hn
  obtain ⟨htype, hmem, -⟩ := h.fieldOf ht hf
  obtain ⟨u, q, hopp⟩ := hrec t htype p hmem (by dsimp only at hty; rw [hty]; rfl)
  obtain ⟨reader', hread, rfl⟩ := RunM.scan_spec hls
  have hlinks := readEntries_spec (edges_fit hp htype hmem _) hread
  have hconnect : ∀ r r' : Run, r.Sound schema → onStore (connectAll schema t.id id p ls) r = .ok ((), r') →
      r'.Sound schema := fun r r' h hr => by
    obtain ⟨store, hconnect, rfl⟩ := onStore_spec hr
    exact h.withStore (connectAll_sound hp h.store hopp (fun l hl => ⟨(hlinks l hl).fits, (hlinks l hl).edges⟩) hconnect)
  have h' := h.withReader reader'
  split at hr
  · simp only [StateT.bind_eq_ok] at hr
    obtain ⟨_, _, hd, hr⟩ := hr
    obtain ⟨store, hf, rfl⟩ := onStore_spec hd
    obtain ⟨old, -, hall⟩ := Except.bind_eq_ok.1 hf
    exact hconnect _ _ (h'.withStore (disconnectAll_sound hp h'.store hopp hall).1) hr
  · exact hconnect _ _ h' hr

theorem removeRef_sound (hp : schema.Placed) (h : r.Sound schema) {t u : TypeLayout} {p q : PropDef EdgeLayout}
    (hopp : Opposite schema t p u q) {id : NodeId} (hr : removeRef schema t id p r = .ok ((), r')) :
    r'.Sound schema := by
  unfold removeRef at hr
  simp only [StateT.bind_eq_ok, RunM.get_eq_ok, RunM.lift_eq_ok] at hr
  obtain ⟨flags, _, h₁, raw, _, h₂, _, _, ⟨rfl, rfl⟩, target, _, ⟨-, rfl⟩, hr⟩ := hr
  obtain ⟨_, rfl⟩ := RunM.read_spec h₁
  obtain ⟨reader, rfl⟩ := RunM.read_spec h₂
  obtain ⟨store, hd, rfl⟩ := onStore_spec hr
  exact (h.withReader reader).withStore (disconnect_sound hp h.store hopp hd).1

theorem removeRefs_sound (hp : schema.Placed) {t u : TypeLayout} {p q : PropDef EdgeLayout}
    (hopp : Opposite schema t p u q) {id : NodeId} {n : Nat} (h : r.Sound schema)
    (hr : removeRefs schema t id p n r = .ok ((), r')) : r'.Sound schema := by
  induction n generalizing r with
  | zero =>
    cases hr
    exact h
  | succ n ih =>
    rw [removeRefs] at hr
    obtain ⟨_, r₁, h₁, h₂⟩ := StateT.bind_eq_ok.1 hr
    exact ih (removeRef_sound hp h hopp h₁) h₂

theorem unlinkRefs_sound (hp : schema.Placed) (hrec : Reciprocal schema) (h : r.Sound schema)
    (hr : unlinkRefs schema r = .ok ((), r')) : r'.Sound schema := by
  unfold unlinkRefs at hr
  simp only [StateT.bind_eq_ok] at hr
  obtain ⟨⟨t, id, p⟩, _, hc, n, _, hn, hr⟩ := hr
  obtain ⟨rfl, ht, -, hf, hty⟩ := currentOfType_spec hc
  obtain ⟨reader, rfl⟩ := RunM.read_spec hn
  obtain ⟨htype, hmem, -⟩ := h.fieldOf ht hf
  obtain ⟨u, q, hopp⟩ := hrec t htype p hmem (by dsimp only at hty; rw [hty]; rfl)
  exact removeRefs_sound hp hopp (h.withReader reader) hr

/-! ## Runs and batches -/

theorem RunM.ite_elim {c : Prop} [Decidable c] {x y : RunM Unit} {P : Prop} (hx : x r = .ok ((), r') → P)
    (hy : y r = .ok ((), r') → P) (h : (if c then x else y) r = .ok ((), r')) : P := by
  by_cases hc : c
  · rw [if_pos hc] at h
    exact hx h
  · rw [if_neg hc] at h
    exact hy h

/-- Every instruction keeps a run sound. -/
theorem runInstr_sound (hp : schema.Placed) (hrec : Reciprocal schema) (h : r.Sound schema)
    (hr : runInstr schema r = .ok ((), r')) : r'.Sound schema := by
  unfold runInstr at hr
  obtain ⟨opcode, r₁, hopcode, hrest⟩ := StateT.bind_eq_ok.1 hr
  obtain ⟨reader, hr₁⟩ := RunM.read_spec hopcode
  have h₁ : r₁.Sound schema := hr₁ ▸ h.withReader reader
  -- one case for each opcode, in the order of the dispatch
  refine RunM.ite_elim (selectType_sound h₁) ?_ hrest
  refine RunM.ite_elim (selectNode_sound h₁) ?_
  refine RunM.ite_elim (selectNode_sound h₁) ?_
  refine RunM.ite_elim (createNode_sound hp h₁) ?_
  refine RunM.ite_elim (selectField_sound h₁) ?_
  refine RunM.ite_elim (setMain_sound hp h₁) ?_
  refine RunM.ite_elim (setMainPart_sound hp h₁) ?_
  refine RunM.ite_elim (count_sound hp h₁) ?_
  refine RunM.ite_elim (count_sound hp h₁) ?_
  refine RunM.ite_elim (deleteCurrent_sound hp hrec h₁) ?_
  refine RunM.ite_elim (updateField_sound hp h₁) ?_
  refine RunM.ite_elim (deleteField_sound hp hrec h₁) ?_
  refine RunM.ite_elim (deleteText_sound hp h₁) ?_
  refine RunM.ite_elim (setRef_sound hp hrec h₁) ?_
  refine RunM.ite_elim (linkRefs_sound hp hrec h₁) ?_
  refine RunM.ite_elim (linkRefs_sound hp hrec h₁) ?_
  refine RunM.ite_elim (unlinkRefs_sound hp hrec h₁) fun h => ?_
  cases h

theorem runInstrs_sound (hp : schema.Placed) (hrec : Reciprocal schema) {n : Nat} (h : r.Sound schema)
    (hr : runInstrs schema n r = .ok ((), r')) : r'.Sound schema := by
  induction n generalizing r with
  | zero =>
    cases hr
    exact h
  | succ n ih =>
    rw [runInstrs] at hr
    simp only [StateT.bind_eq_ok, RunM.get_eq_ok] at hr
    obtain ⟨_, _, ⟨rfl, rfl⟩, hr⟩ := hr
    split at hr
    · cases hr
      exact h
    · obtain ⟨_, r₁, h₁, hr⟩ := StateT.bind_eq_ok.1 hr
      exact ih (runInstr_sound hp hrec h h₁) hr

/-- Every batch that is executed keeps the store sound. -/
theorem applyBatch_sound (hp : schema.Placed) (hrec : Reciprocal schema) {store store' : Store} {batch : Bytes}
    {ids : List NodeId} (h : store.Sound schema) (hb : applyBatch schema store batch = .ok (ids, store')) :
    store'.Sound schema := by
  obtain ⟨⟨_, r⟩, hr, hb⟩ := Except.bind_eq_ok.1 hb
  cases hb
  have hstart : (Run.start store batch).Sound schema := ⟨h, fun _ ht => (by cases ht), fun _ hf => (by cases hf)⟩
  exact (runInstrs_sound hp hrec hstart hr).store

/-- The memories that batches, of any bytes, lead to from an empty one. -/
inductive Reached (schema : SchemaLayout) : Memory → Prop where
  | new : Reached schema (.new schema)
  | apply (batch : Bytes) {m : Memory} : Reached schema m → Reached schema (m.apply batch).2
  | refuseNext (reason : String) {m : Memory} : Reached schema m → Reached schema (m.refuseNext reason)

theorem reached_sound (hp : schema.Placed) (hrec : Reciprocal schema) {m : Memory} (h : Reached schema m) :
    m.schema = schema ∧ m.store.Sound schema := by
  induction h with
  | new => exact ⟨rfl, .empty⟩
  | refuseNext reason h ih => exact ih
  | apply batch h ih =>
    obtain ⟨hschema, hs⟩ := ih
    unfold Memory.apply
    split
    · exact ⟨hschema, hs⟩
    · split
      · rename_i hb
        rw [hschema] at hb
        exact ⟨hschema, applyBatch_sound hp hrec hs hb⟩
      · exact ⟨hschema, hs⟩

/-! ## Both sides of every relation -/

/-- Both sides of every relation agree, and every field holds what its property takes. -/
structure Store.Consistent (schema : SchemaLayout) (s : Store) : Prop where
  /-- A node links to another exactly if that one exists and links back. -/
  back : ∀ t ∈ schema.types, ∀ p ∈ t.props, p.type.isReference = true → ∀ u q, inverseOf schema p = .ok (some (u, q)) →
    ∀ id n, s.node? t.id id = some n → ∀ target,
      target ∈ (n.links (slotOf p)).map (·.id) ↔
        ∃ m, s.node? u target = some m ∧ id ∈ (m.links (slotOf q)).map (·.id)
  /-- The two links of one pair store the same. -/
  edges : ∀ t ∈ schema.types, ∀ p ∈ t.props, p.type.isReference = true → ∀ u q, inverseOf schema p = .ok (some (u, q)) →
    ∀ id n, s.node? t.id id = some n → ∀ l ∈ n.links (slotOf p), ∀ m, s.node? u l.id = some m →
      ∀ l' ∈ m.links (slotOf q), l'.id = id → l.edges = l'.edges
  /-- A reference holds one link, a collection some links to different nodes, and any other field the content of its
  type. -/
  fields : ∀ type id n, s.node? type id = some n → ∃ t, schema.typeById? type = some t ∧
    ∀ slot c, n.field? slot = some c → ∃ p ∈ t.props, p.slot? = some slot ∧ c.Fits EdgeFits p

theorem Store.Sound.consistent (hp : schema.Placed) (hrec : Reciprocal schema) {s : Store} (h : s.Sound schema) :
    s.Consistent schema := by
  have hopp : ∀ t ∈ schema.types, ∀ p ∈ t.props, p.type.isReference = true → ∀ i q,
      inverseOf schema p = .ok (some (i, q)) → ∃ u, u.id = i ∧ Opposite schema t p u q := by
    intro t ht p hmem href i q hinv
    obtain ⟨u, q', hopp⟩ := hrec t ht p hmem href
    have := hopp.inverse
    rw [hinv] at this
    cases this
    exact ⟨u, rfl, hopp⟩
  refine ⟨?_, ?_, fun type id n hn => ?_⟩
  · intro t ht p hmem href i q hinv id n hn target
    obtain ⟨u, rfl, hopp⟩ := hopp t ht p hmem href i q hinv
    have hmirror := h.mirrored _ _ (.mk hopp id target)
    rw [← link?_isSome_iff hn, hmirror]
    constructor
    · intro hsome
      obtain ⟨e, he⟩ := Option.isSome_iff_exists.1 hsome
      obtain ⟨m, hm, -⟩ := Option.bind_eq_some_iff.1 he
      exact ⟨m, hm, (link?_isSome_iff hm).1 hsome⟩
    · rintro ⟨m, hm, hback⟩
      exact (link?_isSome_iff hm).2 hback
  · intro t ht p hmem href i q hinv id n hn l hl m hm l' hl' hid
    obtain ⟨u, rfl, hopp⟩ := hopp t ht p hmem href i q hinv
    have hmirror := h.mirrored _ _ (.mk hopp id l.id)
    have h1 : s.link? (endOf t p id l.id) = some l.edges := by
      change (s.node? t.id id).bind _ = _
      rw [hn]
      exact (h.fits.node hp ht hn).link?_of_mem hl
    have h2 : s.link? (endOf u q l.id id) = some l'.edges := by
      change (s.node? u.id l.id).bind _ = _
      rw [hm, ← hid]
      exact (h.fits.node hp hopp.target hm).link?_of_mem hl'
    rw [h1, h2] at hmirror
    exact Option.some.inj hmirror
  · obtain ⟨t, ht, hfits⟩ := h.fits.nodes _ _ _ hn
    exact ⟨t, ht, hfits.fields⟩

namespace Friends

/-- Users, each with a best friend who has that user as best friend. -/
def decl : SchemaDecl where
  locales := []
  types := [("user", [("best", .leaf .reference { reference := some "user", inverse := some "best" } [])])]

/-- The flattened property. -/
def flat : Schema.FlatProp := ⟨["best"], .reference, { reference := some "user", inverse := some "best" }, []⟩

def context : Schema.Context where
  typeNames := ["user"]
  localeIds := []
  priority := fun _ => PropDef.defaultPriority

def unplaced : PropDef EdgeLayout := Schema.unplaced context flat 0 false (some ⟨"user", 1, some "best"⟩) none

def best : PropDef EdgeLayout := { unplaced with location := .separate 1 }

def user : TypeLayout where
  name := "user"
  id := 1
  mainLen := 0
  props := [best]
  tree := [("best", .leaf 0)]
  mainDefaults := []

def layout : SchemaLayout := ⟨[user], [], Sha256.digest (describeSchema [user] [])⟩

theorem layoutOf_user : Schema.layoutOf context.priority "user" 1 [unplaced] = .ok user := by
  unfold Schema.layoutOf
  rw [show [unplaced].filter (·.isMain) = [] from rfl, List.mergeSort_nil,
    show ([unplaced].filter fun p => !p.isMain) = [unplaced] from rfl, List.mergeSort_singleton]
  rfl

theorem typeLayouts_user : Schema.typeLayouts context 1 [("user", [flat])] [] = .ok ([user], []) := by
  have htype : Schema.typeLayout context "user" 1 [flat] [] = .ok (user, []) := by
    unfold Schema.typeLayout
    rw [StateT.bind_eq_ok]
    refine ⟨(), [], rfl, StateT.bind_eq_ok.2 ⟨[unplaced], [], rfl, ?_⟩⟩
    exact StateT.lift_eq_ok.2 ⟨layoutOf_user, rfl⟩
  exact StateT.bind_eq_ok.2 ⟨user, [], htype, rfl⟩

theorem flattenTypes_decl : Schema.flattenTypes ∅ decl.types = .ok [("user", [flat])] := by
  rw [decl, Schema.flattenTypes, if_neg (by simp)]
  rfl

theorem compile_decl : decl.compile = .ok layout := by
  have hsort : Schema.sortTypes [("user", [flat])] = [("user", [flat])] := List.mergeSort_singleton _
  have hlocales : Schema.compileLocales decl.locales = .ok [] := by
    simp [Schema.compileLocales, decl, Schema.dropRepeated]
    rfl
  unfold SchemaDecl.compile
  rw [hlocales, flattenTypes_decl]
  refine Except.bind_eq_ok.2 ⟨[], rfl, ?_⟩
  rw [if_neg (by decide)]
  refine Except.bind_eq_ok.2 ⟨_, rfl, Except.bind_eq_ok.2 ⟨[("user", [flat])], by rw [hsort]; rfl, ?_⟩⟩
  exact Except.bind_eq_ok.2 ⟨([user], []), typeLayouts_user, rfl⟩

theorem reciprocal_layout : Reciprocal layout := by
  intro t ht p hp _
  obtain rfl := List.mem_singleton.1 ht
  obtain rfl := List.mem_singleton.1 hp
  exact ⟨user, best, List.mem_singleton.2 rfl, List.mem_singleton.2 rfl, rfl, rfl, List.mem_singleton.2 rfl,
    List.mem_singleton.2 rfl, rfl, rfl⟩

end Friends

end NodeStore.Engine
