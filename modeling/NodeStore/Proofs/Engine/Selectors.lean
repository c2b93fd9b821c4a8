import NodeStore.Proofs.Engine.Execution
import NodeStore.Proofs.Write.Items

/-!
# What a run has selected

Whatever batch of instructions is accepted, each of them is read to its end, and the run has selected what the selectors
so far say.

* `Instr.Readable`: the lengths of an instruction fit into the bytes for them.
* `Run.Agrees`: the type, the node and the field of a run are those that are called for.
* `runInstr_agrees`: what one accepted instruction does to the selection; `runInstrs_agrees`: the whole batch.
-/

namespace NodeStore

open Wire (Reads Reader)

/-! ### Taking bytes -/

section

variable {ε α β : Type}

/-- Where it succeeds, the action takes exactly these bytes, whatever follows them. -/
def Wire.Consumes (x : EStateM ε Reader α) (bs : Bytes) : Prop :=
  ∀ pos rest a r', x ⟨pos, bs ++ rest⟩ = .ok a r' → r' = ⟨pos + bs.length, rest⟩

namespace Wire.Consumes

theorem pure (a : α) : Consumes (Pure.pure a : EStateM ε Reader α) [] := by
  intro pos rest b r' h
  cases h
  rfl

theorem bind {x : EStateM ε Reader α} {f : α → EStateM ε Reader β} {bs cs : Bytes} (hx : Consumes x bs)
    (hf : ∀ a, Consumes (f a) cs) : Consumes (x >>= f) (bs ++ cs) := by
  intro pos rest b r'' h
  obtain ⟨a, r', ha, hb⟩ := EStateM.bind_eq_ok.1 h
  rw [List.append_assoc] at ha
  cases hx _ _ _ _ ha
  rw [hf a _ _ _ _ hb, List.length_append, Nat.add_assoc]

theorem bind_nil {x : EStateM ε Reader α} {f : α → EStateM ε Reader β} (hx : Consumes x []) (hf : ∀ a, Consumes (f a) []) :
    Consumes (x >>= f) [] := hx.bind hf

/-- What is read first is known to what comes next. -/
theorem bind_reads {x : EStateM ε Reader α} {f : α → EStateM ε Reader β} {bs cs : Bytes} {a : α} (hx : Reads x bs a)
    (hf : Consumes (f a) cs) : Consumes (x >>= f) (bs ++ cs) := by
  intro pos rest b r'' h
  obtain ⟨a', r', ha, hb⟩ := EStateM.bind_eq_ok.1 h
  rw [List.append_assoc, hx] at ha
  cases ha
  rw [hf _ _ _ _ hb, List.length_append, Nat.add_assoc]

end Wire.Consumes

end

namespace Engine

open Wire (Consumes)
open Write (Instr RefEntry NodeTarget Selection encodeAll encodeAll_cons encodeAll_append)

theorem Scan.consumes_ofExcept {α : Type} (x : Except Fault α) : Consumes (liftM x : Scan α) [] := by
  intro pos rest a r' h
  obtain ⟨-, h⟩ := Scan.lift_eq_ok.1 h
  exact h.symm

theorem Scan.reads {α : Type} {x : Wire.Read α} {bs : Bytes} {a : α} (h : Reads x bs a) : Reads (liftM x : Scan α) bs a := by
  intro pos rest
  change Scan.ofRead x _ = _
  rw [Scan.ofRead, h]

/-! ### Written references -/

/-- The block of a link has a length of four bytes. -/
def RefEntry.Readable (e : RefEntry) : Prop := ∀ block, e.edges = some block → block.length < 2 ^ 32

theorem RefEntry.edgesFlag_flags (e : RefEntry) :
    e.flags &&& RefEntry.edgesFlag = if e.edges.isSome then RefEntry.edgesFlag else 0 := by
  have hflags : ∀ kind ∈ [0, RefEntry.tmpFlag, RefEntry.deferredFlag], (kind ||| 0) &&& RefEntry.edgesFlag = 0 ∧
      (kind ||| RefEntry.edgesFlag) &&& RefEntry.edgesFlag = RefEntry.edgesFlag := by decide +kernel
  obtain ⟨target, edges⟩ := e
  cases edges with
  | none => cases target <;> exact (hflags _ (by simp)).1
  | some block => cases target <;> exact (hflags _ (by simp)).2

theorem reads_readBlock {e : RefEntry} (he : RefEntry.Readable e) : Reads (readBlock e.flags) e.block e.edges := by
  unfold readBlock RefEntry.block
  rw [RefEntry.edgesFlag_flags]
  cases hedges : e.edges with
  | none => exact .pure _
  | some block => exact (Scan.reads (.sized (he block hedges) _)).map

variable {L E : Type} {k : Known} {edgesOf : L → Bytes → Except Fault E} {p : PropDef L}

theorem consumes_readEntry {e : RefEntry} (he : RefEntry.Readable e) : Consumes (readEntry k edgesOf p) e.encode := by
  rw [RefEntry.encode_eq]
  unfold readEntry
  refine .bind_reads (Scan.reads (.byte _ _)) (.bind_reads (Scan.reads (.u32 _ _)) ?_)
  rw [← List.append_nil e.block]
  refine .bind_reads (reads_readBlock he) ?_
  split
  · exact .pure _
  · refine .bind_nil (Scan.consumes_ofExcept _) fun id => ?_
    exact .bind_nil (Scan.consumes_ofExcept _) fun l => .pure _

theorem consumes_readEntries {es : List RefEntry} (hes : ∀ e ∈ es, RefEntry.Readable e) :
    Consumes (readEntries k edgesOf p es.length) (es.flatMap RefEntry.encode) := by
  induction es with
  | nil => exact .pure _
  | cons e es ih =>
    rw [List.length_cons, readEntries, List.flatMap_cons]
    refine .bind (consumes_readEntry (hes e List.mem_cons_self)) fun l => ?_
    rw [← List.append_nil (es.flatMap _)]
    exact .bind (ih fun e he => hes e (List.mem_cons_of_mem _ he)) fun ls => .pure _

theorem createdId_eq_ok {created : List (TypeId × NodeId)} {tmp : UInt32} {type : TypeId} {id : NodeId} :
    createdId created tmp type = .ok id ↔ created[tmp.toNat]? = some (type, id) := by
  unfold createdId
  cases created[tmp.toNat]? with
  | none => simp
  | some x =>
    obtain ⟨t, i⟩ := x
    by_cases ht : t = type <;> simp [ht]

/-! ### Single instructions -/

variable {schema : SchemaLayout} {s s' : Run} {pos : Nat} {rest : Bytes}

/-- The run with its reader somewhere else. -/
def Run.at (s : Run) (pos : Nat) (rest : Bytes) : Run := { s with reader := ⟨pos, rest⟩ }

/-- What stands next is read. -/
theorem RunM.reads {α : Type} {x : Wire.Read α} {bs : Bytes} {a b : α} (h : Reads x bs a)
    (hx : (liftM x : RunM α) (s.at pos (bs ++ rest)) = .ok (b, s')) : b = a ∧ s' = s.at (pos + bs.length) rest := by
  have hread := RunM.read_ok h s pos rest
  rw [Run.at, hread] at hx
  cases hx
  exact ⟨rfl, rfl⟩

theorem RunM.consumes {α : Type} {x : Scan α} {bs : Bytes} {a : α} (h : Consumes x bs)
    (hx : (liftM x : RunM α) (s.at pos (bs ++ rest)) = .ok (a, s')) : s' = s.at (pos + bs.length) rest := by
  obtain ⟨reader, hread, rfl⟩ := RunM.scan_spec hx
  rw [h _ _ _ _ hread]
  rfl

/-- The reader stands at a place and, apart from it, nothing but the store may be another one. -/
structure Run.Wrote (s s' : Run) (pos : Nat) (rest : Bytes) : Prop where
  reader : s'.reader = ⟨pos, rest⟩
  created : s'.created = s.created
  type : s'.type = s.type
  node : s'.node = s.node
  field : s'.field = s.field

theorem Run.wrote_onStore {f : Store → Except Fault Store} {u : Unit} (h : onStore f (s.at pos rest) = .ok (u, s')) :
    s.Wrote s' pos rest := by
  obtain ⟨store, -, rfl⟩ := onStore_spec h
  exact ⟨rfl, rfl, rfl, rfl, rfl⟩

theorem Run.wrote_onNode {type : TypeId} {id : NodeId} {f : StoredNode → Except Fault StoredNode} {u : Unit}
    (h : onNode type id f (s.at pos rest) = .ok (u, s')) : s.Wrote s' pos rest := Run.wrote_onStore h

theorem selectType_ok {type : TypeId} (h : selectType schema (s.at pos (leBytes 2 type.toNat ++ rest)) = .ok ((), s')) :
    ∃ t, schema.typeById? type = some t ∧
      s' = { s.at (pos + 2) rest with type := some t, node := none, field := none } := by
  unfold selectType at h
  simp only [StateT.bind_eq_ok, RunM.lift_eq_ok, RunM.modify_eq_ok] at h
  obtain ⟨id, _, hid, t, _, ⟨ht, rfl⟩, rfl⟩ := h
  obtain ⟨rfl, rfl⟩ := RunM.reads (.u16 type _) hid
  exact ⟨t, (layoutOf_eq_ok ht).2, by simp [Run.at]⟩

theorem selectNode_ok {tmp : Bool} {raw : UInt32} (h : selectNode tmp (s.at pos (leBytes 4 raw.toNat ++ rest)) = .ok ((), s')) :
    ∃ t id, s.type = some t ∧ (if tmp then createdId s.created raw t.id else .ok raw) = .ok id ∧
      s' = { s.at (pos + 4) rest with node := some id, field := none } := by
  unfold selectNode at h
  simp only [StateT.bind_eq_ok, RunM.get_eq_ok, RunM.lift_eq_ok] at h
  obtain ⟨_, _, hraw, _, _, ⟨rfl, rfl⟩, t, _, ⟨ht, rfl⟩, h⟩ := h
  obtain ⟨rfl, rfl⟩ := RunM.reads (.u32 raw _) hraw
  cases tmp with
  | false =>
    simp only [Bool.false_eq_true, if_false, StateT.bind_eq_ok, RunM.lift_eq_ok, StateT.pure_eq_ok, Prod.mk.injEq,
      RunM.set_eq_ok] at h
    obtain ⟨id, _, ⟨rfl, rfl⟩, n, _, ⟨-, rfl⟩, rfl⟩ := h
    exact ⟨t, id, orFail_eq_ok.1 ht, rfl, by simp [Run.at]⟩
  | true =>
    simp only [if_true, StateT.bind_eq_ok, RunM.lift_eq_ok, RunM.set_eq_ok] at h
    obtain ⟨id, _, ⟨hid, rfl⟩, n, _, ⟨-, rfl⟩, rfl⟩ := h
    exact ⟨t, id, orFail_eq_ok.1 ht, hid, by simp [Run.at]⟩

theorem createNode_ok {tmp : UInt32} (h : createNode (s.at pos (leBytes 4 tmp.toNat ++ rest)) = .ok ((), s')) :
    ∃ t, s.type = some t ∧ tmp.toNat = s.created.length ∧
      s' = { s.at (pos + 4) rest with
        store := (s.store.create t).2, created := s.created ++ [(t.id, (s.store.create t).1)],
        node := some (s.store.create t).1, field := none } := by
  unfold createNode at h
  simp only [StateT.bind_eq_ok, RunM.get_eq_ok, RunM.lift_eq_ok] at h
  obtain ⟨_, _, htmp, _, _, ⟨rfl, rfl⟩, t, _, ⟨ht, rfl⟩, h⟩ := h
  obtain ⟨rfl, rfl⟩ := RunM.reads (.u32 tmp _) htmp
  split at h
  · cases h
  · rename_i horder
    split at h
    · cases h
    · cases RunM.set_eq_ok.1 h
      exact ⟨t, orFail_eq_ok.1 ht, not_not.1 horder, by simp [Run.at]⟩

theorem selectField_ok {slot tag : UInt8} (h : selectField (s.at pos ([slot] ++ ([tag] ++ rest))) = .ok ((), s')) :
    ∃ t id p, s.type = some t ∧ s.node = some id ∧ t.propBySlot? slot = some p ∧
      s' = { s.at (pos + 2) rest with field := some p } := by
  unfold selectField at h
  simp only [StateT.bind_eq_ok, RunM.lift_eq_ok, RunM.modify_eq_ok] at h
  obtain ⟨_, _, hslot, _, _, htag, ⟨t, id⟩, _, hc, p, _, ⟨hp, rfl⟩, rfl⟩ := h
  obtain ⟨rfl, rfl⟩ := RunM.reads (.byte _ slot) hslot
  obtain ⟨rfl, rfl⟩ := RunM.reads (.byte _ tag) htag
  obtain ⟨rfl, ht, hn⟩ := current_spec hc
  refine ⟨t, id, p, ht, hn, ?_, by simp [Run.at]⟩
  unfold fieldAt at hp
  split at hp
  · cases hp
  · rename_i hfound
    split at hp
    · cases hp
      exact hfound
    · cases hp

theorem deleteCurrent_ok (h : deleteCurrent schema (s.at pos rest) = .ok ((), s')) :
    ∃ store, s' = { s.at pos rest with store, node := none, field := none } := by
  unfold deleteCurrent at h
  simp only [StateT.bind_eq_ok, RunM.modify_eq_ok] at h
  obtain ⟨⟨t, id⟩, _, hc, _, _, hs, rfl⟩ := h
  obtain ⟨rfl, -, -⟩ := current_spec hc
  obtain ⟨store, -, rfl⟩ := onStore_spec hs
  exact ⟨store, rfl⟩

theorem setMain_ok {block : Bytes} (hb : block.length < 2 ^ 32) (h : setMain (s.at pos (Wire.sized block ++ rest)) = .ok ((), s')) :
    s.Wrote s' (pos + (Wire.sized block).length) rest := by
  unfold setMain at h
  simp only [StateT.bind_eq_ok] at h
  obtain ⟨_, _, hblock, ⟨t, id⟩, _, hc, h⟩ := h
  obtain ⟨rfl, rfl⟩ := RunM.reads (.sized hb _) hblock
  obtain ⟨rfl, -, -⟩ := current_spec hc
  split at h
  · cases h
  · exact Run.wrote_onNode h

theorem setMainPart_ok {offset : Nat} {bytes : Bytes} (ho : offset < 2 ^ 32) (hb : bytes.length < 2 ^ 16)
    (h : setMainPart (s.at pos (leBytes 4 offset ++ (leBytes 2 bytes.length ++ (bytes ++ rest)))) = .ok ((), s')) :
    s.Wrote s' (pos + 4 + 2 + bytes.length) rest := by
  unfold setMainPart at h
  simp only [StateT.bind_eq_ok] at h
  obtain ⟨_, _, h₁, _, _, h₂, _, _, h₃, ⟨t, id⟩, _, hc, h⟩ := h
  obtain ⟨rfl, rfl⟩ := RunM.reads (.nat ho _) h₁
  obtain ⟨rfl, rfl⟩ := RunM.reads (.nat hb _) h₂
  obtain ⟨rfl, rfl⟩ := RunM.reads (.bytes rfl _) h₃
  obtain ⟨rfl, -, -⟩ := current_spec hc
  simp only [length_leBytes] at h
  exact Run.wrote_onNode h

theorem count_ok {decrement : Bool} {tag : UInt8} {offset : Nat} {amount : Bytes} (ho : offset < 2 ^ 32)
    (ha : ∀ type, PropType.ofTag? tag = some type → type.isNumeric = true → amount.length = type.fixedWidth.getD 0)
    (h : count decrement (s.at pos ([tag] ++ (leBytes 4 offset ++ (amount ++ rest)))) = .ok ((), s')) :
    s.Wrote s' (pos + 1 + 4 + amount.length) rest := by
  unfold count at h
  simp only [StateT.bind_eq_ok, RunM.lift_eq_ok] at h
  obtain ⟨_, _, h₁, _, _, h₂, type, _, ⟨htype, rfl⟩, _, _, h₃, ⟨t, id⟩, _, hc, h⟩ := h
  obtain ⟨rfl, rfl⟩ := RunM.reads (.byte _ tag) h₁
  obtain ⟨rfl, rfl⟩ := RunM.reads (.nat ho _) h₂
  obtain ⟨htag, hnumeric⟩ := Option.filter_eq_some_iff.1 (orFail_eq_ok.1 htype)
  obtain ⟨rfl, rfl⟩ := RunM.reads (.bytes (ha type htag hnumeric) _) h₃
  obtain ⟨rfl, -, -⟩ := current_spec hc
  simp only [length_leBytes, List.length_singleton] at h
  exact Run.wrote_onNode h

theorem updateField_ok {payload : Bytes} (hb : payload.length < 2 ^ 32)
    (h : updateField (s.at pos (Wire.sized payload ++ rest)) = .ok ((), s')) :
    s.Wrote s' (pos + (Wire.sized payload).length) rest := by
  unfold updateField at h
  simp only [StateT.bind_eq_ok] at h
  obtain ⟨_, _, hpayload, ⟨t, id, p⟩, _, hc, h⟩ := h
  obtain ⟨rfl, rfl⟩ := RunM.reads (.sized hb _) hpayload
  obtain ⟨rfl, -, -, -⟩ := currentField_spec hc
  exact Run.wrote_onNode h

theorem deleteField_ok (h : deleteField schema (s.at pos rest) = .ok ((), s')) : s.Wrote s' pos rest := by
  unfold deleteField at h
  obtain ⟨⟨t, id, p⟩, _, hc, h⟩ := StateT.bind_eq_ok.1 h
  obtain ⟨rfl, -, -, -⟩ := currentField_spec hc
  exact RunM.ite_elim Run.wrote_onStore Run.wrote_onNode h

theorem deleteText_ok {locale : UInt8} (h : deleteText (s.at pos ([locale] ++ rest)) = .ok ((), s')) :
    s.Wrote s' (pos + 1) rest := by
  unfold deleteText at h
  simp only [StateT.bind_eq_ok] at h
  obtain ⟨_, _, hlocale, ⟨t, id, p⟩, _, hc, h⟩ := h
  obtain ⟨rfl, rfl⟩ := RunM.reads (.byte _ locale) hlocale
  obtain ⟨rfl, -, -, -⟩ := currentField_spec hc
  exact Run.wrote_onNode h

theorem setRef_ok {e : RefEntry} (he : RefEntry.Readable e) (h : setRef schema (s.at pos (e.encode ++ rest)) = .ok ((), s')) :
    s.Wrote s' (pos + e.encode.length) rest := by
  unfold setRef at h
  simp only [StateT.bind_eq_ok, RunM.get_eq_ok] at h
  obtain ⟨⟨t, id, p⟩, _, hc, _, _, ⟨rfl, rfl⟩, l, _, hl, h⟩ := h
  obtain ⟨rfl, -, -, -, -⟩ := currentOfType_spec hc
  cases RunM.consumes (consumes_readEntry he) hl
  exact Run.wrote_onStore h

theorem linkRefs_ok {replace : Bool} {es : List RefEntry} (hlen : es.length < 2 ^ 32) (hes : ∀ e ∈ es, RefEntry.Readable e)
    (h : linkRefs schema replace (s.at pos (leBytes 4 es.length ++ (es.flatMap RefEntry.encode ++ rest))) = .ok ((), s')) :
    s.Wrote s' (pos + 4 + (es.flatMap RefEntry.encode).length) rest := by
  unfold linkRefs at h
  simp only [StateT.bind_eq_ok, RunM.get_eq_ok] at h
  obtain ⟨⟨t, id, p⟩, _, hc, _, _, hn, _, _, ⟨rfl, rfl⟩, ls, _, hls, h⟩ := h
  obtain ⟨rfl, -, -, -, -⟩ := currentOfType_spec hc
  obtain ⟨rfl, rfl⟩ := RunM.reads (.nat hlen _) hn
  cases RunM.consumes (consumes_readEntries hes) hls
  simp only [length_leBytes] at h
  split at h
  · simp only [StateT.bind_eq_ok] at h
    obtain ⟨_, s₁, hd, h⟩ := h
    obtain ⟨store, -, rfl⟩ := onStore_spec hd
    obtain ⟨store', -, rfl⟩ := onStore_spec h
    exact ⟨rfl, rfl, rfl, rfl, rfl⟩
  · exact Run.wrote_onStore h

theorem removeRef_ok {t : TypeLayout} {id : NodeId} {p : PropDef EdgeLayout} {e : RefEntry} (he : e.edges = none)
    (h : removeRef schema t id p (s.at pos (e.encode ++ rest)) = .ok ((), s')) :
    s.Wrote s' (pos + e.encode.length) rest := by
  have hencode : e.encode = [e.flags] ++ leBytes 4 e.word.toNat := by
    rw [RefEntry.encode_eq, RefEntry.block, he, List.append_nil]
  rw [hencode, List.append_assoc] at h
  rw [hencode, List.length_append, ← Nat.add_assoc]
  unfold removeRef at h
  simp only [StateT.bind_eq_ok, RunM.get_eq_ok, RunM.lift_eq_ok] at h
  obtain ⟨_, _, h₁, _, _, h₂, _, _, ⟨rfl, rfl⟩, target, _, ⟨-, rfl⟩, h⟩ := h
  obtain ⟨rfl, rfl⟩ := RunM.reads (.byte _ _) h₁
  obtain ⟨rfl, rfl⟩ := RunM.reads (.u32 _ _) h₂
  exact Run.wrote_onStore h

theorem removeRefs_ok {t : TypeLayout} {id : NodeId} {p : PropDef EdgeLayout} {es : List RefEntry}
    (hes : ∀ e ∈ es, e.edges = none)
    (h : removeRefs schema t id p es.length (s.at pos (es.flatMap RefEntry.encode ++ rest)) = .ok ((), s')) :
    s.Wrote s' (pos + (es.flatMap RefEntry.encode).length) rest := by
  induction es generalizing s pos with
  | nil =>
    cases h
    exact ⟨rfl, rfl, rfl, rfl, rfl⟩
  | cons e es ih =>
    rw [List.length_cons, removeRefs, List.flatMap_cons, List.append_assoc] at h
    obtain ⟨_, s₁, h₁, h⟩ := StateT.bind_eq_ok.1 h
    have hfirst := removeRef_ok (hes e List.mem_cons_self) h₁
    have hat : s₁ = s₁.at (pos + e.encode.length) (es.flatMap RefEntry.encode ++ rest) := by
      rw [Run.at, ← hfirst.reader]
    rw [hat] at h
    have hrest := ih (fun e he => hes e (List.mem_cons_of_mem _ he)) h
    rw [Nat.add_assoc, ← List.length_append] at hrest
    exact ⟨hrest.reader, hrest.created.trans hfirst.created, hrest.type.trans hfirst.type,
      hrest.node.trans hfirst.node, hrest.field.trans hfirst.field⟩

theorem unlinkRefs_ok {es : List RefEntry} (hlen : es.length < 2 ^ 32) (hes : ∀ e ∈ es, e.edges = none)
    (h : unlinkRefs schema (s.at pos (leBytes 4 es.length ++ (es.flatMap RefEntry.encode ++ rest))) = .ok ((), s')) :
    s.Wrote s' (pos + 4 + (es.flatMap RefEntry.encode).length) rest := by
  unfold unlinkRefs at h
  simp only [StateT.bind_eq_ok] at h
  obtain ⟨⟨t, id, p⟩, _, hc, _, _, hn, h⟩ := h
  obtain ⟨rfl, -, -, -, -⟩ := currentOfType_spec hc
  obtain ⟨rfl, rfl⟩ := RunM.reads (.nat hlen _) hn
  rw [length_leBytes] at h
  exact removeRefs_ok hes h

/-! ### Instructions -/

/-- The lengths of an instruction fit into the bytes for them. -/
def Instr.Readable : Instr → Prop
  | .mainBlock block => block.length < 2 ^ 32
  | .mainField offset bytes => offset < 2 ^ 32 ∧ bytes.length < 2 ^ 16
  | .updateField payload => payload.length < 2 ^ 32
  | .count _ tag offset amount => offset < 2 ^ 32 ∧
      ∀ type, PropType.ofTag? tag = some type → type.isNumeric = true → amount.length = type.fixedWidth.getD 0
  | .setRef e => RefEntry.Readable e
  | .setRefs es | .addRefs es => es.length < 2 ^ 32 ∧ ∀ e ∈ es, RefEntry.Readable e
  | .removeRefs es => es.length < 2 ^ 32 ∧ ∀ e ∈ es, e.edges = none
  | _ => True

theorem Instr.length_encodeItems (es : List RefEntry) :
    (Instr.encodeItems es).length = 4 + (es.flatMap RefEntry.encode).length := by
  rw [Instr.encodeItems, List.length_append, length_leBytes]

theorem RefEntry.readable_of_length {e : RefEntry} (h : e.encode.length < 2 ^ 32) : RefEntry.Readable e := by
  intro block hblock
  rw [RefEntry.encode_eq, RefEntry.block, hblock, List.length_append, List.length_append, Wire.length_sized] at h
  omega

theorem Instr.readable_of_items {es : List RefEntry} (h : (Instr.encodeItems es).length < 2 ^ 32) :
    es.length < 2 ^ 32 ∧ ∀ e ∈ es, RefEntry.Readable e := by
  rw [length_encodeItems] at h
  have hcount := Wire.length_le_length_flatMap RefEntry.length_encode_pos es
  refine ⟨by omega, fun e he => RefEntry.readable_of_length ?_⟩
  have hone := Wire.length_le_flatMap_of_mem RefEntry.encode he
  omega

/-- The node of a type that a target denotes in a run. -/
def Run.Denotes (s : Run) (type : TypeId) (id : NodeId) : NodeTarget → Prop
  | .id n => id = n
  | .tmp n => s.created[n.toNat]? = some (type, id)
  | .link => False

/-- The run has selected what is called for. -/
structure Run.Agrees (schema : SchemaLayout) (s : Run) (sel : Selection) : Prop where
  type : ∀ type, sel.type = some type → ∃ t, schema.typeById? type = some t ∧ s.type = some t
  node : ∀ n, sel.node = some n → ∃ t id, s.type = some t ∧ s.node = some id ∧ s.Denotes t.id id n
  slot : ∀ slot, sel.slot = some slot → ∃ t p, s.type = some t ∧ t.propBySlot? slot = some p ∧ s.field = some p

theorem Run.Agrees.none (s : Run) : s.Agrees schema .none := ⟨nofun, nofun, nofun⟩

theorem Run.Denotes.mono {t : TypeId} {id : NodeId} {n : NodeTarget} (h : s.Denotes t id n)
    (hc : ∃ more, s'.created = s.created ++ more) : s'.Denotes t id n := by
  obtain ⟨more, hc⟩ := hc
  cases n with
  | id m => exact h
  | link => exact h
  | tmp k =>
    change s'.created[k.toNat]? = _
    rw [hc, List.getElem?_append_left (List.getElem?_eq_some_iff.1 h).1]
    exact h

theorem Run.Wrote.agrees (h : s.Wrote s' pos rest) {sel : Selection} (ha : s.Agrees schema sel) : s'.Agrees schema sel where
  type := h.type ▸ ha.type
  node n hn := by
    obtain ⟨t, id, ht, hid, hd⟩ := ha.node n hn
    exact ⟨t, id, h.type.trans ht, h.node.trans hid, hd.mono ⟨[], by rw [h.created, List.append_nil]⟩⟩
  slot := h.type ▸ h.field ▸ ha.slot

/-- The instructions that change what is selected. -/
def Instr.selects : Instr → Bool
  | .selectType _ | .selectNode _ | .selectTmp _ | .createNode _ | .selectField _ _ | .deleteNode => true
  | _ => false

theorem Instr.step_of_selects {i : Instr} (hi : Instr.selects i = false) (sel : Selection) : sel.step i = sel := by
  cases i <;> first | rfl | cases hi

/-! ### By their opcodes -/

section

variable (s : Run) (pos : Nat) (rest : Bytes)

theorem runInstr_mainBlock (block : Bytes) : runInstr schema (s.at pos (Instr.encode (.mainBlock block) ++ rest)) =
    setMain (s.at (pos + 1) (Wire.sized block ++ rest)) := by
  rw [Instr.encode, List.cons_append]
  generalize Wire.sized block ++ rest = operands
  rfl

theorem runInstr_mainField (offset : Nat) (bytes : Bytes) :
    runInstr schema (s.at pos (Instr.encode (.mainField offset bytes) ++ rest)) =
      setMainPart (s.at (pos + 1) (leBytes 4 offset ++ (leBytes 2 bytes.length ++ (bytes ++ rest)))) := by
  simp only [Instr.encode, List.cons_append, List.append_assoc]
  rfl

theorem runInstr_updateField (payload : Bytes) : runInstr schema (s.at pos (Instr.encode (.updateField payload) ++ rest)) =
    updateField (s.at (pos + 1) (Wire.sized payload ++ rest)) := by
  rw [Instr.encode, List.cons_append]
  generalize Wire.sized payload ++ rest = operands
  rfl

theorem runInstr_deleteField :
    runInstr schema (s.at pos (Instr.encode .deleteField ++ rest)) = deleteField schema (s.at (pos + 1) rest) := by
  rw [Instr.encode, List.singleton_append]
  rfl

theorem runInstr_deleteText (locale : UInt8) : runInstr schema (s.at pos (Instr.encode (.deleteText locale) ++ rest)) =
    deleteText (s.at (pos + 1) ([locale] ++ rest)) := by
  rw [Instr.encode, List.cons_append]
  rfl

theorem runInstr_count (decrement : Bool) (tag : UInt8) (offset : Nat) (amount : Bytes) :
    runInstr schema (s.at pos (Instr.encode (.count decrement tag offset amount) ++ rest)) =
      count decrement (s.at (pos + 1) ([tag] ++ (leBytes 4 offset ++ (amount ++ rest)))) := by
  simp only [Instr.encode, List.cons_append, List.append_assoc]
  cases decrement <;> rfl

theorem runInstr_deleteNode :
    runInstr schema (s.at pos (Instr.encode .deleteNode ++ rest)) = deleteCurrent schema (s.at (pos + 1) rest) := by
  rw [Instr.encode, List.singleton_append]
  rfl

theorem runInstr_setRef (e : RefEntry) : runInstr schema (s.at pos (Instr.encode (.setRef e) ++ rest)) =
    setRef schema (s.at (pos + 1) (e.encode ++ rest)) := by
  rw [Instr.encode, List.cons_append]
  rfl

theorem runInstr_setRefs (es : List RefEntry) : runInstr schema (s.at pos (Instr.encode (.setRefs es) ++ rest)) =
    linkRefs schema true (s.at (pos + 1) (leBytes 4 es.length ++ (es.flatMap RefEntry.encode ++ rest))) := by
  rw [Instr.encode, Instr.encodeItems, List.cons_append, List.append_assoc]
  rfl

theorem runInstr_addRefs (es : List RefEntry) : runInstr schema (s.at pos (Instr.encode (.addRefs es) ++ rest)) =
    linkRefs schema false (s.at (pos + 1) (leBytes 4 es.length ++ (es.flatMap RefEntry.encode ++ rest))) := by
  rw [Instr.encode, Instr.encodeItems, List.cons_append, List.append_assoc]
  rfl

theorem runInstr_removeRefs (es : List RefEntry) : runInstr schema (s.at pos (Instr.encode (.removeRefs es) ++ rest)) =
    unlinkRefs schema (s.at (pos + 1) (leBytes 4 es.length ++ (es.flatMap RefEntry.encode ++ rest))) := by
  rw [Instr.encode, Instr.encodeItems, List.cons_append, List.append_assoc]
  rfl

end

/-- An instruction that selects nothing is read to its end and changes the store only. -/
theorem runInstr_wrote {i : Instr} (hi : Instr.Readable i) (hs : Instr.selects i = false)
    (h : runInstr schema (s.at pos (i.encode ++ rest)) = .ok ((), s')) : s.Wrote s' (pos + i.encode.length) rest := by
  cases i with
  | selectType | selectNode | selectTmp | createNode | selectField | deleteNode => cases hs
  | mainBlock block =>
    rw [runInstr_mainBlock] at h
    rw [Instr.encode, List.length_cons, Nat.add_comm _ 1, ← Nat.add_assoc]
    exact setMain_ok hi h
  | mainField offset bytes =>
    rw [runInstr_mainField] at h
    have hw := setMainPart_ok hi.1 hi.2 h
    simpa [Instr.encode, Nat.add_assoc, Nat.add_comm, Nat.add_left_comm] using hw
  | updateField payload =>
    rw [runInstr_updateField] at h
    rw [Instr.encode, List.length_cons, Nat.add_comm _ 1, ← Nat.add_assoc]
    exact updateField_ok hi h
  | deleteField =>
    rw [runInstr_deleteField] at h
    exact deleteField_ok h
  | deleteText locale =>
    rw [runInstr_deleteText] at h
    exact deleteText_ok h
  | count decrement tag offset amount =>
    rw [runInstr_count] at h
    have hw := count_ok hi.1 hi.2 h
    simpa [Instr.encode, Nat.add_assoc, Nat.add_comm, Nat.add_left_comm] using hw
  | setRef e =>
    rw [runInstr_setRef] at h
    rw [Instr.encode, List.length_cons, Nat.add_comm _ 1, ← Nat.add_assoc]
    exact setRef_ok hi h
  | setRefs es =>
    rw [runInstr_setRefs] at h
    rw [Instr.encode, List.length_cons, Instr.length_encodeItems, Nat.add_comm _ 1, ← Nat.add_assoc, ← Nat.add_assoc]
    exact linkRefs_ok hi.1 hi.2 h
  | addRefs es =>
    rw [runInstr_addRefs] at h
    rw [Instr.encode, List.length_cons, Instr.length_encodeItems, Nat.add_comm _ 1, ← Nat.add_assoc, ← Nat.add_assoc]
    exact linkRefs_ok hi.1 hi.2 h
  | removeRefs es =>
    rw [runInstr_removeRefs] at h
    rw [Instr.encode, List.length_cons, Instr.length_encodeItems, Nat.add_comm _ 1, ← Nat.add_assoc, ← Nat.add_assoc]
    exact unlinkRefs_ok hi.1 hi.2 h

/-- An instruction that is accepted is read to its end, and the run has selected then what the instruction asks for. -/
theorem runInstr_agrees {i : Instr} (hi : Instr.Readable i) (h : runInstr schema (s.at pos (i.encode ++ rest)) = .ok ((), s')) :
    s'.reader = ⟨pos + i.encode.length, rest⟩ ∧ ∀ sel, s.Agrees schema sel → s'.Agrees schema (sel.step i) := by
  by_cases hs : Instr.selects i = false
  · have hw := runInstr_wrote hi hs h
    exact ⟨hw.reader, fun sel ha => by rw [Instr.step_of_selects hs]; exact hw.agrees ha⟩
  cases i with
  | mainBlock | mainField | updateField | deleteField | deleteText | count | setRef | setRefs | addRefs | removeRefs =>
    exact absurd rfl hs
  | selectType type =>
    change selectType schema (s.at (pos + 1) (leBytes 2 type.toNat ++ rest)) = _ at h
    obtain ⟨t, ht, rfl⟩ := selectType_ok h
    refine ⟨by simp [Run.at, Instr.encode, Nat.add_assoc], fun sel _ => ⟨?_, (fun _ h => by cases h), fun _ h => by cases h⟩⟩
    rintro type' ⟨⟩
    exact ⟨t, ht, rfl⟩
  | selectNode n =>
    change selectNode false (s.at (pos + 1) (leBytes 4 n.toNat ++ rest)) = _ at h
    obtain ⟨t, id, ht, hid, rfl⟩ := selectNode_ok h
    refine ⟨by simp [Run.at, Instr.encode, Nat.add_assoc], fun sel ha => ⟨ha.type, ?_, fun _ h => by cases h⟩⟩
    rintro n' ⟨⟩
    exact ⟨t, id, ht, rfl, (Except.ok.inj hid).symm⟩
  | selectTmp n =>
    change selectNode true (s.at (pos + 1) (leBytes 4 n.toNat ++ rest)) = _ at h
    obtain ⟨t, id, ht, hid, rfl⟩ := selectNode_ok h
    refine ⟨by simp [Run.at, Instr.encode, Nat.add_assoc], fun sel ha => ⟨ha.type, ?_, fun _ h => by cases h⟩⟩
    rintro n' ⟨⟩
    exact ⟨t, id, ht, rfl, createdId_eq_ok.1 hid⟩
  | createNode n =>
    change createNode (s.at (pos + 1) (leBytes 4 n.toNat ++ rest)) = _ at h
    obtain ⟨t, ht, hn, rfl⟩ := createNode_ok h
    refine ⟨by simp [Run.at, Instr.encode, Nat.add_assoc], fun sel ha => ⟨ha.type, ?_, fun _ h => by cases h⟩⟩
    rintro n' ⟨⟩
    refine ⟨t, _, ht, rfl, ?_⟩
    change (s.created ++ [(t.id, _)])[n.toNat]? = _
    rw [hn, List.getElem?_concat_length]
  | selectField slot tag =>
    change selectField (s.at (pos + 1) ([slot] ++ ([tag] ++ rest))) = _ at h
    obtain ⟨t, id, p, ht, -, hp, rfl⟩ := selectField_ok h
    refine ⟨by simp [Run.at, Instr.encode, Nat.add_assoc], fun sel ha => ⟨ha.type, ha.node, ?_⟩⟩
    rintro slot' ⟨⟩
    exact ⟨t, p, ht, hp, rfl⟩
  | deleteNode =>
    change deleteCurrent schema (s.at (pos + 1) rest) = _ at h
    obtain ⟨store, rfl⟩ := deleteCurrent_ok h
    exact ⟨rfl, fun sel ha => ⟨ha.type, (fun _ h => by cases h), fun _ h => by cases h⟩⟩

/-! ### Batches -/

/-- In a batch of instructions that is accepted, the run has selected at each of them what the ones before it ask for. -/
theorem runInstrs_agrees {front back : List Instr} (hfront : ∀ i ∈ front, Instr.Readable i) {n : Nat} {sel : Selection}
    (ha : s.Agrees schema sel) (h : runInstrs schema (front.length + n) (s.at pos (encodeAll (front ++ back))) = .ok ((), s')) :
    ∃ s₁, runInstrs schema front.length (s.at pos (encodeAll (front ++ back))) = .ok ((), s₁) ∧
      s₁.reader = ⟨pos + (encodeAll front).length, encodeAll back⟩ ∧ s₁.Agrees schema (sel.after front) ∧
      runInstrs schema n s₁ = .ok ((), s') := by
  induction front generalizing s pos sel with
  | nil =>
    rw [List.length_nil, Nat.zero_add] at h
    exact ⟨_, rfl, rfl, ⟨ha.type, ha.node, ha.slot⟩, h⟩
  | cons i is ih =>
    have hstep : ∀ m, runInstrs schema (m + 1) (s.at pos (encodeAll (i :: is ++ back))) =
        (runInstr schema >>= fun _ => runInstrs schema m) (s.at pos (i.encode ++ encodeAll (is ++ back))) :=
      runInstrs_cons s pos i (is ++ back)
    rw [List.length_cons, Nat.add_right_comm, hstep] at h
    obtain ⟨_, s₂, hi, h⟩ := StateT.bind_eq_ok.1 h
    obtain ⟨hreader, hkeeps⟩ := runInstr_agrees (hfront i List.mem_cons_self) hi
    have hat : s₂ = s₂.at (pos + i.encode.length) (encodeAll (is ++ back)) := by rw [Run.at, ← hreader]
    rw [hat] at h
    obtain ⟨s₁, hrun, hr, hs, hrest⟩ := ih (fun j hj => hfront j (List.mem_cons_of_mem _ hj)) (hkeeps sel ha) h
    refine ⟨s₁, ?_, by rw [hr, encodeAll_cons, List.length_append, Nat.add_assoc], hs, hrest⟩
    rw [List.length_cons, hstep]
    exact StateT.bind_eq_ok.2 ⟨(), s₂, hi, by rw [hat]; exact hrun⟩

theorem runInstrs_of_isEmpty (hs : s.reader.isEmpty = true) {n : Nat} (h : runInstrs schema n s = .ok ((), s')) : s' = s := by
  cases n with
  | zero =>
    cases h
    rfl
  | succ n =>
    obtain ⟨_, _, hget, h⟩ := StateT.bind_eq_ok.1 h
    cases hget
    rw [if_pos hs] at h
    cases h
    rfl

/-- A run that accepts a batch passes behind each of its instructions, and ends behind the last one. -/
theorem runInstrs_passes {front back : List Instr} (hfront : ∀ i ∈ front, Instr.Readable i) {bytes : Bytes}
    (hbytes : bytes = encodeAll (front ++ back)) {store : Store}
    (h : runInstrs schema bytes.length (.start store bytes) = .ok ((), s)) :
    ∃ s₁, runInstrs schema front.length (.start store bytes) = .ok ((), s₁) ∧ s₁.reader.rest = encodeAll back ∧
      s₁.Agrees schema (Selection.none.after front) ∧ (back = [] → s = s₁) := by
  have hlen : front.length ≤ bytes.length := by
    rw [hbytes, encodeAll_append, List.length_append]
    exact Nat.le_add_right_of_le (length_le_encodeAll front)
  rw [← Nat.add_sub_of_le hlen] at h
  subst hbytes
  obtain ⟨s₁, hrun, hreader, hagrees, hrest⟩ := runInstrs_agrees (s := .start store []) hfront (.none _) h
  refine ⟨s₁, hrun, by rw [hreader], hagrees, fun hback => ?_⟩
  subst hback
  exact runInstrs_of_isEmpty (by rw [Wire.Reader.isEmpty, hreader]; rfl) hrest

end Engine

end NodeStore
