import NodeStore.Proofs.Engine.Runs
import NodeStore.Proofs.Wire.RoundTrip
import NodeStore.Write.Encoder

/-!
# Executing encoded instructions

What a run does at the bytes of an instruction, wherever they stand in the batch.

* `Executes`: an instruction leads from one run to another; `ExecutesAll`: some instructions, one after the other.
* `executes_createNode`, `executes_mainBlock`, `executes_updateField` and so on: the instructions that write values.
* `applyBatch_of_executes`: a batch of instructions; `Rejects`, `applyBatch_of_rejects`: one with an instruction that is
  rejected.
-/

namespace NodeStore.Engine

open Write (Instr encodeAll)

/-- Where its bytes are next, the instruction leads from `s` to `s'`. -/
def Executes (schema : SchemaLayout) (i : Instr) (s s' : Run) : Prop :=
  ∀ pos rest, runInstr schema { s with reader := ⟨pos, i.encode ++ rest⟩ } =
    .ok ((), { s' with reader := ⟨pos + i.encode.length, rest⟩ })

/-- One after the other, the instructions lead from `s` to `s'`. -/
inductive ExecutesAll (schema : SchemaLayout) : List Instr → Run → Run → Prop
  | nil (s : Run) : ExecutesAll schema [] s s
  | cons {i : Instr} {is : List Instr} {s s' s'' : Run} (first : Executes schema i s s')
      (rest : ExecutesAll schema is s' s'') : ExecutesAll schema (i :: is) s s''

variable {schema : SchemaLayout} {s s' s'' : Run} {is js : List Instr}

theorem ExecutesAll.single {i : Instr} (h : Executes schema i s s') : ExecutesAll schema [i] s s' := .cons h (.nil s')

theorem ExecutesAll.append (h : ExecutesAll schema is s s') (h' : ExecutesAll schema js s' s'') :
    ExecutesAll schema (is ++ js) s s'' := by
  induction h with
  | nil _ => exact h'
  | cons first _ ih => exact .cons first (ih h')

/-! ### Batches -/

theorem Instr.encode_ne_nil (i : Instr) : i.encode ≠ [] := by cases i <;> nofun

theorem length_le_encodeAll (is : List Instr) : is.length ≤ (encodeAll is).length :=
  Wire.length_le_length_flatMap (fun i => List.length_pos_iff.2 (Instr.encode_ne_nil i)) is

/-- What is left of a batch starts with an instruction. -/
theorem runInstrs_cons (s : Run) (pos : Nat) (i : Instr) (is : List Instr) (n : Nat) :
    runInstrs schema (n + 1) { s with reader := ⟨pos, encodeAll (i :: is)⟩ } =
      (runInstr schema >>= fun _ => runInstrs schema n) { s with reader := ⟨pos, i.encode ++ encodeAll is⟩ } := by
  have hempty : (i.encode ++ encodeAll is).isEmpty = false := by
    simp [Instr.encode_ne_nil]
  rw [runInstrs]
  change (if (i.encode ++ encodeAll is).isEmpty = true then _ else _ : RunM Unit) _ = _
  rw [hempty, if_neg Bool.false_ne_true]
  rfl

theorem runInstrs_of_executes (h : ExecutesAll schema is s s') {n : Nat} (hn : is.length ≤ n) (pos : Nat) :
    runInstrs schema n { s with reader := ⟨pos, encodeAll is⟩ } =
      .ok ((), { s' with reader := ⟨pos + (encodeAll is).length, []⟩ }) := by
  induction h generalizing n pos with
  | nil s => cases n <;> rfl
  | @cons i is s s' s'' first _ ih =>
    cases n with
    | zero => cases hn
    | succ n =>
      have hrest := ih (n := n) (by simpa using hn) (pos + i.encode.length)
      rw [runInstrs_cons, StateT.bind_eq_ok]
      refine ⟨_, _, first pos _, hrest.trans ?_⟩
      simp [encodeAll, Nat.add_assoc]

/-- A batch of instructions is executed to where they lead. -/
theorem applyBatch_of_executes {store : Store} (h : ExecutesAll schema is (.start store []) s') :
    applyBatch schema store (encodeAll is) = .ok (s'.created.map (·.2), s'.store) := by
  unfold applyBatch
  rw [Except.bind_eq_ok]
  exact ⟨_, runInstrs_of_executes h (length_le_encodeAll is) 0, rfl⟩

/-- Where its bytes are next, the instruction is rejected. -/
def Rejects (schema : SchemaLayout) (i : Instr) (s : Run) : Prop :=
  ∀ pos rest r, runInstr schema { s with reader := ⟨pos, i.encode ++ rest⟩ } ≠ .ok r

theorem runInstrs_of_rejects (h : ExecutesAll schema is s s') {i : Instr} (hi : Rejects schema i s') {n : Nat}
    (hn : is.length < n) (pos : Nat) (r : Unit × Run) :
    runInstrs schema n { s with reader := ⟨pos, encodeAll (is ++ i :: js)⟩ } ≠ .ok r := by
  intro hrun
  induction h generalizing n pos with
  | nil s =>
    cases n with
    | zero => cases hn
    | succ n =>
      obtain ⟨_, _, hfirst, -⟩ := StateT.bind_eq_ok.1 ((runInstrs_cons ..).symm.trans hrun)
      exact hi pos _ _ hfirst
  | @cons j is s s' s'' first _ ih =>
    cases n with
    | zero => cases hn
    | succ n =>
      obtain ⟨_, s₁, hfirst, hrest⟩ := StateT.bind_eq_ok.1 ((runInstrs_cons ..).symm.trans hrun)
      cases hfirst.symm.trans (first pos _)
      exact ih hi (Nat.lt_of_succ_lt_succ hn) (pos + j.encode.length) hrest

/-- A batch is rejected with an instruction that is rejected where the ones before it lead. -/
theorem applyBatch_of_rejects {store : Store} (h : ExecutesAll schema is (.start store []) s') {i : Instr}
    (hi : Rejects schema i s') (r : List NodeId × Store) : applyBatch schema store (encodeAll (is ++ i :: js)) ≠ .ok r := by
  intro hok
  obtain ⟨r', hrun, -⟩ := Except.bind_eq_ok.1 hok
  refine runInstrs_of_rejects h hi ?_ 0 r' hrun
  have hlen := length_le_encodeAll (is ++ i :: js)
  rw [List.length_append, List.length_cons] at hlen
  omega

/-! ### Steps -/

namespace RunM

variable {α : Type}

/-- Reading what stands next. -/
theorem read_ok {x : Wire.Read α} {bs : Bytes} {a : α} (h : Wire.Reads x bs a) (s : Run) (pos : Nat) (rest : Bytes) :
    (liftM x : RunM α) { s with reader := ⟨pos, bs ++ rest⟩ } =
      .ok (a, { s with reader := ⟨pos + bs.length, rest⟩ }) := by
  have hscan : (liftM x : Scan α) ⟨pos, bs ++ rest⟩ = .ok a ⟨pos + bs.length, rest⟩ := by
    change Scan.ofRead x _ = _
    rw [Scan.ofRead, h]
  exact (liftM_apply (liftM x) _).trans (by rw [hscan])

end RunM

/-- The node with that id is selected, and it is `n`. -/
structure Run.On (s : Run) (t : TypeLayout) (id : NodeId) (n : StoredNode) : Prop where
  type : s.type = some t
  node : s.node = some id
  found : s.store.node? t.id id = some n

/-- The run with another node in the place of the selected one. -/
def Run.setNode (s : Run) (t : TypeLayout) (id : NodeId) (n : StoredNode) : Run :=
  { s with store := s.store.setNode t.id id n }

variable {t : TypeLayout} {id : NodeId} {n m : StoredNode} {p : PropDef EdgeLayout}

theorem Run.On.setNode (h : s.On t id n) (m : StoredNode) : (s.setNode t id m).On t id m :=
  ⟨h.type, h.node, by simp [Run.setNode, Store.node?_setNode]⟩

theorem Run.On.withReader (h : s.On t id n) (r : Wire.Reader) : Run.On { s with reader := r } t id n :=
  ⟨h.type, h.node, h.found⟩

theorem Run.On.current (h : s.On t id n) : current s = .ok ((t, id), s) := by
  unfold Engine.current
  rw [StateT.bind_eq_ok]
  refine ⟨s, s, rfl, ?_⟩
  simp only [h.type, h.node]
  rfl

theorem Run.On.currentField (h : s.On t id n) (hp : s.field = some p) : currentField s = .ok ((t, id, p), s) := by
  unfold Engine.currentField
  simp only [StateT.bind_eq_ok, RunM.get_eq_ok, RunM.lift_eq_ok, StateT.pure_eq_ok]
  exact ⟨(t, id), s, h.current, s, s, ⟨rfl, rfl⟩, p, s, ⟨by rw [hp]; rfl, rfl⟩, rfl⟩

theorem Run.On.onNode (h : s.On t id n) {f : StoredNode → Except Fault StoredNode} (hf : f n = .ok m) :
    onNode t.id id f s = .ok ((), s.setNode t id m) := by
  unfold Engine.onNode onStore
  simp only [StateT.bind_eq_ok, RunM.get_eq_ok, RunM.lift_eq_ok, RunM.modify_eq_ok]
  refine ⟨s, s, ⟨rfl, rfl⟩, s.store.setNode t.id id m, s, ⟨?_, rfl⟩, rfl⟩
  rw [Store.node_eq_ok.2 h.found]
  change (f n >>= fun m => pure (s.store.setNode t.id id m)) = _
  rw [hf]
  rfl

/-! ### Instructions -/

theorem executes_selectType (ht : schema.typeById? t.id = some t) (s : Run) :
    Executes schema (.selectType t.id) s { s with type := some t, node := none, field := none } := by
  intro pos rest
  have hrun : ∀ operands, runInstr schema { s with reader := ⟨pos, Instr.opSelectType :: operands⟩ } =
      selectType schema { s with reader := ⟨pos + 1, operands⟩ } := fun _ => rfl
  rw [Instr.encode, List.cons_append, hrun]
  unfold selectType
  simp only [StateT.bind_eq_ok, RunM.lift_eq_ok, RunM.modify_eq_ok]
  refine ⟨t.id, _, RunM.read_ok (.u16 t.id _) s _ _, t, _, ⟨by rw [layoutOf, ht], rfl⟩, ?_⟩
  simp [Nat.add_assoc, Nat.add_comm]

theorem executes_selectNode (schema : SchemaLayout) (ht : s.type = some t) (hn : s.store.node? t.id id = some n) :
    Executes schema (.selectNode id) s { s with node := some id, field := none } := by
  intro pos rest
  have hrun : ∀ operands, runInstr schema { s with reader := ⟨pos, Instr.opSelectNode :: operands⟩ } =
      selectNode false { s with reader := ⟨pos + 1, operands⟩ } := fun _ => rfl
  rw [Instr.encode, List.cons_append, hrun]
  unfold selectNode
  simp only [StateT.bind_eq_ok, RunM.get_eq_ok, RunM.lift_eq_ok]
  refine ⟨id, _, RunM.read_ok (.u32 id _) s _ _, _, _, ⟨rfl, rfl⟩, t, _, ⟨by rw [ht]; rfl, rfl⟩, ?_⟩
  simp only [Bool.false_eq_true, if_false, StateT.bind_eq_ok, StateT.pure_eq_ok, RunM.lift_eq_ok, RunM.set_eq_ok]
  refine ⟨id, _, rfl, n, _, ⟨Store.node_eq_ok.2 hn, rfl⟩, ?_⟩
  simp [Nat.add_assoc, Nat.add_comm]

theorem executes_createNode (schema : SchemaLayout) (ht : s.type = some t) {tmp : UInt32} (htmp : tmp.toNat = s.created.length)
    (hroom : s.store.exhausted t.id = false) :
    Executes schema (.createNode tmp) s
      { s with store := (s.store.create t).2, created := s.created ++ [(t.id, (s.store.create t).1)],
               node := some (s.store.create t).1, field := none } := by
  intro pos rest
  have hrun : ∀ operands, runInstr schema { s with reader := ⟨pos, Instr.opCreateNode :: operands⟩ } =
      createNode { s with reader := ⟨pos + 1, operands⟩ } := fun _ => rfl
  rw [Instr.encode, List.cons_append, hrun]
  unfold createNode
  simp only [StateT.bind_eq_ok, RunM.get_eq_ok, RunM.lift_eq_ok]
  refine ⟨tmp, _, RunM.read_ok (.u32 tmp _) s _ _, _, _, ⟨rfl, rfl⟩, t, _, ⟨by rw [ht]; rfl, rfl⟩, ?_⟩
  simp only [htmp, hroom]
  simp [Nat.add_assoc, Nat.add_comm, RunM.set_eq_ok]

theorem executes_selectField {slot : UInt8} (h : s.On t id n) (hp : t.propBySlot? slot = some p) :
    Executes schema (.selectField slot p.type.tag) s { s with field := some p } := by
  intro pos rest
  have hrun : ∀ operands, runInstr schema { s with reader := ⟨pos, Instr.opSelectField :: operands⟩ } =
      selectField { s with reader := ⟨pos + 1, operands⟩ } := fun _ => rfl
  rw [Instr.encode, List.cons_append, hrun]
  unfold selectField
  simp only [StateT.bind_eq_ok, RunM.lift_eq_ok, RunM.modify_eq_ok]
  refine ⟨slot, _, RunM.read_ok (.byte _ slot) s _ _, p.type.tag, _, RunM.read_ok (.byte _ p.type.tag) s _ _, (t, id), _,
    (h.withReader _).current, p, _, ⟨by simp [fieldAt, hp], rfl⟩, ?_⟩
  simp [Nat.add_assoc]

theorem executes_mainBlock (h : s.On t id n) {block : Bytes} (hlen : block.length = t.mainLen)
    (hsize : block.length < 2 ^ 32) : Executes schema (.mainBlock block) s (s.setNode t id { n with main := block }) := by
  intro pos rest
  have hrun : ∀ operands, runInstr schema { s with reader := ⟨pos, Instr.opMainBlock :: operands⟩ } =
      setMain { s with reader := ⟨pos + 1, operands⟩ } := fun _ => rfl
  rw [Instr.encode, List.cons_append, hrun]
  unfold setMain
  simp only [StateT.bind_eq_ok]
  refine ⟨block, _, RunM.read_ok (.sized hsize _) s _ _, (t, id), _, (h.withReader _).current, ?_⟩
  simp only [hlen, ne_eq, not_true_eq_false, if_false]
  rw [(h.withReader _).onNode (m := { n with main := block }) rfl]
  simp [Run.setNode, Nat.add_assoc, Nat.add_comm]

theorem executes_mainField (h : s.On t id n) {offset : Nat} {bytes : Bytes} (hoffset : offset < 2 ^ 32)
    (hlen : bytes.length < 2 ^ 16) (hin : offset + bytes.length ≤ n.main.length) :
    Executes schema (.mainField offset bytes) s (s.setNode t id { n with main := Bytes.overwrite offset bytes n.main }) := by
  intro pos rest
  have hchange : changeMain offset bytes.length (fun _ => bytes) .mainWrite n =
      .ok { n with main := Bytes.overwrite offset bytes n.main } := by
    rw [changeMain, changeBytes, if_neg (Nat.not_lt.2 hin)]
    rfl
  have hencode : Instr.encode (.mainField offset bytes) ++ rest =
      Instr.opMainField :: (leBytes 4 offset ++ (leBytes 2 bytes.length ++ (bytes ++ rest))) := by simp [Instr.encode]
  have hrun : ∀ operands, runInstr schema { s with reader := ⟨pos, Instr.opMainField :: operands⟩ } =
      setMainPart { s with reader := ⟨pos + 1, operands⟩ } := fun _ => rfl
  rw [hencode, hrun]
  unfold setMainPart
  simp only [StateT.bind_eq_ok]
  refine ⟨offset, _, RunM.read_ok (.nat hoffset _) s _ _, bytes.length, _, RunM.read_ok (.nat hlen _) s _ _, bytes, _,
    RunM.read_ok (.bytes rfl _) s _ _, (t, id), _, (h.withReader _).current, ?_⟩
  rw [(h.withReader _).onNode hchange]
  simp [Instr.encode, Run.setNode, Nat.add_assoc, Nat.add_comm, Nat.add_left_comm]

/-- A counter is changed in its place; the amount has its width. -/
theorem executes_count (h : s.On t id n) {type : PropType} (hnumeric : type.isNumeric = true) (decrement : Bool)
    {offset : Nat} (hoffset : offset < 2 ^ 32) {amount : Bytes} (hwidth : amount.length = type.fixedWidth.getD 0)
    (hin : offset + amount.length ≤ n.main.length) :
    Executes schema (.count decrement type.tag offset amount) s
      (s.setNode t id { n with
        main := Bytes.overwrite offset (addDelta type decrement amount ((n.main.drop offset).take amount.length)) n.main }) := by
  intro pos rest
  have hchange : changeMain offset amount.length (addDelta type decrement amount) .counterPlace n = .ok { n with
      main := Bytes.overwrite offset (addDelta type decrement amount ((n.main.drop offset).take amount.length)) n.main } := by
    rw [changeMain, changeBytes, if_neg (Nat.not_lt.2 hin)]
    rfl
  have hencode : Instr.encode (.count decrement type.tag offset amount) ++ rest =
      (if decrement then Instr.opDecrement else Instr.opIncrement) ::
        ([type.tag] ++ (leBytes 4 offset ++ (amount ++ rest))) := by simp [Instr.encode]
  have hrun : ∀ operands, runInstr schema
      { s with reader := ⟨pos, (if decrement then Instr.opDecrement else Instr.opIncrement) :: operands⟩ } =
      count decrement { s with reader := ⟨pos + 1, operands⟩ } := fun _ => by cases decrement <;> rfl
  have htype : orFail (.wire (.badTypeTag type.tag)) ((PropType.ofTag? type.tag).filter (·.isNumeric)) = .ok type := by
    rw [PropType.ofTag?_tag, Option.filter_some, if_pos hnumeric]
    rfl
  rw [hencode, hrun]
  unfold count
  simp only [StateT.bind_eq_ok, RunM.lift_eq_ok]
  refine ⟨type.tag, _, RunM.read_ok (.byte _ type.tag) s _ _, offset, _, RunM.read_ok (.nat hoffset _) s _ _, type, _,
    ⟨htype, rfl⟩, amount, _, RunM.read_ok (.bytes hwidth _) s _ _, (t, id), _, (h.withReader _).current, ?_⟩
  rw [← hwidth, (h.withReader _).onNode hchange]
  simp [Instr.encode, Run.setNode, Nat.add_assoc, Nat.add_comm, Nat.add_left_comm]

theorem executes_updateField (h : s.On t id n) (hp : s.field = some p) {payload : Bytes} (hsize : payload.length < 2 ^ 32)
    (hm : n.writePayload p (slotOf p) payload = .ok m) :
    Executes schema (.updateField payload) s (s.setNode t id m) := by
  intro pos rest
  have hrun : ∀ operands, runInstr schema { s with reader := ⟨pos, Instr.opUpdateField :: operands⟩ } =
      updateField { s with reader := ⟨pos + 1, operands⟩ } := fun _ => rfl
  rw [Instr.encode, List.cons_append, hrun]
  unfold updateField
  simp only [StateT.bind_eq_ok]
  refine ⟨payload, _, RunM.read_ok (.sized hsize _) s _ _, (t, id, p), _, (h.withReader _).currentField hp, ?_⟩
  rw [(h.withReader _).onNode hm]
  simp [Run.setNode, Nat.add_assoc, Nat.add_comm]

theorem executes_deleteField (h : s.On t id n) (hp : s.field = some p) (href : p.type.isReference = false) :
    Executes schema .deleteField s (s.setNode t id (n.dropField (slotOf p))) := by
  intro pos rest
  have hrun : ∀ operands, runInstr schema { s with reader := ⟨pos, Instr.opDeleteField :: operands⟩ } =
      deleteField schema { s with reader := ⟨pos + 1, operands⟩ } := fun _ => rfl
  rw [Instr.encode, List.cons_append, hrun]
  unfold deleteField
  simp only [StateT.bind_eq_ok]
  refine ⟨(t, id, p), _, (h.withReader _).currentField hp, ?_⟩
  simp only [href, Bool.false_eq_true, if_false]
  exact (h.withReader _).onNode rfl

theorem executes_deleteText (h : s.On t id n) (hp : s.field = some p) (locale : UInt8) :
    Executes schema (.deleteText locale) s (s.setNode t id (n.dropText (slotOf p) locale)) := by
  intro pos rest
  have hrun : ∀ operands, runInstr schema { s with reader := ⟨pos, Instr.opDeleteText :: operands⟩ } =
      deleteText { s with reader := ⟨pos + 1, operands⟩ } := fun _ => rfl
  rw [Instr.encode, List.cons_append, hrun]
  unfold deleteText
  simp only [StateT.bind_eq_ok]
  exact ⟨locale, _, RunM.read_ok (.byte _ locale) s _ _, (t, id, p), _, (h.withReader _).currentField hp,
    (h.withReader _).onNode rfl⟩

end NodeStore.Engine
