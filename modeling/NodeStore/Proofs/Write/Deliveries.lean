import NodeStore.Proofs.Write.Ledger
import NodeStore.Proofs.Write.Simulation

/-!
# What unsent writes do to a memory

A session's batches and its open buffer, handed to a memory as they stand, lead it to some store. A write to a stored node
goes on from there, whether it stays in the open buffer or opens the next one.

* `Memory.applyAll`: a memory that takes batches.
* `Session.Brings`: the store that the unsent writes lead to; `Brings.close`, `Brings.drain`.
* `Brings.onNode`: an instruction for a stored node.
* `Session.Fails`: the memory rejects an unsent write; `Fails.drain`.
* `Reached.cursor_of_empty`: nothing is selected in an empty buffer, so `Reached.brings`.
-/

namespace NodeStore

namespace Engine

open Write (Instr Cursor NodeTarget)

/-! ### Memories -/

/-- Hands batches to the memory, one after the other, until one is refused. -/
def Memory.applyAll : List Bytes → Memory → Except Error Memory
  | [], m => .ok m
  | b :: bs, m =>
    match m.apply b with
    | (.ok _, m) => applyAll bs m
    | (.error e, _) => .error e

theorem Memory.applyAll_append (bs cs : List Bytes) (m : Memory) :
    Memory.applyAll (bs ++ cs) m = (Memory.applyAll bs m >>= Memory.applyAll cs) := by
  induction bs generalizing m with
  | nil => rfl
  | cons b bs ih =>
    rw [List.cons_append, applyAll, applyAll]
    split
    · exact ih _
    · rfl

theorem Memory.applyAll_concat {bs : List Bytes} {b : Bytes} {m m₁ m₂ : Memory} {ids : List NodeId}
    (h : Memory.applyAll bs m = .ok m₁) (hb : m₁.apply b = (.ok ids, m₂)) : Memory.applyAll (bs ++ [b]) m = .ok m₂ := by
  rw [applyAll_append, h]
  change Memory.applyAll [b] m₁ = _
  rw [applyAll, hb]
  rfl

/-- A memory that rejects nothing takes instructions that can be executed. -/
theorem Memory.apply_of_executes {m : Memory} (hready : m.failNext = none) {is : List Instr} {r : Run}
    (h : ExecutesAll m.schema is (.start m.store []) r) :
    m.apply (Write.encodeAll is) = (.ok (r.created.map (·.2)), { m with store := r.store }) := by
  unfold Memory.apply
  simp only [hready, applyBatch_of_executes h]

/-- A memory does not take instructions of which one is refused. -/
theorem Memory.apply_of_rejects {m : Memory} (hready : m.failNext = none) {is : List Instr} {i : Instr} {r : Run}
    (h : ExecutesAll m.schema is (.start m.store []) r) (hi : Rejects m.schema i r) (js : List Instr) :
    ∃ e, m.apply (Write.encodeAll (is ++ i :: js)) = (.error e, m) := by
  unfold Memory.apply
  cases hb : applyBatch m.schema m.store (Write.encodeAll (is ++ i :: js)) with
  | ok x => exact absurd hb (applyBatch_of_rejects h hi x)
  | error f =>
    simp only [hready]
    exact ⟨_, rfl⟩

/-! ### Selecting a stored node -/

variable {schema : SchemaLayout} {r : Run} {t : TypeLayout} {id : NodeId} {n : StoredNode} {c : Cursor}

theorem Run.Follows.withStore (h : r.Follows schema c) (store : Store) : Run.Follows schema { r with store } c := by
  cases c <;> exact h

/-- A run that is on what the cursor is on gets to a stored node by what the cursor leaves to be selected. -/
theorem executes_cursor_selectNode (ht : schema.typeById? t.id = some t) (h : r.Follows schema c)
    (hn : r.store.node? t.id id = some n) :
    ∃ r', ExecutesAll schema (c.selectNode t.id (.id id)) r r' ∧ r'.On t id n ∧ r'.known = r.known ∧
      r'.Follows schema (c.on t.id (.id id)) := by
  have hselected : ∀ r₀ : Run, r₀.type = some t → r₀.known = r.known → ∃ r',
      ExecutesAll schema [.selectNode id] r₀ r' ∧ r'.On t id n ∧ r'.known = r.known ∧
        r'.Follows schema (.main t.id (.id id)) := by
    intro r₀ htype hknown
    have hn₀ : r₀.store.node? t.id id = some n := by
      rw [show r₀.store = r.store from congrArg Known.store hknown]
      exact hn
    exact ⟨_, .single (executes_selectNode schema htype hn₀), ⟨htype, rfl, hn₀⟩, hknown, t, id, ht, htype, rfl, rfl⟩
  by_cases hon : c.node? = some (t.id, .id id)
  · -- The cursor is on the node, and so is the run.
    rw [Cursor.selectNode, if_pos hon, Cursor.on, if_pos hon]
    have hmain : ∃ t' id', schema.typeById? t.id = some t' ∧ r.type = some t' ∧ r.node = some id' ∧
        r.Denotes t'.id id' (.id id) := by
      cases c with
      | idle => cases hon
      | main type node => cases hon; exact h
      | separate type node slot =>
        cases hon
        obtain ⟨t', id', p, ht', htype, hnode, hdenotes, -⟩ := h
        exact ⟨t', id', ht', htype, hnode, hdenotes⟩
    obtain ⟨t', id', ht', htype, hnode, rfl⟩ := hmain
    obtain rfl : t = t' := Option.some.inj (ht.symm.trans ht')
    exact ⟨r, .nil r, ⟨htype, hnode, hn⟩, rfl, h⟩
  · rw [Cursor.selectNode, if_neg hon, Cursor.on, if_neg hon, Cursor.selectType]
    split
    · rename_i hsame
      have htype : r.type = some t := by
        obtain ⟨⟨type, node⟩, hnode, rfl⟩ := Option.map_eq_some_iff.1 hsame
        cases c with
        | idle => cases hnode
        | main type node =>
          cases hnode
          obtain ⟨t', -, ht', htype, -⟩ := h
          rwa [Option.some.inj (ht.symm.trans ht')]
        | separate type node slot =>
          cases hnode
          obtain ⟨t', -, -, ht', htype, -⟩ := h
          rwa [Option.some.inj (ht.symm.trans ht')]
      exact hselected r htype rfl
    · obtain ⟨r', hexec, hrest⟩ := hselected { r with type := some t, node := none, field := none } rfl rfl
      exact ⟨r', ExecutesAll.append (.single (executes_selectType ht r)) hexec, hrest⟩

end Engine

namespace Write.Session

open Engine

variable {s s' : Session} {m : Memory} {store : Store}

/-! ### Unsent writes -/

/-- A memory that takes the closed batches, and then the open buffer, ends with the store. -/
structure Delivers (s : Session) (m m₁ : Memory) (is : List Instr) (r : Run) : Prop where
  sent : Memory.applyAll (s.outbox.map (·.bytes)) m = .ok m₁
  schema : m₁.schema = s.schema
  ready : m₁.failNext = none
  bytes : s.encoder.buffer.bytes = encodeAll is
  runs : ExecutesAll s.schema is (.start m₁.store []) r
  follows : r.Follows s.schema s.encoder.cursor

/-- The store that the unsent writes of a session lead a memory to. -/
def Brings (s : Session) (m : Memory) (store : Store) : Prop := ∃ m₁ is r, s.Delivers m m₁ is r ∧ r.store = store

theorem brings_of_idle (hout : s.outbox = []) (hbytes : s.encoder.buffer.bytes = []) (hidle : s.encoder.cursor = .idle)
    (hschema : m.schema = s.schema) (hready : m.failNext = none) : s.Brings m m.store :=
  ⟨m, [], .start m.store [], ⟨by rw [hout]; rfl, hschema, hready, hbytes, .nil _, by rw [hidle]; trivial⟩, rfl⟩

/-- A closed buffer is one more batch. -/
theorem Brings.close (h : s.Brings m store) : s.close.Brings m store := by
  cases hbuffer : s.encoder.buffer.isEmpty with
  | true => rwa [close_of_empty hbuffer]
  | false =>
    obtain ⟨m₁, is, r, hd, rfl⟩ := h
    rw [close_of_nonempty hbuffer]
    have happly := Memory.apply_of_executes hd.ready (hd.schema ▸ hd.runs)
    rw [← hd.bytes] at happly
    refine ⟨{ m₁ with store := r.store }, [], .start r.store [], ⟨?_, hd.schema, hd.ready, rfl, .nil _, trivial⟩, rfl⟩
    rw [List.map_append]
    exact Memory.applyAll_concat hd.sent happly

theorem Brings.opened (h : s.Brings m store) (ho : s.Opened s') : s'.Brings m store := by
  rcases ho with rfl | ⟨-, rfl⟩
  · exact h
  · exact h.close

theorem isEmpty_iff : s.encoder.buffer.isEmpty = true ↔ s.encoder.buffer.bytes = [] := List.isEmpty_iff

/-- All batches that are handed out together lead to the store. -/
theorem Brings.drain (h : s.Brings m store) :
    ∃ m', Memory.applyAll (s.drain.1.map (·.bytes)) m = .ok m' ∧ m'.store = store := by
  obtain ⟨m₁, is, r, hd, rfl⟩ := h.close
  have hempty : s.close.encoder.buffer.bytes = [] := isEmpty_iff.1 (isEmpty_close s)
  refine ⟨m₁, hd.sent, ?_⟩
  cases is with
  | nil =>
    cases hd.runs
    rfl
  | cons i is =>
    have := hd.bytes.symm.trans hempty
    rw [encodeAll_cons] at this
    exact absurd (List.append_eq_nil_iff.1 this).1 (Engine.Instr.encode_ne_nil i)

/-- An instruction for a stored node, with the selectors of that node, goes behind everything else. -/
theorem Brings.onNode (h : s.Brings m store) {t : TypeLayout} (ht : s.schema.typeById? t.id = some t) {id : NodeId}
    {n n' : StoredNode} (hn : store.node? t.id id = some n) {d : Draft} {i : Instr}
    (hwrite : (do selectNode t.id (.id id); nodeInstr i : EncodeM Unit) ⟨s.encoder, []⟩ = .ok () d)
    (hi : ∀ r : Run, r.On t id n → Executes s.schema i r (r.setNode t id n')) (registry : Registry) :
    d.placeholders = [] ∧ Brings { s with encoder := d.encoder, registry } m (store.setNode t.id id n') := by
  obtain ⟨m₁, is, r, hd, rfl⟩ := h
  obtain ⟨_, d₁, hselect, hinstr⟩ := EStateM.bind_eq_ok.1 hwrite
  rw [selectNode_eq (by nofun)] at hselect
  obtain ⟨start, d₂, hemit, hmove⟩ := EStateM.bind_eq_ok.1 hselect
  obtain ⟨-, -, rfl⟩ := emit_eq_ok.1 hemit
  cases moveTo_eq_ok.1 hmove
  obtain ⟨-, rfl⟩ := nodeInstr_spec hinstr
  obtain ⟨r', hruns, hon, hknown, hfollows⟩ := executes_cursor_selectNode ht hd.follows hn
  refine ⟨rfl, m₁, is ++ (s.encoder.cursor.selectNode t.id (.id id) ++ [i]), r'.setNode t id n',
    ⟨hd.sent, hd.schema, hd.ready, ?_, hd.runs.append (hruns.append (.single (hi r' hon))), hfollows.withStore _⟩, ?_⟩
  · simp [Draft.append, hd.bytes]
  · rw [Run.setNode, show r'.store = r.store from congrArg Known.store hknown]

/-- A memory that takes the closed batches rejects an instruction of the open buffer. -/
structure Halts (s : Session) (m m₁ : Memory) (is : List Instr) (i : Instr) (js : List Instr) (r : Run) : Prop where
  sent : Memory.applyAll (s.outbox.map (·.bytes)) m = .ok m₁
  schema : m₁.schema = s.schema
  ready : m₁.failNext = none
  bytes : s.encoder.buffer.bytes = encodeAll (is ++ i :: js)
  runs : ExecutesAll s.schema is (.start m₁.store []) r
  rejects : Rejects s.schema i r

/-- The unsent writes of a session are refused by a memory. -/
def Fails (s : Session) (m : Memory) : Prop := ∃ m₁ is i js r, s.Halts m m₁ is i js r

/-- The batches that are handed out together are not all taken. -/
theorem Fails.drain (h : s.Fails m) (m' : Memory) : Memory.applyAll (s.drain.1.map (·.bytes)) m ≠ .ok m' := by
  obtain ⟨m₁, is, i, js, r, hh⟩ := h
  have hbuffer : s.encoder.buffer.isEmpty = false := by
    rw [Bool.eq_false_iff, ne_eq, isEmpty_iff, hh.bytes]
    simp [encodeAll, Engine.Instr.encode_ne_nil]
  have hdrain : s.drain.1.map (·.bytes) = s.outbox.map (·.bytes) ++ [s.encoder.buffer.bytes] := by
    change s.close.outbox.map (·.bytes) = _
    rw [close_of_nonempty hbuffer, List.map_append]
    rfl
  obtain ⟨e, he⟩ := Memory.apply_of_rejects hh.ready (hh.schema ▸ hh.runs) (hh.schema ▸ hh.rejects) js
  rw [hdrain, Memory.applyAll_append, hh.sent, hh.bytes]
  change Memory.applyAll [_] m₁ ≠ _
  rw [Memory.applyAll, he]
  intro hok
  cases hok

/-! ### Empty buffers -/

section

variable {schema : SchemaLayout} {options : Options} {decl : SchemaDecl} {priority : Priority} {l l' : Ledger}

/-- Nothing is selected in an empty buffer. -/
def Unselected (s : Session) : Prop := s.encoder.buffer.bytes = [] → s.encoder.cursor.Within .none

theorem Move.unselected (h : s.Unselected) (hmove : s.Move s') : s'.Unselected := by
  cases hmove with
  | @write owner type wire node enc hs js howner hnode happ =>
    intro hempty
    have hbytes := happ.bytes.symm.trans hempty
    obtain ⟨hbefore, hjs⟩ := List.append_eq_nil_iff.1 hbytes
    obtain rfl : js = [] := by
      cases js with
      | nil => rfl
      | cons j js =>
        rw [encodeAll_cons] at hjs
        exact absurd (List.append_eq_nil_iff.1 hjs).1 (Engine.Instr.encode_ne_nil j)
    exact happ.within _ (h hbefore)
  | register | queue => exact h

theorem unselected_close (h : s.Unselected) : s.close.Unselected := by
  cases hbuffer : s.encoder.buffer.isEmpty with
  | true => rwa [close_of_empty hbuffer]
  | false =>
    rw [close_of_nonempty hbuffer]
    exact fun _ => .idle _

theorem Called.unselected (h : s.Unselected) (hcalled : s.Called s') : s'.Unselected := by
  obtain ⟨s₀, hopened, hmoves⟩ := hcalled
  have hs₀ : s₀.Unselected := by
    rcases hopened with rfl | ⟨-, rfl⟩
    · exact h
    · exact unselected_close h
  induction hmoves with
  | refl => exact hs₀
  | tail _ hmove ih => exact hmove.unselected ih

theorem Logs.unselected (hc : s.Compiled) (hs : s.Unselected) (h : Logs s l s' l') : s'.Unselected := by
  cases h with
  | close => exact unselected_close hs
  | write hplan hno hact =>
    rw [← after_of_ok hact]
    exact (WriteCall.called hc _).unselected hs
  | queue | handOut | note => exact hs
  | patch hpos id =>
    -- A buffer with a placeholder is not empty.
    intro hempty
    simp [Encoder.patchPlaceholder, Buffer.patchWord, Buffer.patchByte, Bytes.overwrite, leBytes] at hempty

theorem Logged.unselected (hschema : decl.compile priority = .ok schema) (h : Logged schema options s l) : s.Unselected := by
  induction h with
  | start h =>
    obtain ⟨-, -, -, hencoder, -⟩ := started_of_start h
    rw [Unselected, hencoder]
    exact fun _ => .idle _
  | step h hstep ih => exact hstep.unselected (h.compiled hschema).1 ih

/-- The cursor of an empty buffer stands nowhere. -/
theorem Reached.cursor_of_empty (hschema : decl.compile priority = .ok schema) (h : Reached schema options s)
    (hempty : s.encoder.buffer.bytes = []) : s.encoder.cursor = .idle := by
  obtain ⟨l, hl⟩ := h.logged hschema
  have hwithin := hl.unselected hschema hempty
  cases hc : s.encoder.cursor with
  | idle => rfl
  | main type node | separate type node =>
    rw [hc] at hwithin
    cases (hwithin.node type node rfl).1

/-- A session with nothing to send leaves a memory as it is. -/
theorem Reached.brings (hschema : decl.compile priority = .ok schema) (h : Reached schema options s) (hout : s.outbox = [])
    (hempty : s.bufferedLength = 0) (hm : m.schema = schema) (hready : m.failNext = none) : s.Brings m m.store := by
  obtain ⟨l, hl⟩ := h.logged hschema
  have hbytes : s.encoder.buffer.bytes = [] := List.length_eq_zero_iff.1 hempty
  exact brings_of_idle hout hbytes (h.cursor_of_empty hschema hbytes) (hm.trans (hl.compiled hschema).2.1.symm) hready

end

end Write.Session

end NodeStore
