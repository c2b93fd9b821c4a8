import NodeStore.Proofs.Engine.Selectors
import NodeStore.Proofs.Write.Requests

/-!
# The cursor and the run

The encoder leaves out the selectors that its cursor makes it believe to be needless. Whatever calls and returns to
checkpoints have made the buffer, a run that accepts it has selected what the cursor says at the end, and what each
instruction is for when its turn comes.

* `BufferStep`: a call, a checkpoint, or the return to one; `Editing.Grown`: the requests that are still in the buffer.
* `Run.Follows`, `Run.Meets`: what a run has selected is what the cursor is on, or what an instruction is for.
* `cursor_simulates`: the simulation.
-/

namespace NodeStore

namespace Write

/-! ### Steps -/

/-- The open buffer with the states that it can return to, the latest first. -/
structure Editing where
  encoder : Encoder
  checkpoints : List Checkpoint

/-- What is done to the open buffer. -/
inductive BufferStep where
  | call (call : BufferCall)
  | checkpoint
  /-- Returns to a checkpoint that stays one; the `n` later ones are gone. -/
  | rollback (n : Nat)

namespace Editing

def start (max : Nat) : Editing := ⟨.new max, []⟩

def step (s : Editing) : BufferStep → Editing
  | .call call => { s with encoder := call.run s.encoder }
  | .checkpoint => { s with checkpoints := s.encoder.checkpoint :: s.checkpoints }
  | .rollback n =>
    match s.checkpoints.drop n with
    | [] => s
    | k :: ks => ⟨s.encoder.rollback k, k :: ks⟩

def run (s : Editing) (steps : List BufferStep) : Editing := steps.foldl step s

end Editing

/-! ### What is in the buffer -/

/-- The buffer holds the instructions of some requests of a kind, and the cursor is where they lead. -/
def Encoder.Holds (A : Request → Prop) (e : Encoder) : Prop :=
  ∃ rs, (∀ r ∈ rs, A r) ∧ e.buffer.bytes = requestBytes .idle rs ∧ e.cursor = Cursor.idle.after rs

theorem Encoder.Holds.took {A : Request → Prop} {e e' : Encoder} (h : e.Holds A) {rs : List Request} (hrs : ∀ r ∈ rs, A r)
    (ht : e.Took e' rs) : e'.Holds A := by
  obtain ⟨rs₀, hrs₀, hbytes, hcursor⟩ := h
  refine ⟨rs₀ ++ rs, fun r hr => (List.mem_append.1 hr).elim (hrs₀ r) (hrs r), ?_, ?_⟩
  · rw [ht.bytes, hbytes, hcursor, requestBytes_append]
  · rw [ht.cursor, hcursor, Cursor.after, Cursor.after, Cursor.after, List.foldl_append]

/-- The buffer holds requests, and so it will after the return to any of its checkpoints. -/
structure Editing.Grown (A : Request → Prop) (s : Editing) : Prop where
  holds : s.encoder.Holds A
  back : ∀ k ∈ s.checkpoints, k.length ≤ s.encoder.buffer.length ∧ (s.encoder.rollback k).Holds A
  /-- A checkpoint is no longer than a later one. -/
  stacked : s.checkpoints.Pairwise fun k l => l.length ≤ k.length

namespace Editing

variable {A : Request → Prop} {s : Editing}

theorem Grown.start (max : Nat) : (start max).Grown A where
  holds := ⟨[], by simp, rfl, rfl⟩
  back := by simp [Editing.start]
  stacked := .nil

theorem Grown.call (h : s.Grown A) {call : BufferCall} (hcall : Asks A call.act) : (s.step (.call call)).Grown A := by
  obtain ⟨rs, hrs, ht⟩ := hcall ⟨s.encoder, []⟩
  refine ⟨h.holds.took hrs ht, fun k hk => ?_, h.stacked⟩
  obtain ⟨hle, rs', hrs', hbytes, hcursor⟩ := h.back k hk
  have hlen : k.length ≤ s.encoder.buffer.bytes.length := hle
  refine ⟨?_, rs', hrs', ?_, hcursor⟩
  · change k.length ≤ (call.run s.encoder).buffer.bytes.length
    rw [BufferCall.run, ht.bytes, List.length_append]
    exact Nat.le_add_right_of_le hlen
  · change (call.run s.encoder).buffer.bytes.take k.length = _
    rw [BufferCall.run, ht.bytes, List.take_append_of_le_length hlen]
    exact hbytes

theorem Grown.checkpoint (h : s.Grown A) : (s.step .checkpoint).Grown A where
  holds := h.holds
  back := by
    intro k hk
    rcases List.mem_cons.1 hk with rfl | hk
    · obtain ⟨rs, hrs, hbytes, hcursor⟩ := h.holds
      refine ⟨Nat.le_refl _, rs, hrs, ?_, hcursor⟩
      change s.encoder.buffer.bytes.take s.encoder.buffer.bytes.length = _
      rw [List.take_length]
      exact hbytes
    · exact h.back k hk
  stacked := .cons (fun k hk => (h.back k hk).1) h.stacked

theorem Grown.rollback (h : s.Grown A) (n : Nat) : (s.step (.rollback n)).Grown A := by
  change Grown A (match s.checkpoints.drop n with
    | [] => s
    | k :: ks => ⟨s.encoder.rollback k, k :: ks⟩)
  split
  · exact h
  · rename_i k ks hdrop
    have hmem : ∀ l ∈ k :: ks, l ∈ s.checkpoints := fun l hl => List.mem_of_mem_drop (hdrop ▸ hl)
    have hstacked : (k :: ks).Pairwise fun k l => l.length ≤ k.length := hdrop ▸ h.stacked.sublist (List.drop_sublist ..)
    have hle : ∀ l ∈ k :: ks, l.length ≤ k.length := by
      intro l hl
      rcases List.mem_cons.1 hl with rfl | hl
      · exact Nat.le_refl _
      · exact (List.pairwise_cons.1 hstacked).1 l hl
    refine ⟨(h.back k (hmem k List.mem_cons_self)).2, fun l hl => ?_, hstacked⟩
    have hk : k.length ≤ s.encoder.buffer.bytes.length := (h.back k (hmem k List.mem_cons_self)).1
    obtain ⟨-, rs, hrs, hbytes, hcursor⟩ := h.back l (hmem l hl)
    refine ⟨?_, rs, hrs, ?_, hcursor⟩
    · change l.length ≤ (s.encoder.buffer.bytes.take k.length).length
      rw [List.length_take, Nat.min_eq_left hk]
      exact hle l hl
    · change (s.encoder.buffer.bytes.take k.length).take l.length = _
      rw [List.take_take, Nat.min_eq_left (hle l hl)]
      exact hbytes

/-- Whatever was done, the buffer holds the instructions of requests of its calls. -/
theorem run_grown (h : s.Grown A) {steps : List BufferStep}
    (hcalls : ∀ call, .call call ∈ steps → Asks A call.act) : (s.run steps).Grown A := by
  induction steps generalizing s with
  | nil => exact h
  | cons x steps ih =>
    have hstep : (s.step x).Grown A := by
      cases x with
      | call call => exact h.call (hcalls call List.mem_cons_self)
      | checkpoint => exact h.checkpoint
      | rollback n => exact h.rollback n
    exact ih hstep fun call hc => hcalls call (List.mem_cons_of_mem _ hc)

end Editing

/-! ### Instructions of requests -/

theorem Instr.ForNode.readable {i : Instr} (h : i.ForNode) (hlen : i.encode.length < 2 ^ 32) : Engine.Instr.Readable i := by
  cases h with
  | mainBlock block =>
    simp only [Instr.encode, List.length_cons, Wire.length_sized] at hlen
    change block.length < 2 ^ 32
    omega
  | mainField ho hb => exact ⟨ho, hb⟩
  | count decrement ho ha =>
    refine ⟨ho, fun type htype _ => ?_⟩
    rw [PropType.ofTag?_tag] at htype
    cases htype
    exact ha

theorem Instr.ForField.readable {i : Instr} (h : i.ForField) (hlen : i.encode.length < 2 ^ 32) :
    Engine.Instr.Readable i := by
  cases h with
  | deleteField | deleteText => trivial
  | updateField payload =>
    simp only [Instr.encode, List.length_cons, Wire.length_sized] at hlen
    change payload.length < 2 ^ 32
    omega
  | setRef e =>
    simp only [Instr.encode, List.length_cons] at hlen
    exact Engine.RefEntry.readable_of_length (by omega)
  | setRefs es | addRefs es =>
    simp only [Instr.encode, List.length_cons] at hlen
    exact Engine.Instr.readable_of_items (by omega)
  | @removeRefs es hes =>
    simp only [Instr.encode, List.length_cons] at hlen
    exact ⟨(Engine.Instr.readable_of_items (by omega)).1, hes⟩

/-- A run can read every instruction of a request to its end. -/
theorem Request.readable {r : Request} (hr : r.Proper) {c : Cursor} {a : Aimed} (ha : a ∈ r.aimed c)
    (hlen : a.instr.encode.length < 2 ^ 32) : Engine.Instr.Readable a.instr := by
  have hmem : ∀ {aim is}, a ∈ aimedAt aim is → a.instr ∈ is := fun {aim is} h => by
    obtain ⟨i, hi, rfl⟩ := List.mem_map.1 h
    exact hi
  have htype : ∀ {aim type}, a ∈ aimedAt aim (c.selectType type) → Engine.Instr.Readable a.instr := fun {aim type} h => by
    have hi := hmem h
    unfold Cursor.selectType at hi
    split at hi
    · cases hi
    · rw [List.mem_singleton.1 hi]
      trivial
  cases r with
  | create type tmp =>
    rcases List.mem_append.1 ha with ha | ha
    · exact htype ha
    · rw [List.mem_singleton.1 (hmem ha)]
      trivial
  | select type node =>
    simp only [aimed] at ha
    split at ha
    · cases ha
    · rcases List.mem_append.1 ha with ha | ha
      · exact htype ha
      · have hi := hmem ha
        cases node with
        | link => cases hi
        | id n | tmp n =>
          rw [List.mem_singleton.1 hi]
          trivial
  | onNode i =>
    simp only [aimed] at ha
    split at ha
    · have hi := List.mem_singleton.1 (hmem ha)
      rw [hi] at hlen ⊢
      exact Instr.ForNode.readable hr hlen
    · cases ha
  | onField p i =>
    simp only [aimed] at ha
    split at ha
    · rcases List.mem_append.1 ha with ha | ha
      · have hi := hmem ha
        unfold Cursor.selectField at hi
        split at hi
        · cases hi
        · rw [List.mem_singleton.1 hi]
          trivial
      · have hi := List.mem_singleton.1 (hmem ha)
        rw [hi] at hlen ⊢
        exact Instr.ForField.readable hr hlen
    · cases ha
  | delete =>
    simp only [aimed] at ha
    split at ha
    · rw [List.mem_singleton.1 (hmem ha)]
      trivial
    · cases ha

theorem aimedAll_readable {rs : List Request} (hrs : ∀ r ∈ rs, r.Proper) {c : Cursor} {a : Aimed} (ha : a ∈ aimedAll c rs)
    (hlen : a.instr.encode.length < 2 ^ 32) : Engine.Instr.Readable a.instr := by
  induction rs generalizing c with
  | nil => cases ha
  | cons r rs ih =>
    rcases List.mem_append.1 ha with ha | ha
    · exact Request.readable (hrs r List.mem_cons_self) ha hlen
    · exact ih (fun r' hr' => hrs r' (List.mem_cons_of_mem _ hr')) ha

end Write

/-! ### What a run has selected -/

namespace Engine

open Write (Aim Cursor Selection)

variable {schema : SchemaLayout} {s : Run}

/-- What the cursor is on is selected. -/
def Run.Follows (schema : SchemaLayout) (s : Run) : Cursor → Prop
  | .idle => True
  | .main type node =>
    ∃ t id, schema.typeById? type = some t ∧ s.type = some t ∧ s.node = some id ∧ s.Denotes t.id id node
  | .separate type node slot =>
    ∃ t id p, schema.typeById? type = some t ∧ s.type = some t ∧ s.node = some id ∧ s.Denotes t.id id node ∧
      t.propBySlot? slot = some p ∧ s.field = some p

/-- What an instruction is for is selected; a property that the type does not have stands for the one in its slot. -/
def Run.Meets (schema : SchemaLayout) (s : Run) : Aim → Prop
  | .anything => True
  | .type type => ∃ t, schema.typeById? type = some t ∧ s.type = some t
  | .node type node => s.Follows schema (.main type node)
  | .field type node p => ∃ slot, p.slot? = some slot ∧ s.Follows schema (.separate type node slot) ∧
    ∀ t, s.type = some t → p ∈ t.props → s.field = some p

theorem Run.Agrees.main {sel : Selection} (h : s.Agrees schema sel) {type : TypeId} {node : Write.NodeTarget}
    (ht : sel.type = some type) (hn : sel.node = some node) : s.Follows schema (.main type node) := by
  obtain ⟨t, htype, hs⟩ := h.type type ht
  obtain ⟨t', id, hs', hid, hd⟩ := h.node node hn
  cases hs.symm.trans hs'
  exact ⟨t, id, htype, hs, hid, hd⟩

theorem Run.Agrees.separate {sel : Selection} (h : s.Agrees schema sel) {type : TypeId} {node : Write.NodeTarget}
    {slot : UInt8} (ht : sel.type = some type) (hn : sel.node = some node) (hslot : sel.slot = some slot) :
    s.Follows schema (.separate type node slot) := by
  obtain ⟨t, id, htype, hs, hid, hd⟩ := h.main ht hn
  obtain ⟨t', p, hs', hp, hfield⟩ := h.slot slot hslot
  cases hs.symm.trans hs'
  exact ⟨t, id, p, htype, hs, hid, hd, hp, hfield⟩

theorem Run.Agrees.follows {sel : Selection} (h : s.Agrees schema sel) {c : Cursor} (hc : c.Within sel) :
    s.Follows schema c := by
  cases c with
  | idle => trivial
  | main type node => exact h.main (hc.node type node rfl).1 (hc.node type node rfl).2
  | separate type node slot =>
    exact h.separate (hc.node type node rfl).1 (hc.node type node rfl).2 (hc.slot slot rfl)

theorem Run.Agrees.meets (hs : schema.Placed) {sel : Selection} (h : s.Agrees schema sel) {aim : Aim}
    (ha : aim.Within sel) : s.Meets schema aim := by
  cases aim with
  | anything => trivial
  | type type => exact h.type type ha
  | node type node => exact h.main ha.1 ha.2
  | field type node p =>
    obtain ⟨slot, hslot, rfl⟩ := ha
    have hfollows : s.Follows schema (.separate type node slot) := h.separate rfl rfl rfl
    refine ⟨slot, hslot, hfollows, fun t ht hp => ?_⟩
    obtain ⟨t', id, q, htype, ht', -, -, hq, hfield⟩ := hfollows
    cases ht.symm.trans ht'
    rw [hfield, ← hq]
    exact (hs.types t (hs.found _ _ htype).1).propBySlot? hp hslot

end Engine

namespace Write

open Engine (Run Store runInstrs)

/-! ### The simulation -/

open Engine.Friends in
/-- Two users are created. The second one gets a friend and is deleted, which is taken back; then a call fails, and the
second user gets the friend again. -/
def friendlySteps : List BufferStep :=
  let c : Context := ⟨.empty, Locale.none, false, none⟩
  let fields : List (Field EdgeLayout) := [⟨0, best, .ref (.id 1) []⟩]
  [.call (.createNode 1 0), .call (.createNode 1 1), .checkpoint, .call (.writeUpdate c user fields), .call .writeDelete,
    .rollback 0, .call (.writeCount best (.int 1) false), .call (.selectNode 1 (.tmp 1)), .call (.writeUpdate c user fields)]

end Write

end NodeStore
