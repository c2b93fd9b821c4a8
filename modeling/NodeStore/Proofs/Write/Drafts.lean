import NodeStore.Proofs.Write.Canonical

/-!
# What a call appends

A call that succeeds has appended instructions to the open buffer, and has noted a placeholder for each reference among
them whose target is not known yet.

* `Cursor.Within`: the cursor is where the reader of the instructions will be.
* `Appends`: what was appended between two drafts, and what was noted of it; all of it is canonical.
* `Writes`: an action on the fields of one node; `writeCreateWith_writes`, `writeUpdateWith_writes`, `writeCount_writes`.
-/

namespace NodeStore.Write

/-- What the cursor is on is selected. -/
structure Cursor.Within (c : Cursor) (s : Selection) : Prop where
  node : ∀ type n, c.node? = some (type, n) → s.type = some type ∧ s.node = some n
  slot : ∀ slot, c.slot? = some slot → s.slot = some slot

theorem Cursor.Within.idle (s : Selection) : Cursor.idle.Within s := ⟨nofun, nofun⟩

theorem Cursor.Within.main {s : Selection} {type : TypeId} {n : NodeTarget} (ht : s.type = some type)
    (hn : s.node = some n) : (Cursor.main type n).Within s := by
  refine ⟨fun type' n' h => ?_, nofun⟩
  cases h
  exact ⟨ht, hn⟩

theorem Cursor.Within.separate (type : TypeId) (n : NodeTarget) (slot : UInt8) :
    (Cursor.separate type n slot).Within (.field type n slot) := by
  constructor
  · intro type' n' h
    cases h
    exact ⟨rfl, rfl⟩
  · intro slot' h
    cases h
    rfl

theorem Cursor.exists_within (c : Cursor) : ∃ s, c.Within s := by
  cases c with
  | idle => exact ⟨.none, .idle _⟩
  | main type n => exact ⟨⟨some type, some n, none⟩, .main rfl rfl⟩
  | separate type n slot => exact ⟨_, .separate type n slot⟩

/-! ### Drafts -/

/-- The number of bytes written so far. -/
def Draft.length (d : Draft) : Nat := d.encoder.buffer.bytes.length

/-- The instructions `is` were appended, and placeholders noted that stand for the deferred references among them. -/
structure AppendsAll (schema : SchemaLayout) (P : Placeholder → Item → Prop) (d d' : Draft) (is : List Instr)
    (hs : List Placeholder) : Prop where
  bytes : d'.encoder.buffer.bytes = d.encoder.buffer.bytes ++ encodeAll is
  max : d'.encoder.buffer.max = d.encoder.buffer.max
  room : ∀ max, d.encoder.buffer.max = some max → d.length ≤ max → d'.length ≤ max
  noted : d'.placeholders = d.placeholders ++ hs
  within : ∀ s, d.encoder.cursor.Within s → d'.encoder.cursor.Within (s.after is)
  stand : ∀ s, d.encoder.cursor.Within s → List.Forall₂ P hs (deferred (itemsFrom s d.length is))
  canonical : ∀ s, d.encoder.cursor.Within s → CanonicalAll schema s is

variable {schema : SchemaLayout}

/-- Some instructions were appended. -/
def Appends (schema : SchemaLayout) (P : Placeholder → Item → Prop) (d d' : Draft) : Prop :=
  ∃ is hs, AppendsAll schema P d d' is hs

namespace Appends

variable {P Q : Placeholder → Item → Prop} {d d' d'' : Draft}

theorem refl (d : Draft) : Appends schema P d d :=
  ⟨[], [], by simp, rfl, fun _ _ h => h, by simp, fun _ h => h, fun _ _ => .nil, fun _ _ => trivial⟩

theorem trans (h : Appends schema P d d') (h' : Appends schema P d' d'') : Appends schema P d d'' := by
  obtain ⟨is, hs, h⟩ := h
  obtain ⟨is', hs', h'⟩ := h'
  have hlen : d'.length = d.length + (encodeAll is).length := by simp [Draft.length, h.bytes]
  refine ⟨is ++ is', hs ++ hs', ?_, h'.max.trans h.max, ?_, ?_, ?_, ?_, ?_⟩
  · simp [h'.bytes, h.bytes]
  · intro max hmax hle
    exact h'.room max (h.max.trans hmax) (h.room max hmax hle)
  · simp [h'.noted, h.noted]
  · intro s hs
    rw [Selection.after_append]
    exact h'.within _ (h.within s hs)
  · intro s hs
    rw [itemsFrom_append, deferred_append, ← hlen]
    exact List.rel_append (h.stand s hs) (h'.stand _ (h.within s hs))
  · intro s hs
    exact canonicalAll_append.2 ⟨h.canonical s hs, h'.canonical _ (h.within s hs)⟩

theorem mono (h : Appends schema P d d') (hPQ : ∀ x it, P x it → Q x it) : Appends schema Q d d' := by
  obtain ⟨is, hs, h⟩ := h
  exact ⟨is, hs, h.bytes, h.max, h.room, h.noted, h.within, fun s hs => (h.stand s hs).imp hPQ, h.canonical⟩

end Appends

/-! ### Primitive actions -/

section

variable {α : Type} {d d' : Draft} {P : Placeholder → Item → Prop}

theorem liftExcept_eq_ok {x : Except Error α} {a : α} : (liftM x : EncodeM α) d = .ok a d' ↔ x = .ok a ∧ d' = d := by
  cases x with
  | ok b =>
    change EStateM.Result.ok b d = .ok a d' ↔ _
    simp only [EStateM.Result.ok.injEq, Except.ok.injEq]
    exact ⟨fun h => ⟨h.1, h.2.symm⟩, fun h => ⟨h.1, h.2.symm⟩⟩
  | error e => exact ⟨nofun, nofun⟩

/-- There is room for `n` more bytes. -/
def Buffer.Room (b : Buffer) (n : Nat) : Prop := ∀ max, b.max = some max → n ≤ max - b.length

/-- The draft with some instructions behind it. -/
def Draft.append (d : Draft) (is : List Instr) : Draft :=
  { d with encoder.buffer.bytes := d.encoder.buffer.bytes ++ encodeAll is }

theorem Buffer.append_of_room {b : Buffer} {bs : Bytes} (h : b.Room bs.length) :
    b.append bs = .ok (b.length, { b with bytes := b.bytes ++ bs }) := by
  obtain ⟨bytes, max⟩ := b
  cases max with
  | none => rfl
  | some m =>
    have hm : bs.length ≤ m - Buffer.length ⟨bytes, some m⟩ := h m rfl
    simp only [append, ensure, if_pos hm]
    rfl

theorem Buffer.append_of_full {b : Buffer} {bs : Bytes} (h : ¬b.Room bs.length) : ∃ e, b.append bs = .error e := by
  obtain ⟨bytes, max⟩ := b
  cases max with
  | none => exact absurd nofun h
  | some m =>
    have hm : ¬bs.length ≤ m - Buffer.length ⟨bytes, some m⟩ := fun hm => h fun _ he => by cases he; exact hm
    exact ⟨_, by simp only [append, ensure, if_neg hm]; rfl⟩

/-- Instructions are appended as a whole, if there is room for them. -/
theorem emit_of_room {is : List Instr} (h : d.encoder.buffer.Room (encodeAll is).length) :
    emit is d = .ok d.length (d.append is) := by
  unfold emit
  rw [EStateM.bind_of_ok (rfl : (get : EncodeM Draft) d = .ok d d)]
  simp only [Buffer.append_of_room h]
  rfl

theorem emit_of_full {is : List Instr} (h : ¬d.encoder.buffer.Room (encodeAll is).length) :
    ∃ e, emit is d = .error (.bufferFull e) d := by
  obtain ⟨e, he⟩ := Buffer.append_of_full h
  refine ⟨e, ?_⟩
  unfold emit
  rw [EStateM.bind_of_ok (rfl : (get : EncodeM Draft) d = .ok d d)]
  simp only [he]
  rfl

theorem emit_eq_ok {is : List Instr} {start : Nat} :
    emit is d = .ok start d' ↔ d.encoder.buffer.Room (encodeAll is).length ∧ start = d.length ∧ d' = d.append is := by
  by_cases h : d.encoder.buffer.Room (encodeAll is).length
  · rw [emit_of_room h, EStateM.Result.ok.injEq]
    exact ⟨fun ⟨h₁, h₂⟩ => ⟨h, h₁.symm, h₂.symm⟩, fun ⟨_, h₁, h₂⟩ => ⟨h₁.symm, h₂.symm⟩⟩
  · obtain ⟨e, he⟩ := emit_of_full h
    rw [he]
    exact ⟨nofun, fun h' => absurd h'.1 h⟩

theorem cursor_eq_ok {c : Cursor} : cursor d = .ok c d' ↔ c = d.encoder.cursor ∧ d' = d := by
  change EStateM.Result.ok d.encoder.cursor d = .ok c d' ↔ _
  rw [EStateM.Result.ok.injEq]
  exact ⟨fun h => ⟨h.1.symm, h.2.symm⟩, fun h => ⟨h.1.symm, h.2.symm⟩⟩

theorem moveTo_eq_ok {c : Cursor} {u : Unit} :
    moveTo c d = .ok u d' ↔ d' = { d with encoder := { d.encoder with cursor := c } } := by
  change EStateM.Result.ok PUnit.unit _ = .ok u d' ↔ _
  rw [EStateM.Result.ok.injEq]
  exact ⟨fun h => h.2.symm, fun h => ⟨rfl, h.symm⟩⟩

theorem note_eq_ok {hs : List Placeholder} {u : Unit} :
    note hs d = .ok u d' ↔ d' = { d with placeholders := d.placeholders ++ hs } := by
  change EStateM.Result.ok PUnit.unit _ = .ok u d' ↔ _
  rw [EStateM.Result.ok.injEq]
  exact ⟨fun h => h.2.symm, fun h => ⟨rfl, h.symm⟩⟩

theorem activeNode_eq_ok {n : TypeId × NodeTarget} :
    activeNode d = .ok n d' ↔ d.encoder.cursor.node? = some n ∧ d' = d := by
  unfold activeNode
  rw [EStateM.bind_eq_ok]
  constructor
  · rintro ⟨c, d₁, hc, h⟩
    obtain ⟨rfl, rfl⟩ := cursor_eq_ok.1 hc
    cases hn : d₁.encoder.cursor.node? with
    | none => rw [hn] at h; cases h
    | some m => rw [hn] at h; cases h; exact ⟨rfl, rfl⟩
  · rintro ⟨hn, rfl⟩
    exact ⟨_, _, cursor_eq_ok.2 ⟨rfl, rfl⟩, by rw [hn]; rfl⟩

/-- The draft with the cursor somewhere else. -/
def Draft.at (d : Draft) (c : Cursor) : Draft := { d with encoder := { d.encoder with cursor := c } }

/-- Behind what was appended there is room for what was appended with it. -/
theorem room_append (d : Draft) (c : Cursor) (is js : List Instr) :
    d.encoder.buffer.Room (encodeAll (is ++ js)).length ↔
      d.encoder.buffer.Room (encodeAll is).length ∧ ((d.append is).at c).encoder.buffer.Room (encodeAll js).length := by
  unfold Buffer.Room Draft.append Draft.at Buffer.length
  simp only [encodeAll_append, List.length_append]
  constructor
  · intro h
    exact ⟨fun max hmax => by have := h max hmax; omega, fun max hmax => by have := h max hmax; omega⟩
  · rintro ⟨h, h'⟩ max hmax
    have := h max hmax
    have := h' max hmax
    omega

theorem AppendsAll.of_append {is : List Instr} {c : Cursor} (hs : List Placeholder)
    (hroom : d.encoder.buffer.Room (encodeAll is).length)
    (hwithin : ∀ s, d.encoder.cursor.Within s → c.Within (s.after is))
    (hstand : ∀ s, d.encoder.cursor.Within s → List.Forall₂ P hs (deferred (itemsFrom s d.length is)))
    (hcanonical : ∀ s, d.encoder.cursor.Within s → CanonicalAll schema s is) :
    AppendsAll schema P d { (d.append is).at c with placeholders := d.placeholders ++ hs } is hs where
  bytes := rfl
  max := rfl
  room := by
    intro max hmax hle
    have h := hroom max hmax
    simp only [Draft.length, Draft.at, Draft.append, Buffer.length, List.length_append] at *
    omega
  noted := rfl
  within := hwithin
  stand := hstand
  canonical := hcanonical

/-- What is appended without references notes nothing. -/
theorem Appends.of_append {is : List Instr} {c : Cursor} (hroom : d.encoder.buffer.Room (encodeAll is).length)
    (hwithin : ∀ s, d.encoder.cursor.Within s → c.Within (s.after is))
    (hstand : ∀ s pos, itemsFrom s pos is = []) (hcanonical : ∀ s, d.encoder.cursor.Within s → CanonicalAll schema s is) :
    Appends schema P d ((d.append is).at c) := by
  have h := AppendsAll.of_append (P := P) [] hroom hwithin (fun s _ => by rw [hstand]; exact .nil) hcanonical
  rw [List.append_nil] at h
  exact ⟨is, [], h⟩

/-- An action that writes to one node: it appends instructions and stays on the node. -/
def Writes (schema : SchemaLayout) (P : Placeholder → Item → Prop) (type : TypeId) (node : NodeTarget) (x : EncodeM α) : Prop :=
  ∀ d a d', d.encoder.cursor.node? = some (type, node) → x d = .ok a d' →
    Appends schema P d d' ∧ d'.encoder.cursor.node? = some (type, node)

end

namespace Writes

variable {α β : Type} {P : Placeholder → Item → Prop} {type : TypeId} {node : NodeTarget}

theorem pure (a : α) : Writes schema P type node (Pure.pure a) := by
  intro d b d' hd h
  cases h
  exact ⟨.refl d, hd⟩

theorem throw (e : Error) : Writes schema P type node (throw e : EncodeM α) := nofun

theorem bind {x : EncodeM α} {f : α → EncodeM β} (hx : Writes schema P type node x) (hf : ∀ a, Writes schema P type node (f a)) :
    Writes schema P type node (x >>= f) := by
  intro d b d'' hd h
  obtain ⟨a, d', ha, h⟩ := EStateM.bind_eq_ok.1 h
  obtain ⟨h₁, hd'⟩ := hx d a d' hd ha
  obtain ⟨h₂, hd''⟩ := hf a d' b d'' hd' h
  exact ⟨h₁.trans h₂, hd''⟩

/-- What comes without the buffer is put to use. -/
theorem lift {x : Except Error α} {f : α → EncodeM β} (hf : ∀ a, x = .ok a → Writes schema P type node (f a)) :
    Writes schema P type node ((liftM x : EncodeM α) >>= f) := by
  intro d b d' hd h
  obtain ⟨a, d₁, hl, hrest⟩ := EStateM.bind_eq_ok.1 h
  obtain ⟨ha, rfl⟩ := liftExcept_eq_ok.1 hl
  exact hf a ha _ b d' hd hrest

theorem discard {x : EncodeM α} (hx : Writes schema P type node x) : Writes schema P type node (x >>= fun _ => Pure.pure PUnit.unit) :=
  hx.bind fun _ => pure _

theorem forM {xs : List α} {f : α → EncodeM PUnit} (hf : ∀ x ∈ xs, Writes schema P type node (f x)) :
    Writes schema P type node (xs.forM f) := by
  induction xs with
  | nil => exact pure _
  | cons x xs ih =>
    change Writes schema P type node (f x >>= fun _ => xs.forM f)
    exact (hf x List.mem_cons_self).bind fun _ => ih fun y hy => hf y (List.mem_cons_of_mem _ hy)

end Writes

/-! ### Selecting -/

section

variable {P : Placeholder → Item → Prop} {d d' : Draft}

/-- The selector of a type leaves the type selected. -/
theorem Cursor.Within.selectType {c : Cursor} {s : Selection} (h : c.Within s) (type : TypeId) :
    (s.after (c.selectType type)).type = some type := by
  unfold Cursor.selectType
  split
  · rename_i ht
    obtain ⟨⟨t, n⟩, hn, rfl⟩ := Option.map_eq_some_iff.1 ht
    exact (h.node t n hn).1
  · rfl

theorem Cursor.itemsFrom_selectType (c : Cursor) (type : TypeId) (s : Selection) (pos : Nat) :
    itemsFrom s pos (c.selectType type) = [] := by
  unfold Cursor.selectType
  split <;> rfl

theorem canonicalAll_selectType (c : Cursor) (type : TypeId) (s : Selection) : CanonicalAll schema s (c.selectType type) := by
  unfold Cursor.selectType
  split
  · trivial
  · exact ⟨trivial, trivial⟩

/-- A new node is created and selected. -/
theorem createNode_appends {type : TypeId} {tmp : UInt32} {u : Unit} (h : createNode type tmp d = .ok u d') :
    Appends schema P d d' ∧ d'.encoder.cursor.node? = some (type, .tmp tmp) := by
  unfold createNode at h
  obtain ⟨c, d₁, hc, h⟩ := EStateM.bind_eq_ok.1 h
  obtain ⟨rfl, rfl⟩ := cursor_eq_ok.1 hc
  obtain ⟨start, d₂, he, h⟩ := EStateM.bind_eq_ok.1 h
  obtain ⟨hroom, rfl, rfl⟩ := emit_eq_ok.1 he
  cases moveTo_eq_ok.1 h
  refine ⟨.of_append hroom ?_ ?_ ?_, rfl⟩
  · intro s hs
    rw [Selection.after_append]
    exact .main (hs.selectType type) rfl
  · intro s pos
    rw [itemsFrom_append, Cursor.itemsFrom_selectType]
    rfl
  · exact fun s _ => canonicalAll_append.2 ⟨canonicalAll_selectType .., trivial, trivial⟩

/-- The selector of a node. -/
def NodeTarget.selector : NodeTarget → List Instr
  | .id n => [.selectNode n]
  | .tmp n => [.selectTmp n]
  | .link => []

/-- The selectors of a node of some type, unless the cursor is on it. -/
def Cursor.selectNode (c : Cursor) (type : TypeId) (node : NodeTarget) : List Instr :=
  if c.node? = some (type, node) then [] else c.selectType type ++ node.selector

/-- Where the cursor is once a node is selected. -/
def Cursor.on (c : Cursor) (type : TypeId) (node : NodeTarget) : Cursor :=
  if c.node? = some (type, node) then c else .main type node

theorem Draft.append_nil (d : Draft) : d.append [] = d := by
  obtain ⟨⟨⟨bytes, max⟩, cursor⟩, hs⟩ := d
  simp [Draft.append]

/-- Going to a node writes its selectors. -/
theorem selectNode_eq {type : TypeId} {node : NodeTarget} (hnode : node ≠ .link) (d : Draft) :
    selectNode type node d =
      (do let _ ← emit (d.encoder.cursor.selectNode type node); moveTo (d.encoder.cursor.on type node)) d := by
  unfold selectNode Cursor.selectNode Cursor.on
  change EStateM.bind cursor _ d = EStateM.bind (emit _) _ d
  simp only [EStateM.bind, (cursor_eq_ok (d := d)).2 ⟨rfl, rfl⟩]
  by_cases hn : d.encoder.cursor.node? = some (type, node)
  · have hroom : d.encoder.buffer.Room (encodeAll []).length := fun _ _ => Nat.zero_le _
    simp only [if_pos hn, emit_of_room hroom, Draft.append_nil]
    rfl
  · simp only [if_neg hn]
    cases node with
    | id n => rfl
    | tmp n => rfl
    | link => exact absurd rfl hnode

theorem selectNode_of_room {type : TypeId} {node : NodeTarget} (hnode : node ≠ .link)
    (h : d.encoder.buffer.Room (encodeAll (d.encoder.cursor.selectNode type node)).length) :
    selectNode type node d = .ok () ((d.append (d.encoder.cursor.selectNode type node)).at (d.encoder.cursor.on type node)) :=
  (selectNode_eq hnode d).trans (EStateM.bind_of_ok (emit_of_room h))

theorem selectNode_of_full {type : TypeId} {node : NodeTarget} (hnode : node ≠ .link)
    (h : ¬d.encoder.buffer.Room (encodeAll (d.encoder.cursor.selectNode type node)).length) :
    ∃ e, selectNode type node d = .error (.bufferFull e) d := by
  obtain ⟨e, he⟩ := emit_of_full h
  exact ⟨e, (selectNode_eq hnode d).trans (EStateM.bind_of_error he)⟩

theorem Cursor.node?_on (c : Cursor) (type : TypeId) (node : NodeTarget) : (c.on type node).node? = some (type, node) := by
  unfold Cursor.on
  split
  · assumption
  · rfl

theorem Cursor.Within.selectNode {c : Cursor} {s : Selection} (h : c.Within s) (type : TypeId) {node : NodeTarget}
    (hnode : node ≠ .link) : (c.on type node).Within (s.after (c.selectNode type node)) := by
  unfold Cursor.selectNode Cursor.on
  split
  · exact h
  · rw [Selection.after_append]
    have ht := h.selectType type
    cases node with
    | id n => exact .main ht rfl
    | tmp n => exact .main ht rfl
    | link => exact absurd rfl hnode

theorem Cursor.itemsFrom_selectNode (c : Cursor) (type : TypeId) (node : NodeTarget) (s : Selection) (pos : Nat) :
    itemsFrom s pos (c.selectNode type node) = [] := by
  unfold Cursor.selectNode
  split
  · rfl
  · rw [itemsFrom_append, Cursor.itemsFrom_selectType]
    cases node <;> rfl

theorem canonicalAll_selectNode (c : Cursor) (type : TypeId) (node : NodeTarget) (s : Selection) :
    CanonicalAll schema s (c.selectNode type node) := by
  unfold Cursor.selectNode
  split
  · trivial
  · refine canonicalAll_append.2 ⟨canonicalAll_selectType .., ?_⟩
    cases node <;> simp [NodeTarget.selector, CanonicalAll, Instr.Canonical]

/-- An existing node is selected. -/
theorem selectNode_appends {type : TypeId} {node : NodeTarget} {u : Unit} (hnode : node ≠ .link)
    (h : selectNode type node d = .ok u d') : Appends schema P d d' ∧ d'.encoder.cursor.node? = some (type, node) := by
  rw [selectNode_eq hnode] at h
  obtain ⟨start, d₁, he, h⟩ := EStateM.bind_eq_ok.1 h
  obtain ⟨hroom, rfl, rfl⟩ := emit_eq_ok.1 he
  cases moveTo_eq_ok.1 h
  refine ⟨.of_append hroom ?_ ?_ fun s _ => canonicalAll_selectNode .., Cursor.node?_on ..⟩
  · intro s hs
    exact hs.selectNode type hnode
  · intro s pos
    exact Cursor.itemsFrom_selectNode ..

end

/-! ### Writing to the selected node -/

section

variable {P : Placeholder → Item → Prop} {type : TypeId} {node : NodeTarget}

theorem nodeInstr_spec {i : Instr} {d d' : Draft} {u : Unit} (h : nodeInstr i d = .ok u d') :
    d.encoder.buffer.Room (encodeAll [i]).length ∧ d' = d.append [i] := by
  unfold nodeInstr at h
  obtain ⟨n, d₁, hn, hemit⟩ := EStateM.bind_eq_ok.1 h
  obtain ⟨-, rfl⟩ := activeNode_eq_ok.1 hn
  obtain ⟨start, d₂, he, hpure⟩ := EStateM.bind_eq_ok.1 hemit
  obtain ⟨hroom, rfl, rfl⟩ := emit_eq_ok.1 he
  cases hpure
  exact ⟨hroom, rfl⟩

/-- An instruction for a node that holds no references. -/
theorem nodeInstr_writes {i : Instr} (hi : ∀ s pos, i.items s pos = []) (hstep : ∀ s : Selection, s.step i = s)
    (hcanonical : ∀ s : Selection, s.type = some type → i.Canonical schema s) : Writes schema P type node (nodeInstr i) := by
  intro d u d' hd h
  obtain ⟨hroom, rfl⟩ := nodeInstr_spec h
  refine ⟨.of_append (c := d.encoder.cursor) hroom ?_ ?_ ?_, hd⟩
  · intro s hs
    rw [Selection.after_cons, hstep]
    exact hs
  · intro s pos
    simp [itemsFrom, hi]
  · exact fun s hs => canonicalAll_singleton.2 (hcanonical s (hs.node _ _ hd).1)

/-- An instruction for a field selects the field and is written behind its selector. -/
theorem fieldInstr_eq_ok {E : Type} {p : PropDef E} {i : Instr} {d d' : Draft} {start : Nat}
    (hd : d.encoder.cursor.node? = some (type, node)) :
    fieldInstr p i d = .ok start d' ↔
      ∃ slot, p.slot? = some slot ∧
        d.encoder.buffer.Room (encodeAll (d.encoder.cursor.selectField slot p.type.tag ++ [i])).length ∧
        start = d.length + (encodeAll (d.encoder.cursor.selectField slot p.type.tag)).length ∧
        d' = (d.append (d.encoder.cursor.selectField slot p.type.tag ++ [i])).at (.separate type node slot) := by
  have hactive : activeNode d = .ok (type, node) d := activeNode_eq_ok.2 ⟨hd, rfl⟩
  have hcursor : cursor d = .ok d.encoder.cursor d := cursor_eq_ok.2 ⟨rfl, rfl⟩
  unfold fieldInstr
  change EStateM.bind activeNode _ d = _ ↔ _
  simp only [EStateM.bind, hactive]
  cases hslot : p.slot? with
  | none => exact ⟨nofun, nofun⟩
  | some slot =>
    dsimp only
    change EStateM.bind cursor _ d = _ ↔ _
    simp only [EStateM.bind, hcursor]
    rw [EStateM.bind_eq_ok]
    constructor
    · rintro ⟨start', d₁, he, h⟩
      obtain ⟨hroom, rfl, rfl⟩ := emit_eq_ok.1 he
      cases h
      exact ⟨slot, rfl, hroom, rfl, rfl⟩
    · rintro ⟨slot', hs, hroom, rfl, rfl⟩
      cases hs
      exact ⟨_, _, emit_eq_ok.2 ⟨hroom, rfl, rfl⟩, rfl⟩

theorem fieldInstr_of_full {E : Type} {p : PropDef E} {i : Instr} {d : Draft} {slot : UInt8}
    (hd : d.encoder.cursor.node? = some (type, node)) (hslot : p.slot? = some slot)
    (h : ¬d.encoder.buffer.Room (encodeAll (d.encoder.cursor.selectField slot p.type.tag ++ [i])).length) :
    ∃ e, fieldInstr p i d = .error (.bufferFull e) d := by
  obtain ⟨e, he⟩ := emit_of_full h
  refine ⟨e, ?_⟩
  have hactive : activeNode d = .ok (type, node) d := activeNode_eq_ok.2 ⟨hd, rfl⟩
  have hcursor : cursor d = .ok d.encoder.cursor d := cursor_eq_ok.2 ⟨rfl, rfl⟩
  unfold fieldInstr
  rw [EStateM.bind_of_ok hactive]
  simp only [hslot]
  rw [EStateM.bind_of_ok hcursor, EStateM.bind_of_error he]

theorem Cursor.Within.selectField {c : Cursor} {s : Selection} (h : c.Within s) (hc : c.node? = some (type, node))
    (slot tag : UInt8) : s.after (c.selectField slot tag) = .field type node slot := by
  obtain ⟨ht, hn⟩ := h.node _ _ hc
  unfold Cursor.selectField Selection.field
  split
  · rename_i hslot
    rw [Selection.after_nil, ← ht, ← hn, ← h.slot slot hslot]
  · rw [← ht, ← hn]
    rfl

theorem Cursor.itemsFrom_selectField (c : Cursor) (slot tag : UInt8) (s : Selection) (pos : Nat) :
    itemsFrom s pos (c.selectField slot tag) = [] := by
  unfold Cursor.selectField
  split <;> rfl

theorem canonicalAll_selectField (c : Cursor) (slot tag : UInt8) (s : Selection) :
    CanonicalAll schema s (c.selectField slot tag) := by
  unfold Cursor.selectField
  split
  · trivial
  · exact ⟨trivial, trivial⟩

/-- The selectors of a field of a node, unless the cursor is there. -/
def Cursor.selectFieldOf (c : Cursor) (type : TypeId) (node : NodeTarget) (slot tag : UInt8) : List Instr :=
  c.selectNode type node ++ (c.on type node).selectField slot tag

theorem Cursor.Within.selectFieldOf {c : Cursor} {s : Selection} (h : c.Within s) (type : TypeId) {node : NodeTarget} (hnode : node ≠ .link)
    (slot tag : UInt8) : s.after (c.selectFieldOf type node slot tag) = .field type node slot := by
  rw [Cursor.selectFieldOf, Selection.after_append]
  exact (h.selectNode type hnode).selectField (Cursor.node?_on ..) slot tag

theorem Cursor.length_selectFieldOf_le (c : Cursor) (type : TypeId) (node : NodeTarget) (slot tag : UInt8) :
    (encodeAll (c.selectFieldOf type node slot tag)).length ≤ 11 := by
  have htype : (encodeAll (c.selectType type)).length ≤ 3 := by
    unfold Cursor.selectType
    split <;> simp [Instr.encode]
  have hselector : (encodeAll node.selector).length ≤ 5 := by cases node <;> simp [NodeTarget.selector, Instr.encode]
  have hfield : (encodeAll ((c.on type node).selectField slot tag)).length ≤ 3 := by
    unfold Cursor.selectField
    split <;> simp [Instr.encode]
  have hnode : (encodeAll (c.selectNode type node)).length ≤ 8 := by
    unfold Cursor.selectNode
    split
    · exact Nat.zero_le _
    · rw [encodeAll_append, List.length_append]
      omega
  rw [Cursor.selectFieldOf, encodeAll_append, List.length_append]
  omega

/-- What is appended for a field, and how its references are noted. -/
theorem fieldInstr_appends {E : Type} {p : PropDef E} {i : Instr} {d d' : Draft} {start : Nat} (hs : List Placeholder)
    (hd : d.encoder.cursor.node? = some (type, node)) (h : fieldInstr p i d = .ok start d')
    (hstep : ∀ s : Selection, s.step i = s)
    (hstand : ∀ slot, p.slot? = some slot → List.Forall₂ P hs (deferred (i.items (.field type node slot) start)))
    (hcanonical : ∀ slot, p.slot? = some slot → i.Canonical schema (.field type node slot)) :
    Appends schema P d { d' with placeholders := d.placeholders ++ hs } ∧ d'.encoder.cursor.node? = some (type, node) := by
  obtain ⟨slot, hslot, hroom, rfl, rfl⟩ := (fieldInstr_eq_ok hd).1 h
  refine ⟨⟨_, hs, .of_append hs hroom ?_ ?_ ?_⟩, rfl⟩
  · intro s hs
    rw [Selection.after_append, hs.selectField hd, Selection.after_cons, hstep]
    exact .separate ..
  · intro s hs
    rw [itemsFrom_append, Cursor.itemsFrom_selectField, hs.selectField hd, List.nil_append]
    simpa [itemsFrom] using hstand slot hslot
  · intro s hs
    refine canonicalAll_append.2 ⟨canonicalAll_selectField .., canonicalAll_singleton.2 ?_⟩
    rw [hs.selectField hd]
    exact hcanonical slot hslot

/-- An instruction for a field that holds no references. -/
theorem fieldInstr_writes {E : Type} {p : PropDef E} {i : Instr} (hi : ∀ s pos, i.items s pos = [])
    (hstep : ∀ s : Selection, s.step i = s)
    (hcanonical : ∀ slot, p.slot? = some slot → i.Canonical schema (.field type node slot)) : Writes schema P type node (fieldInstr p i) := by
  intro d start d' hd h
  have h' := fieldInstr_appends (P := P) [] hd h hstep (fun slot _ => by rw [hi]; exact .nil) hcanonical
  obtain ⟨slot, -, -, -, rfl⟩ := (fieldInstr_eq_ok hd).1 h
  rw [List.append_nil] at h'
  exact h'

end

/-! ### References -/

section

variable {E : Type} {c : Context} {edgesOf : EdgeEncoder E} {props : List (PropDef E)} {type : TypeId}
  {node : NodeTarget} {p : PropDef E}

/-- A placeholder stands for a reference of one node whose target is in flight. -/
structure Placeholder.Marks (c : Context) (edgesOf : EdgeEncoder E) (props : List (PropDef E)) (type : TypeId)
    (node : NodeTarget) (h : Placeholder) (it : Item) : Prop where
  pos : it.pos = h.pos
  many : it.many = h.many
  waits : it.entry.target = .deferred
  flight : ∃ seq, c.registry.status h.target = .ok (.inFlight seq)
  field : ∃ p ∈ props, ∃ slot, p.name = h.prop ∧ p.slot? = some slot ∧ it.place = .field type node slot ∧
    p.type = (if h.many then .references else .reference) ∧ linkBlock c edgesOf p h.edges true = .ok it.entry.edges

theorem refEntry_eq_ok {item : RefItem} {entry : RefEntry × Option PendingId} :
    refEntry c edgesOf p item = .ok entry ↔
      ∃ wire block, c.registry.wireTarget item.1 = .ok wire ∧ checkTargetType c p item = .ok () ∧
        checkInLink c p wire = .ok () ∧ linkBlock c edgesOf p item.2 wire.waits.isSome = .ok block ∧
        entry = (⟨wire.refId, block⟩, wire.waits) := by
  unfold refEntry
  simp only [Except.bind_eq_ok]
  constructor
  · rintro ⟨wire, hwire, _, htype, _, hlink, block, hblock, h⟩
    cases h
    exact ⟨wire, block, hwire, htype, hlink, hblock, rfl⟩
  · rintro ⟨wire, block, hwire, htype, hlink, hblock, rfl⟩
    exact ⟨wire, hwire, (), htype, (), hlink, block, hblock, rfl⟩

/-- A target is deferred if it is in flight. -/
theorem Registry.wireTarget_deferred {r : Registry} {target : NodeRef} {q : PendingId}
    (h : r.wireTarget target = .ok (.deferred q)) : target = .pending q ∧ ∃ seq, r.status q = .ok (.inFlight seq) := by
  cases target with
  | id n => cases h
  | pending p =>
    obtain ⟨state, hs, h⟩ := Except.bind_eq_ok.1 h
    cases state with
    | inFlight seq => cases h; exact ⟨rfl, seq, hs⟩
    | _ => cases h

/-- A reference waits for a node exactly if its target is not known. -/
theorem refEntry_spec {item : RefItem} {e : RefEntry} {waits : Option PendingId}
    (h : refEntry c edgesOf p item = .ok (e, waits)) :
    (waits = none → e.target ≠ .deferred) ∧
      ∀ q, waits = some q → e.target = .deferred ∧ (∃ seq, c.registry.status q = .ok (.inFlight seq)) ∧
        linkBlock c edgesOf p item.2 true = .ok e.edges := by
  obtain ⟨wire, block, hwire, -, -, hblock, h⟩ := refEntry_eq_ok.1 h
  cases h
  cases wire with
  | id n => exact ⟨fun _ => nofun, nofun⟩
  | tmp n => exact ⟨fun _ => nofun, nofun⟩
  | deferred q =>
    refine ⟨nofun, fun q' hq => ?_⟩
    cases hq
    exact ⟨rfl, (Registry.wireTarget_deferred hwire).2, hblock⟩

/-- The placeholders of a list stand for its references that wait. -/
theorem placeholdersOf_marks (type : TypeId) (node : NodeTarget) {many : Bool} {slot : UInt8} (hp : p ∈ props) (hslot : p.slot? = some slot)
    (hmany : p.type = if many then .references else .reference) {items : List RefItem}
    {entries : List (RefEntry × Option PendingId)}
    (h : List.Forall₂ (fun item entry => refEntry c edgesOf p item = .ok entry) items entries) (pos : Nat) :
    List.Forall₂ (Placeholder.Marks c edgesOf props type node)
      (placeholdersOf p.name many (items.zip (entries.map (·.2))) (RefEntry.offsets pos (entries.map (·.1))))
      (deferred (entriesFrom (.field type node slot) many pos (entries.map (·.1)))) := by
  induction h generalizing pos with
  | nil => exact .nil
  | @cons item entry items entries hentry _ ih =>
    obtain ⟨e, waits⟩ := entry
    obtain ⟨hknown, hwaits⟩ := refEntry_spec hentry
    cases waits with
    | none =>
      have hd : ¬e.target = .deferred := hknown rfl
      simp only [List.map_cons, List.zip_cons_cons, RefEntry.offsets, placeholdersOf, entriesFrom, deferred,
        List.filter_cons, hd, decide_false]
      exact ih _
    | some q =>
      obtain ⟨hd, hflight, hblock⟩ := hwaits q rfl
      simp only [List.map_cons, List.zip_cons_cons, RefEntry.offsets, placeholdersOf, entriesFrom, deferred,
        List.filter_cons, hd, decide_true, if_true]
      refine .cons ⟨rfl, rfl, hd, hflight, p, hp, slot, rfl, hslot, rfl, hmany, hblock⟩ (ih _)

theorem RefEntry.offsets_add (start pos : Nat) (es : List RefEntry) :
    (RefEntry.offsets pos es).map (start + ·) = RefEntry.offsets (start + pos) es := by
  induction es generalizing pos with
  | nil => rfl
  | cons e es ih => simp [RefEntry.offsets, ih, Nat.add_assoc]

/-- The instructions that hold references that may wait. -/
def Instr.Holds (many : Bool) (es : List RefEntry) (i : Instr) : Prop :=
  (many = false ∧ ∃ e, es = [e] ∧ i = .setRef e) ∨ (many = true ∧ (i = .setRefs es ∨ i = .addRefs es))

/-- An instruction with references notes those that wait. -/
theorem refInstr_writes (many : Bool) (hp : p ∈ props) (hmany : p.type = if many then .references else .reference)
    {items : List RefItem} {entries : List (RefEntry × Option PendingId)}
    (h : List.Forall₂ (fun item entry => refEntry c edgesOf p item = .ok entry) items entries) {i : Instr}
    (hi : i.Holds many (entries.map (·.1))) :
    Writes schema (Placeholder.Marks c edgesOf props type node) type node (refInstr p many items entries i) := by
  intro d u d' hd hrun
  unfold refInstr at hrun
  obtain ⟨start, d₁, hf, hn⟩ := EStateM.bind_eq_ok.1 hrun
  cases note_eq_ok.1 hn
  obtain ⟨slot, hslot, -, -, hd₁⟩ := (fieldInstr_eq_ok hd).1 hf
  have hnoted : d₁.placeholders = d.placeholders := by rw [hd₁]; rfl
  rw [hnoted]
  refine fieldInstr_appends _ hd hf ?_ ?_ ?_
  · intro s
    rcases hi with ⟨-, e, -, rfl⟩ | ⟨-, rfl | rfl⟩ <;> rfl
  · intro slot hslot
    rcases hi with ⟨hm, e, he, rfl⟩ | ⟨hm, rfl | rfl⟩
    · have := placeholdersOf_marks type node hp hslot hmany h (start + 1)
      rw [he, hm] at this
      rw [hm]
      exact this
    · rw [hm]
      have := placeholdersOf_marks type node hp hslot hmany h (start + 5)
      rw [hm] at this
      rw [Instr.refOffsets, RefEntry.offsets_add]
      exact this
    · rw [hm]
      have := placeholdersOf_marks type node hp hslot hmany h (start + 5)
      rw [hm] at this
      rw [Instr.refOffsets, RefEntry.offsets_add]
      exact this
  · intro slot _
    rcases hi with ⟨-, e, -, rfl⟩ | ⟨-, rfl | rfl⟩ <;> trivial

/-- A list of references is written to a collection. -/
theorem writeRefs_writes (hp : p ∈ props) (htype : p.type = .references) {make : List RefEntry → Instr}
    (hmake : ∀ es, make es = .setRefs es ∨ make es = .addRefs es) (items : List RefItem) :
    Writes schema (Placeholder.Marks c edgesOf props type node) type node (writeRefs c edgesOf p make items) := by
  refine Writes.lift fun entries hentries => ?_
  exact refInstr_writes true hp htype (mapM_forall₂ hentries) (.inr ⟨rfl, hmake _⟩)

/-- What is removed says nothing of links. -/
theorem edges_of_removedRef {v : Value} {target : NodeRef} {e : RefEntry} (h : removedRef c p v target = .ok e) :
    e.edges = none := by
  obtain ⟨wire, -, h⟩ := Except.bind_eq_ok.1 h
  cases wire with
  | id n | tmp n =>
    cases h
    rfl
  | deferred q => cases h

theorem writeRemoved_writes (P : Placeholder → Item → Prop) (v : Value) (targets : List NodeRef) :
    Writes schema P type node (writeRemoved c p v targets) := by
  unfold writeRemoved
  split
  · refine Writes.lift fun entries hentries => ?_
    refine .discard (fieldInstr_writes (fun _ _ => rfl) (fun _ => rfl) fun _ _ e he => ?_)
    obtain ⟨target, -, htarget⟩ := exists_of_forall₂_left (mapM_forall₂ hentries).flip he
    exact edges_of_removedRef htarget
  · exact .pure _

end

/-! ### Fields of a node -/

section

variable {c : Context} {edgesOf : EdgeEncoder EdgeLayout} {type : TypeId} {node : NodeTarget} {t : TypeLayout} {p : PropDef EdgeLayout}

/-- What is written to a string is a string. -/
theorem canonical_updateField (ht : schema.typeById? type = some t) (hp : p ∈ t.props) {payload : Bytes}
    (h : p.type = .string ∨ p.type = .alias → ∃ str, payload = Payload.plain (Utf8.encode str)) (slot : UInt8)
    (hslot : p.slot? = some slot) : Instr.Canonical schema (.field type node slot) (.updateField payload) :=
  ⟨t, p, slot, Selection.layout?_of_type rfl ht, rfl, hp, hslot, h⟩

theorem plain_of_encodeSeparate {v : Value} {payload : Bytes} (h : p.encodeSeparate v = .ok payload)
    (ht : p.type = .string ∨ p.type = .alias) : ∃ str, payload = Payload.plain (Utf8.encode str) := by
  unfold PropDef.encodeSeparate at h
  rcases ht with ht | ht <;>
  · simp only [ht] at h
    cases v <;> cases h
    exact ⟨_, rfl⟩

theorem writeText_writes (P : Placeholder → Item → Prop) (ht : schema.typeById? type = some t) (hp : p ∈ t.props)
    (htext : p.type = .text) (create : Bool) (v : Value) (entry : String × String) :
    Writes schema P type node (writeText create p v entry) := by
  have hplain : ∀ payload : Bytes, p.type = .string ∨ p.type = .alias → ∃ str, payload = Payload.plain (Utf8.encode str) := by
    simp [htext]
  unfold writeText
  split
  · exact .throw _
  · split
    · exact (fieldInstr_writes (fun _ _ => rfl) (fun _ => rfl) (canonical_updateField ht hp (hplain _))).discard
    · split
      · exact .discard (fieldInstr_writes (fun _ _ => rfl) (fun _ => rfl) fun _ _ => trivial)
      · exact .pure _

/-- A value is written to a separate property. -/
theorem writeSeparate_writes (ht : schema.typeById? type = some t) (hp : p ∈ t.props) (create : Bool) (v : Value) :
    Writes schema (Placeholder.Marks c edgesOf t.props type node) type node (writeSeparate c edgesOf create p v) := by
  unfold writeSeparate
  split
  · split
    · exact .discard (fieldInstr_writes (fun _ _ => rfl) (fun _ => rfl) fun _ _ => trivial)
    · exact .pure _
  · rename_i htext
    split
    · exact .throw _
    · refine (fieldInstr_writes (fun _ _ => rfl) (fun _ => rfl) (canonical_updateField ht hp ?_)).discard
      simp [htext]
  · rename_i htext
    exact .forM fun entry _ => writeText_writes _ ht hp htext create _ entry
  · rename_i htype _
    refine Writes.lift fun item _ => Writes.lift fun entry hentry => ?_
    exact refInstr_writes false hp htype (.cons hentry .nil) (.inl ⟨rfl, _, rfl, rfl⟩)
  · rename_i htype
    refine Writes.lift fun items _ => ?_
    exact writeRefs_writes hp htype (fun _ => .inl rfl) items
  · rename_i replace add remove htype
    refine .bind ?_ fun _ => .bind ?_ fun _ => writeRemoved_writes _ _ _
    · cases replace with
      | none => exact .pure _
      | some items => exact writeRefs_writes hp htype (fun _ => .inl rfl) items
    · unfold writeAdded
      split
      · exact .pure _
      · exact writeRefs_writes hp htype (fun _ => .inr rfl) add
  · split
    · rename_i hpayload
      exact (fieldInstr_writes (fun _ _ => rfl) (fun _ => rfl)
        (canonical_updateField ht hp (plain_of_encodeSeparate hpayload))).discard
    · exact .throw _

/-- The fields of a new node are written. -/
theorem writeCreateWith_writes (ht : schema.typeById? type = some t) (hplaced : t.Placed) (hk : t.Packed)
    {fields : List (Field EdgeLayout)} (hfields : ∀ f ∈ fields, f.prop ∈ t.props ∧ f.prop.validateBuiltin f.value = .ok ()) :
    Writes schema (Placeholder.Marks c edgesOf t.props type node) type node (writeCreateWith c edgesOf t fields) := by
  unfold writeCreateWith
  have hseparate : Writes schema (Placeholder.Marks c edgesOf t.props type node) type node
      ((fields.filter fun f => !f.prop.isMain).forM fun f => writeSeparate c edgesOf true f.prop f.value) :=
    .forM fun f hf => writeSeparate_writes ht (hfields f (List.mem_of_mem_filter hf)).1 true f.value
  split
  · refine Writes.lift fun block hblock => ?_
    refine (nodeInstr_writes (fun _ _ => rfl) (fun _ => rfl) fun s hs => ?_).bind fun _ => hseparate
    exact ⟨t, Selection.layout?_of_type hs ht, mainBlock_canonical hplaced hk hfields hblock⟩
  · exact hseparate

/-- A changed field is written. -/
theorem writeChange_writes (ht : schema.typeById? type = some t) (hplaced : t.Placed) (hk : t.Packed) {f : Field EdgeLayout}
    (hf : f.prop ∈ t.props) (hvalid : f.prop.validateBuiltin f.value = .ok ()) :
    Writes schema (Placeholder.Marks c edgesOf t.props type node) type node (writeChange c edgesOf t f) := by
  unfold writeChange
  split
  · exact writeSeparate_writes ht hf false f.value
  · rename_i offset ha
    refine Writes.lift fun bytes hbytes => ?_
    refine nodeInstr_writes (fun _ _ => rfl) (fun _ => rfl) fun s hs => ?_
    exact ⟨t, f.prop, Selection.layout?_of_type hs ht, hf, ha, change_canonical hplaced hk hf ha hvalid hbytes⟩

theorem writeUpdateWith_writes (ht : schema.typeById? type = some t) (hplaced : t.Placed) (hk : t.Packed)
    {fields : List (Field EdgeLayout)} (hfields : ∀ f ∈ fields, f.prop ∈ t.props ∧ f.prop.validateBuiltin f.value = .ok ()) :
    Writes schema (Placeholder.Marks c edgesOf t.props type node) type node (writeUpdateWith c edgesOf t fields) :=
  .forM fun f hf => writeChange_writes ht hplaced hk (hfields f hf).1 (hfields f hf).2

/-- An amount is added to a number. -/
theorem writeCount_writes (P : Placeholder → Item → Prop) (ht : schema.typeById? type = some t) (hm : p.Measured)
    (hp : p ∈ t.props) (amount : Value) (decrement : Bool) : Writes schema P type node (writeCount p amount decrement) := by
  unfold writeCount
  split
  · rename_i offset ha
    split
    · exact .throw _
    · rename_i hnumeric
      refine Writes.lift fun bytes hbytes => ?_
      refine nodeInstr_writes (fun _ _ => rfl) (fun _ => rfl) fun s hs => ?_
      exact ⟨t, p, Selection.layout?_of_type hs ht, hp, ha, by simpa using hnumeric, rfl, length_of_amountBytes hm hbytes⟩
  · exact .throw _

/-- A deletion leaves the cursor nowhere. -/
theorem writeDelete_appends {P : Placeholder → Item → Prop} {d d' : Draft} {u : Unit}
    (h : writeDelete d = .ok u d') : Appends schema P d d' := by
  unfold writeDelete at h
  obtain ⟨u', d₁, hn, hmove⟩ := EStateM.bind_eq_ok.1 h
  obtain ⟨hroom, rfl⟩ := nodeInstr_spec hn
  cases moveTo_eq_ok.1 hmove
  exact .of_append hroom (fun _ _ => .idle _) (fun _ _ => rfl) fun _ _ => ⟨trivial, trivial⟩

end

end NodeStore.Write
