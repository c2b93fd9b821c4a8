import NodeStore.Proofs.Schema.Placement
import NodeStore.Proofs.Write.Drafts

/-!
# What calls ask for

A call asks for instructions one by one, each for a type, a node or a field, and the selectors that are missing go in
front of each. A call that fails halfway leaves the instructions that it had asked for before.

* `Request`, `Request.aimed`: one thing asked for, and the instructions for it, each with its `Aim`.
* `Encoder.Took`: the instructions of some requests were appended.
* `Asks`: all that an action asks for, whatever its outcome; `BufferCall.asks`: the calls.
* `Request.hits`: every instruction finds selected what it is aimed at.
-/

namespace NodeStore.Write

/-! ### Requests -/

/-- What the open buffer is asked to take. -/
inductive Request where
  | create (type : TypeId) (tmp : UInt32)
  | select (type : TypeId) (node : NodeTarget)
  /-- An instruction for the node that the cursor is on. -/
  | onNode (i : Instr)
  /-- An instruction for a field of the node that the cursor is on. -/
  | onField (p : PropDef EdgeLayout) (i : Instr)
  | delete

/-- What an instruction is for. -/
inductive Aim where
  | anything
  | type (type : TypeId)
  | node (type : TypeId) (node : NodeTarget)
  | field (type : TypeId) (node : NodeTarget) (p : PropDef EdgeLayout)

/-- An instruction and what it is for. -/
structure Aimed where
  instr : Instr
  aim : Aim

/-- Instructions that are for the same. -/
def aimedAt (aim : Aim) (is : List Instr) : List Aimed := is.map (⟨·, aim⟩)

@[simp] theorem instr_aimedAt (aim : Aim) (is : List Instr) : (aimedAt aim is).map (·.instr) = is := by
  rw [aimedAt, List.map_map]
  exact List.map_id is

/-- The field that an instruction for a property goes to, with the cursor on a node. -/
def Cursor.fieldOf? (c : Cursor) (p : PropDef EdgeLayout) : Option (TypeId × NodeTarget × UInt8) := do
  let (type, node) ← c.node?
  let slot ← p.slot?
  return (type, node, slot)

namespace Request

/-- The instructions for a request, with the cursor somewhere. -/
def aimed (c : Cursor) : Request → List Aimed
  | create type tmp => aimedAt .anything (c.selectType type) ++ aimedAt (.type type) [.createNode tmp]
  | select type node =>
    if c.node? = some (type, node) then []
    else aimedAt .anything (c.selectType type) ++ aimedAt (.type type) node.selector
  | onNode i =>
    match c.node? with
    | some (type, node) => aimedAt (.node type node) [i]
    | none => []
  | onField p i =>
    match c.fieldOf? p with
    | some (type, node, slot) => aimedAt (.node type node) (c.selectField slot p.type.tag) ++ aimedAt (.field type node p) [i]
    | none => []
  | delete =>
    match c.node? with
    | some (type, node) => aimedAt (.node type node) [.deleteNode]
    | none => []

/-- Where the cursor is behind a request. -/
def moves (c : Cursor) : Request → Cursor
  | create type tmp => .main type (.tmp tmp)
  | select type node => c.on type node
  | onNode _ => c
  | onField p _ =>
    match c.fieldOf? p with
    | some (type, node, slot) => .separate type node slot
    | none => c
  | delete => .idle

end Request

/-- Where the cursor is behind some requests. -/
def Cursor.after (c : Cursor) (rs : List Request) : Cursor := rs.foldl Request.moves c

/-- The instructions for some requests. -/
def aimedAll (c : Cursor) : List Request → List Aimed
  | [] => []
  | r :: rs => r.aimed c ++ aimedAll (r.moves c) rs

theorem aimedAll_append (c : Cursor) (rs rs' : List Request) :
    aimedAll c (rs ++ rs') = aimedAll c rs ++ aimedAll (c.after rs) rs' := by
  induction rs generalizing c with
  | nil => rfl
  | cons r rs ih => rw [List.cons_append, aimedAll, ih, aimedAll, List.append_assoc]; rfl

/-- The bytes of some requests. -/
def requestBytes (c : Cursor) (rs : List Request) : Bytes := encodeAll ((aimedAll c rs).map (·.instr))

theorem requestBytes_append (c : Cursor) (rs rs' : List Request) :
    requestBytes c (rs ++ rs') = requestBytes c rs ++ requestBytes (c.after rs) rs' := by
  rw [requestBytes, aimedAll_append, List.map_append, encodeAll_append]
  rfl

theorem requestBytes_singleton (c : Cursor) (r : Request) :
    requestBytes c [r] = encodeAll ((r.aimed c).map (·.instr)) := by
  rw [requestBytes, aimedAll, aimedAll, List.append_nil]

/-- The instructions of some requests were appended, as far as the buffer had room for them. -/
structure Encoder.Took (e e' : Encoder) (rs : List Request) : Prop where
  bytes : e'.buffer.bytes = e.buffer.bytes ++ requestBytes e.cursor rs
  cursor : e'.cursor = e.cursor.after rs
  max : e'.buffer.max = e.buffer.max
  room : ∀ max, e.buffer.max = some max → e.buffer.length ≤ max → e'.buffer.length ≤ max

theorem Encoder.Took.refl (e : Encoder) : e.Took e [] := ⟨(List.append_nil _).symm, rfl, rfl, fun _ _ h => h⟩

theorem Encoder.Took.trans {e e' e'' : Encoder} {rs rs' : List Request} (h : e.Took e' rs) (h' : e'.Took e'' rs') :
    e.Took e'' (rs ++ rs') where
  bytes := by rw [h'.bytes, h.bytes, h.cursor, requestBytes_append, List.append_assoc]
  cursor := by rw [h'.cursor, h.cursor, Cursor.after, Cursor.after, Cursor.after, List.foldl_append]
  max := h'.max.trans h.max
  room max hmax hle := h'.room max (h.max.trans hmax) (h.room max hmax hle)

/-- The return to a checkpoint undoes all that was appended since. -/
theorem Encoder.Took.rollback {e e' : Encoder} {rs : List Request} (h : e.Took e' rs) :
    e'.rollback e.checkpoint = e := by
  have htake : e'.buffer.bytes.take e.buffer.bytes.length = e.buffer.bytes := by rw [h.bytes, List.take_left]
  change (⟨⟨e'.buffer.bytes.take e.buffer.bytes.length, e'.buffer.max⟩, e.cursor⟩ : Encoder) = e
  rw [htake, h.max]

/-! ### Actions -/

section

variable {α β : Type} {A : Request → Prop} {d : Draft}

/-- The draft that an action leaves, whether it succeeds or not. -/
def leaves (x : EncodeM α) (d : Draft) : Draft :=
  match x d with
  | .ok _ d' => d'
  | .error _ d' => d'

theorem leaves_of_ok {x : EncodeM α} {a : α} {d' : Draft} (h : x d = .ok a d') : leaves x d = d' := by rw [leaves, h]

theorem leaves_of_error {x : EncodeM α} {e : Error} {d' : Draft} (h : x d = .error e d') : leaves x d = d' := by
  rw [leaves, h]

/-- Whatever its outcome, the action has appended the instructions of such requests. -/
def Asks (A : Request → Prop) (x : EncodeM α) : Prop :=
  ∀ d : Draft, ∃ rs, (∀ r ∈ rs, A r) ∧ d.encoder.Took (leaves x d).encoder rs

namespace Asks

theorem of_unchanged {x : EncodeM α} (h : ∀ d, (leaves x d).encoder = d.encoder) : Asks A x := fun d =>
  ⟨[], by simp, by rw [h]; exact .refl _⟩

theorem pure (a : α) : Asks A (Pure.pure a) := of_unchanged fun _ => rfl

theorem throw (e : Error) : Asks A (throw e : EncodeM α) := of_unchanged fun _ => rfl

theorem note (hs : List Placeholder) : Asks A (note hs) := of_unchanged fun _ => rfl

theorem bind {x : EncodeM α} {f : α → EncodeM β} (hx : Asks A x) (hf : ∀ a, Asks A (f a)) : Asks A (x >>= f) := by
  intro d
  obtain ⟨rs, hrs, ht⟩ := hx d
  cases h : x d with
  | error e d' =>
    rw [leaves_of_error h] at ht
    exact ⟨rs, hrs, by rwa [leaves_of_error (EStateM.bind_of_error h)]⟩
  | ok a d' =>
    rw [leaves_of_ok h] at ht
    obtain ⟨rs', hrs', ht'⟩ := hf a d'
    refine ⟨rs ++ rs', fun r hr => (List.mem_append.1 hr).elim (hrs r) (hrs' r), ?_⟩
    have hleaves : leaves (x >>= f) d = leaves (f a) d' := by rw [leaves, leaves, EStateM.bind_of_ok h]
    rw [hleaves]
    exact ht.trans ht'

theorem mono {B : Request → Prop} {x : EncodeM α} (hx : Asks A x) (hAB : ∀ r, A r → B r) : Asks B x := fun d => by
  obtain ⟨rs, hrs, ht⟩ := hx d
  exact ⟨rs, fun r hr => hAB r (hrs r hr), ht⟩

/-- What comes without the buffer is put to use. -/
theorem lift {x : Except Error α} {f : α → EncodeM β} (hf : ∀ a, x = .ok a → Asks A (f a)) :
    Asks A ((liftM x : EncodeM α) >>= f) := by
  cases x with
  | error e => exact of_unchanged fun _ => rfl
  | ok a => exact hf a rfl

theorem discard {x : EncodeM α} (hx : Asks A x) : Asks A (x >>= fun _ => Pure.pure PUnit.unit) := hx.bind fun _ => pure _

theorem forM {xs : List α} {f : α → EncodeM PUnit} (hf : ∀ x ∈ xs, Asks A (f x)) : Asks A (xs.forM f) := by
  induction xs with
  | nil => exact pure _
  | cons x xs ih =>
    change Asks A (f x >>= fun _ => xs.forM f)
    exact (hf x List.mem_cons_self).bind fun _ => ih fun y hy => hf y (List.mem_cons_of_mem _ hy)

end Asks

/-- The action is one request: it succeeds as a whole, or it leaves the draft as it was. -/
def Does (r : Request) (x : EncodeM α) : Prop := ∀ d : Draft, (∃ e, x d = .error e d) ∨
  ∃ a is, (r.aimed d.encoder.cursor).map (·.instr) = is ∧ d.encoder.buffer.Room (encodeAll is).length ∧
    x d = .ok a ((d.append is).at (r.moves d.encoder.cursor))

theorem Does.took {x : EncodeM α} {r : Request} (h : Does r x) {a : α} {d d' : Draft} (hok : x d = .ok a d') :
    d.encoder.Took d'.encoder [r] := by
  rcases h d with ⟨e, he⟩ | ⟨a', is, rfl, hroom, ha⟩
  · rw [he] at hok
    cases hok
  · rw [ha] at hok
    cases hok
    refine ⟨by rw [requestBytes_singleton]; rfl, rfl, rfl, fun max hmax hle => ?_⟩
    have hfits := hroom max hmax
    simp only [Draft.at, Draft.append, Buffer.length, List.length_append] at hle hfits ⊢
    omega

theorem Does.asks {x : EncodeM α} {r : Request} (h : Does r x) (hr : A r) : Asks A x := by
  intro d
  cases hx : x d with
  | error e d' =>
    have hd : d' = d := by
      rcases h d with ⟨e', he⟩ | ⟨a, is, -, -, ha⟩
      · rw [he] at hx
        cases hx
        rfl
      · rw [ha] at hx
        cases hx
    exact ⟨[], by simp, by rw [leaves_of_error hx, hd]; exact .refl _⟩
  | ok a d' => exact ⟨[r], fun r' hr' => List.mem_singleton.1 hr' ▸ hr, by rw [leaves_of_ok hx]; exact h.took hx⟩

theorem emit_cases (is : List Instr) (d : Draft) : (∃ e, emit is d = .error (.bufferFull e) d) ∨
    d.encoder.buffer.Room (encodeAll is).length ∧ emit is d = .ok d.length (d.append is) := by
  by_cases h : d.encoder.buffer.Room (encodeAll is).length
  · exact .inr ⟨h, emit_of_room h⟩
  · exact .inl (emit_of_full h)

theorem activeNode_of_none (h : d.encoder.cursor.node? = none) : activeNode d = .error .noActiveNode d := by
  unfold activeNode
  rw [EStateM.bind_of_ok (cursor_eq_ok.2 ⟨rfl, rfl⟩), h]
  rfl

theorem createNode_does (type : TypeId) (tmp : UInt32) : Does (.create type tmp) (createNode type tmp) := by
  intro d
  unfold createNode
  rw [EStateM.bind_of_ok (cursor_eq_ok.2 ⟨rfl, rfl⟩)]
  rcases emit_cases (d.encoder.cursor.selectType type ++ [.createNode tmp]) d with ⟨e, he⟩ | ⟨hroom, he⟩
  · exact .inl ⟨_, EStateM.bind_of_error he⟩
  · refine .inr ⟨(), _, ?_, hroom, (EStateM.bind_of_ok he).trans (moveTo_eq_ok.2 rfl)⟩
    simp [Request.aimed]

theorem selectNode_does (type : TypeId) {node : NodeTarget} (hnode : node ≠ .link) :
    Does (.select type node) (selectNode type node) := by
  intro d
  rw [selectNode_eq hnode]
  rcases emit_cases (d.encoder.cursor.selectNode type node) d with ⟨e, he⟩ | ⟨hroom, he⟩
  · exact .inl ⟨_, EStateM.bind_of_error he⟩
  · refine .inr ⟨(), _, ?_, hroom, (EStateM.bind_of_ok he).trans (moveTo_eq_ok.2 rfl)⟩
    simp only [Request.aimed, Cursor.selectNode]
    split <;> simp

theorem selectNode_asks {type : TypeId} {node : NodeTarget} (hr : node ≠ .link → A (.select type node)) :
    Asks A (selectNode type node) := by
  by_cases hnode : node = .link
  · -- There is no selector for the node of a link.
    subst hnode
    refine .of_unchanged fun d => ?_
    unfold leaves selectNode
    rw [EStateM.bind_of_ok (cursor_eq_ok.2 ⟨rfl, rfl⟩)]
    split <;> rename_i heq <;> split at heq <;> cases heq <;> rfl
  · exact (selectNode_does type hnode).asks (hr hnode)

theorem nodeInstr_cases (i : Instr) (d : Draft) : (∃ e, nodeInstr i d = .error e d) ∨
    ∃ n, d.encoder.cursor.node? = some n ∧ d.encoder.buffer.Room (encodeAll [i]).length ∧
      nodeInstr i d = .ok () (d.append [i]) := by
  unfold nodeInstr
  cases hn : d.encoder.cursor.node? with
  | none => exact .inl ⟨_, EStateM.bind_of_error (activeNode_of_none hn)⟩
  | some n =>
    rw [EStateM.bind_of_ok (activeNode_eq_ok.2 ⟨hn, rfl⟩)]
    rcases emit_cases [i] d with ⟨e, he⟩ | ⟨hroom, he⟩
    · exact .inl ⟨_, EStateM.bind_of_error he⟩
    · exact .inr ⟨n, rfl, hroom, EStateM.bind_of_ok he⟩

theorem nodeInstr_asks {i : Instr} (hr : A (.onNode i)) : Asks A (nodeInstr i) := by
  refine Does.asks (r := .onNode i) (fun d => ?_) hr
  refine (nodeInstr_cases i d).imp id fun ⟨n, hn, hroom, h⟩ => ⟨(), _, ?_, hroom, h⟩
  simp [Request.aimed, hn]

theorem writeDelete_asks (hr : A .delete) : Asks A writeDelete := by
  refine Does.asks (r := .delete) (fun d => ?_) hr
  unfold writeDelete
  rcases nodeInstr_cases .deleteNode d with ⟨e, he⟩ | ⟨n, hn, hroom, h⟩
  · exact .inl ⟨_, EStateM.bind_of_error he⟩
  · refine .inr ⟨(), _, ?_, hroom, (EStateM.bind_of_ok h).trans (moveTo_eq_ok.2 rfl)⟩
    simp [Request.aimed, hn]

theorem fieldInstr_asks {p : PropDef EdgeLayout} {i : Instr} (hr : A (.onField p i)) : Asks A (fieldInstr p i) := by
  refine Does.asks (r := .onField p i) (fun d => ?_) hr
  cases hn : d.encoder.cursor.node? with
  | none => exact .inl ⟨_, EStateM.bind_of_error (activeNode_of_none hn)⟩
  | some n =>
    obtain ⟨type, node⟩ := n
    cases hslot : p.slot? with
    | none =>
      refine .inl ⟨.noActiveNode, ?_⟩
      unfold fieldInstr
      rw [EStateM.bind_of_ok (activeNode_eq_ok.2 ⟨hn, rfl⟩)]
      simp only [hslot]
      rfl
    | some slot =>
      have hfield : d.encoder.cursor.fieldOf? p = some (type, node, slot) := by simp [Cursor.fieldOf?, hn, hslot]
      by_cases hroom : d.encoder.buffer.Room (encodeAll (d.encoder.cursor.selectField slot p.type.tag ++ [i])).length
      · refine .inr ⟨_, _, ?_, hroom, (fieldInstr_eq_ok hn).2 ⟨slot, hslot, hroom, rfl, ?_⟩⟩
        · simp [Request.aimed, hfield]
        · simp [Request.moves, hfield]
      · obtain ⟨e, he⟩ := fieldInstr_of_full hn hslot hroom
        exact .inl ⟨_, he⟩

end

/-! ### Fields -/

/-- An instruction that changes the main block of a node; its numbers fit into the bytes for them. -/
inductive Instr.ForNode : Instr → Prop where
  | mainBlock (block : Bytes) : ForNode (.mainBlock block)
  | mainField {offset : Nat} {bytes : Bytes} : offset < 2 ^ 32 → bytes.length < 2 ^ 16 → ForNode (.mainField offset bytes)
  | count {type : PropType} (decrement : Bool) {offset : Nat} {amount : Bytes} : offset < 2 ^ 32 →
    amount.length = type.fixedWidth.getD 0 → ForNode (.count decrement type.tag offset amount)

/-- An instruction that changes a separate field. -/
inductive Instr.ForField : Instr → Prop where
  | updateField (payload : Bytes) : ForField (.updateField payload)
  | deleteField : ForField .deleteField
  | deleteText (locale : UInt8) : ForField (.deleteText locale)
  | setRef (e : RefEntry) : ForField (.setRef e)
  | setRefs (es : List RefEntry) : ForField (.setRefs es)
  | addRefs (es : List RefEntry) : ForField (.addRefs es)
  | removeRefs {es : List RefEntry} : (∀ e ∈ es, e.edges = none) → ForField (.removeRefs es)

/-- The references that an instruction sets. -/
def Instr.refs : Instr → List RefEntry
  | .setRef e => [e]
  | .setRefs es | .addRefs es => es
  | _ => []

/-- A value of a property names a reference to be set. -/
inductive Names (p : PropDef EdgeLayout) : Value → RefItem → Prop
  | one {v : Value} {item : RefItem} (h : asRefItem p v = .ok item) : Names p v item
  | listed {vs : List Value} {v : Value} {item : RefItem} (hv : v ∈ vs) (h : asRefItem p v = .ok item) :
      Names p (.list vs) item
  | replaced {items add : List RefItem} {remove : List NodeRef} {item : RefItem} (h : item ∈ items) :
      Names p (.refs (some items) add remove) item
  | added {replace : Option (List RefItem)} {add : List RefItem} {remove : List NodeRef} {item : RefItem} (h : item ∈ add) :
      Names p (.refs replace add remove) item

/-- The references that an instruction sets are those that a value of a reference property names. -/
def Instr.Sets (c : Context) (edgesOf : EdgeEncoder EdgeLayout) (p : PropDef EdgeLayout) (v : Value) (i : Instr) : Prop :=
  ∀ e ∈ i.refs, p.type.isReference = true ∧ ∃ item w, Names p v item ∧ refEntry c edgesOf p item = .ok (e, w)

section

variable {A : Request → Prop} {c : Context} {edgesOf : EdgeEncoder EdgeLayout} {p : PropDef EdgeLayout} {v : Value}
  (hp : ∀ i : Instr, i.ForField → i.Sets c edgesOf p v → A (.onField p i))

include hp

theorem refInstr_asks {many : Bool} {items : List RefItem} {entries : List (RefEntry × Option PendingId)} {i : Instr}
    (hi : i.ForField) (hsets : i.Sets c edgesOf p v) : Asks A (refInstr p many items entries i) :=
  (fieldInstr_asks (hp i hi hsets)).bind fun _ => .note _

theorem writeRefs_asks (href : p.type.isReference = true) {make : List RefEntry → Instr}
    (hmake : ∀ es, (make es).ForField ∧ (make es).refs = es) {items : List RefItem} (hnames : ∀ item ∈ items, Names p v item) : Asks A (writeRefs c edgesOf p make items) := by
  refine .lift fun entries hentries => refInstr_asks hp (hmake _).1 fun e he => ?_
  rw [(hmake _).2] at he
  obtain ⟨⟨_, w⟩, hentry, rfl⟩ := List.mem_map.1 he
  obtain ⟨item, hitem, hok⟩ := (mapM_eq_ok hentries).2.1 _ hentry
  exact ⟨href, item, w, hnames item hitem, hok⟩

theorem writeRemoved_asks (targets : List NodeRef) : Asks A (writeRemoved c p v targets) := by
  unfold writeRemoved
  split
  · refine .lift fun entries hentries => ?_
    have hedges : ∀ e ∈ entries, e.edges = none := fun e he => by
      obtain ⟨target, -, ht⟩ := (mapM_eq_ok hentries).2.1 e he
      unfold removedRef at ht
      obtain ⟨wire, -, ht⟩ := Except.bind_eq_ok.1 ht
      cases wire <;> cases ht <;> rfl
    exact (fieldInstr_asks (hp _ (.removeRefs hedges) nofun)).discard
  · exact .pure _

theorem writeText_asks (create : Bool) (entry : String × String) : Asks A (writeText create p v entry) := by
  unfold writeText
  split
  · exact .throw _
  · split
    · exact (fieldInstr_asks (hp _ (.updateField _) nofun)).discard
    · split
      · exact (fieldInstr_asks (hp _ (.deleteText _) nofun)).discard
      · exact .pure _

/-- A separate property is written by instructions for its field. -/
theorem writeSeparate_asks (create : Bool) : Asks A (writeSeparate c edgesOf create p v) := by
  unfold writeSeparate
  split
  · split
    · exact (fieldInstr_asks (hp _ .deleteField nofun)).discard
    · exact .pure _
  · split
    · exact .throw _
    · exact (fieldInstr_asks (hp _ (.updateField _) nofun)).discard
  · exact .forM fun entry _ => writeText_asks hp create entry
  · rename_i htype _
    refine .lift fun item hitem => .lift fun entry hentry => refInstr_asks hp (.setRef _) fun e he => ?_
    rw [List.mem_singleton.1 he]
    exact ⟨by rw [htype]; rfl, item, entry.2, .one hitem, hentry⟩
  · rename_i htype
    refine .lift fun items hitems => writeRefs_asks hp (by rw [htype]; rfl) (fun es => ⟨.setRefs es, rfl⟩) fun item hitem => ?_
    obtain ⟨v', hv', hok⟩ := (mapM_eq_ok hitems).2.1 item hitem
    exact .listed hv' hok
  · rename_i htype
    have href : p.type.isReference = true := by rw [htype]; rfl
    refine .bind ?_ fun _ => .bind ?_ fun _ => writeRemoved_asks hp _
    · unfold writeReplaced
      split
      · exact writeRefs_asks hp href (fun es => ⟨.setRefs es, rfl⟩) fun _ => .replaced
      · exact .pure _
    · unfold writeAdded
      split
      · exact .pure _
      · exact writeRefs_asks hp href (fun es => ⟨.addRefs es, rfl⟩) fun _ => .added
  · split
    · exact (fieldInstr_asks (hp _ (.updateField _) nofun)).discard
    · exact .throw _

end

theorem length_placeField {f : Field EdgeLayout} (hm : f.prop.Measured) {block bytes : Bytes}
    (h : placeField block f = .ok bytes) : bytes.length = block.length := by
  unfold placeField at h
  split at h
  · cases h
    rfl
  · split at h
    · cases h
    · split at h
      · rename_i encoded hencoded
        cases h
        have := Schema.length_encodeFixed hm hencoded
        exact Bytes.length_overwrite (by omega)
      · cases h

section

variable {A : Request → Prop} {c : Context} {edgesOf : EdgeEncoder EdgeLayout} {t : TypeLayout}
  {fields : List (Field EdgeLayout)} (hnode : ∀ i : Instr, i.ForNode → A (.onNode i))
  (hfield : ∀ f ∈ fields, ∀ i : Instr, i.ForField → i.Sets c edgesOf f.prop f.value → A (.onField f.prop i))

include hnode hfield

theorem writeCreateWith_asks : Asks A (writeCreateWith c edgesOf t fields) := by
  unfold writeCreateWith
  have hseparate : Asks A ((fields.filter fun f => !f.prop.isMain).forM fun f => writeSeparate c edgesOf true f.prop f.value) :=
    .forM fun f hf => writeSeparate_asks (hfield f (List.mem_of_mem_filter hf)) true
  split
  · exact .lift fun block _ => (nodeInstr_asks (hnode _ (.mainBlock block))).bind fun _ => hseparate
  · exact hseparate

theorem writeUpdateWith_asks (ht : t.Placed) (hmem : ∀ f ∈ fields, f.prop ∈ t.props) :
    Asks A (writeUpdateWith c edgesOf t fields) := by
  refine .forM fun f hf => ?_
  unfold writeChange
  split
  · exact writeSeparate_asks (hfield f hf) false
  · rename_i offset hoffset
    refine .lift fun bytes hbytes => nodeInstr_asks (hnode _ ?_)
    have hin := ht.inside _ (hmem f hf) offset hoffset
    have hroom := ht.room
    have hmax : Limits.maxMainLength = 65535 := rfl
    have hle : ((t.mainDefaults.drop offset).take f.prop.len).length ≤ f.prop.len := List.length_take_le ..
    have hlen : bytes.length ≤ f.prop.len := by
      split at hbytes
      · cases hbytes
        exact hle
      · rwa [length_placeField (ht.measured _ (hmem f hf)) hbytes]
    exact .mainField (by omega) (by omega)

end

/-- A counter changes by an amount of its own width. -/
theorem writeCount_asks {A : Request → Prop} {p : PropDef EdgeLayout} (hnode : ∀ i : Instr, i.ForNode → A (.onNode i))
    {t : TypeLayout} (ht : t.Placed) (hp : p ∈ t.props) (amount : Value) (decrement : Bool) :
    Asks A (writeCount p amount decrement) := by
  unfold writeCount
  split
  · rename_i offset hoffset
    split
    · exact .throw _
    · rename_i hnumeric
      refine .lift fun bytes hbytes => nodeInstr_asks (hnode _ (.count decrement ?_ ?_))
      · have hin := ht.inside p hp offset hoffset
        have hroom := ht.room
        have hmax : Limits.maxMainLength = 65535 := rfl
        omega
      · have hfixed := (ht.measured p hp).fixed
        unfold amountBytes at hbytes
        split at hbytes
        · rename_i htype
          rw [htype]
          split at hbytes
          · cases hbytes
            exact Binary64.length_toBytes _
          · cases hbytes
        · split at hbytes
          · cases hbytes
            rw [length_intBytes]
            cases hw : p.type.fixedWidth with
            | some w => exact (hfixed w hw).2
            | none => cases htype : p.type <;> simp_all [PropType.fixedWidth, PropType.isNumeric, PropType.isInteger]
          · cases hbytes
  · exact .throw _

/-- What a write of some fields asks for once its node is selected. -/
inductive Request.Fills (c : Context) (fields : List (Field EdgeLayout)) : Request → Prop
  | node {i : Instr} (hi : i.ForNode) : Fills c fields (.onNode i)
  | field {f : Field EdgeLayout} {i : Instr} (hf : f ∈ fields) (hi : i.ForField)
      (hsets : i.Sets c (encodeEdges c) f.prop f.value) : Fills c fields (.onField f.prop i)
  | delete : Fills c fields .delete

/-! ### Calls -/

/-- A call on the open buffer. -/
inductive BufferCall where
  | createNode (type : TypeId) (tmp : UInt32)
  | selectNode (type : TypeId) (node : NodeTarget)
  | writeCreate (c : Context) (t : TypeLayout) (fields : List (Field EdgeLayout))
  | writeUpdate (c : Context) (t : TypeLayout) (fields : List (Field EdgeLayout))
  | writeCount (p : PropDef EdgeLayout) (amount : Value) (decrement : Bool)
  | writeDelete

namespace BufferCall

def act : BufferCall → EncodeM Unit
  | createNode type tmp => Write.createNode type tmp
  | selectNode type node => Write.selectNode type node
  | writeCreate c t fields => Write.writeCreate c t fields
  | writeUpdate c t fields => Write.writeUpdate c t fields
  | writeCount p amount decrement => Write.writeCount p amount decrement
  | writeDelete => Write.writeDelete

/-- The encoder after a call, which may have failed. -/
def run (call : BufferCall) (e : Encoder) : Encoder := (leaves call.act ⟨e, []⟩).encoder

/-- The layouts and properties of a call are those of a schema. -/
def Fits (schema : SchemaLayout) : BufferCall → Prop
  | writeCreate _ t fields | writeUpdate _ t fields => t ∈ schema.types ∧ ∀ f ∈ fields, f.prop ∈ t.props
  | writeCount p _ _ => ∃ t ∈ schema.types, p ∈ t.props
  | _ => True

/-- What a call may ask for. -/
def MayAsk : BufferCall → Request → Prop
  | createNode type tmp, r => r = .create type tmp
  | selectNode type node, r => node ≠ .link ∧ r = .select type node
  | writeCreate _ _ fields, r | writeUpdate _ _ fields, r =>
    (∃ i : Instr, i.ForNode ∧ r = .onNode i) ∨ ∃ f ∈ fields, ∃ i : Instr, i.ForField ∧ r = .onField f.prop i
  | writeCount _ _ _, r => ∃ i : Instr, i.ForNode ∧ r = .onNode i
  | writeDelete, r => r = .delete

/-- Whether it succeeds or not, a call appends the instructions for some of what it may ask for. -/
theorem asks {schema : SchemaLayout} (hs : schema.Placed) {call : BufferCall} (h : call.Fits schema) :
    Asks call.MayAsk call.act := by
  cases call with
  | createNode type tmp => exact (createNode_does type tmp).asks rfl
  | selectNode type node => exact selectNode_asks fun hnode => ⟨hnode, rfl⟩
  | writeCreate c t fields =>
    exact writeCreateWith_asks (fun i hi => .inl ⟨i, hi, rfl⟩) fun f hf i hi _ => .inr ⟨f, hf, i, hi, rfl⟩
  | writeUpdate c t fields =>
    exact writeUpdateWith_asks (fun i hi => .inl ⟨i, hi, rfl⟩) (fun f hf i hi _ => .inr ⟨f, hf, i, hi, rfl⟩)
      (hs.types t h.1) h.2
  | writeCount p amount decrement =>
    obtain ⟨t, ht, hp⟩ := h
    exact writeCount_asks (fun i hi => ⟨i, hi, rfl⟩) (hs.types t ht) hp amount decrement
  | writeDelete => exact writeDelete_asks rfl

end BufferCall

/-! ### What is selected -/

/-- An instruction is for what is selected. -/
def Aim.Within (s : Selection) : Aim → Prop
  | anything => True
  | type t => s.type = some t
  | node t n => s.type = some t ∧ s.node = some n
  | field t n p => ∃ slot, p.slot? = some slot ∧ s = .field t n slot

/-- Every instruction is for what is selected when its turn comes. -/
def Hit (s : Selection) : List Aimed → Prop
  | [] => True
  | a :: as => a.aim.Within s ∧ Hit (s.step a.instr) as

theorem Hit.append {s : Selection} {as bs : List Aimed} (h : Hit s as) (h' : Hit (s.after (as.map (·.instr))) bs) :
    Hit s (as ++ bs) := by
  induction as generalizing s with
  | nil => exact h'
  | cons a as ih => exact ⟨h.1, ih h.2 h'⟩

theorem Hit.within {s : Selection} {front back : List Aimed} {a : Aimed} (h : Hit s (front ++ a :: back)) :
    a.aim.Within (s.after (front.map (·.instr))) := by
  induction front generalizing s with
  | nil => exact h.1
  | cons b front ih => exact ih h.2

theorem Hit.anything (s : Selection) (is : List Instr) : Hit s (aimedAt .anything is) := by
  induction is generalizing s with
  | nil => trivial
  | cons i is ih => exact ⟨trivial, ih _⟩

theorem Hit.single {s : Selection} {aim : Aim} {i : Instr} (h : aim.Within s) : Hit s (aimedAt aim [i]) := ⟨h, trivial⟩

/-- No instruction of a request changes what is selected, apart from selectors; and no selector leads to a link. -/
def Request.Proper : Request → Prop
  | select _ node => node ≠ .link
  | onNode i => i.ForNode
  | onField _ i => i.ForField
  | _ => True

theorem Instr.ForNode.step {i : Instr} (h : i.ForNode) (s : Selection) : s.step i = s := by cases h <;> rfl

theorem Instr.ForField.step {i : Instr} (h : i.ForField) (s : Selection) : s.step i = s := by cases h <;> rfl

theorem Cursor.fieldOf?_eq_some {c : Cursor} {p : PropDef EdgeLayout} {type : TypeId} {node : NodeTarget} {slot : UInt8}
    (h : c.fieldOf? p = some (type, node, slot)) : c.node? = some (type, node) ∧ p.slot? = some slot := by
  unfold Cursor.fieldOf? at h
  obtain ⟨⟨t, n⟩, hn, h⟩ := Option.bind_eq_some_iff.1 h
  obtain ⟨s, hs, h⟩ := Option.bind_eq_some_iff.1 h
  cases h
  exact ⟨hn, hs⟩

/-- The instructions of a request are for what is selected, if the cursor is where it should be; and the cursor moves along. -/
theorem Request.hits {r : Request} (hr : r.Proper) {c : Cursor} {s : Selection} (hc : c.Within s) :
    Hit s (r.aimed c) ∧ (r.moves c).Within (s.after ((r.aimed c).map (·.instr))) := by
  cases r with
  | create type tmp =>
    have ht := hc.selectType type
    simp only [aimed, moves, List.map_append, instr_aimedAt, Selection.after_append]
    refine ⟨(Hit.anything s _).append (.single ?_), .main ht rfl⟩
    rwa [instr_aimedAt]
  | select type node =>
    have hwithin := hc.selectNode type hr
    rw [Cursor.selectNode] at hwithin
    simp only [aimed, moves]
    split at hwithin
    · rename_i hn
      rw [if_pos hn]
      exact ⟨trivial, hwithin⟩
    · rename_i hn
      rw [if_neg hn]
      simp only [List.map_append, instr_aimedAt]
      refine ⟨(Hit.anything s _).append ?_, hwithin⟩
      rw [instr_aimedAt]
      cases node with
      | link => trivial
      | id n => exact .single (hc.selectType type)
      | tmp n => exact .single (hc.selectType type)
  | onNode i =>
    simp only [aimed, moves]
    split
    · rename_i type node hn
      refine ⟨.single (hc.node type node hn), ?_⟩
      rw [instr_aimedAt, Selection.after_cons, Instr.ForNode.step hr]
      exact hc
    · exact ⟨trivial, hc⟩
  | onField p i =>
    simp only [aimed, moves]
    cases hfield : c.fieldOf? p with
    | none => exact ⟨trivial, hc⟩
    | some place =>
      obtain ⟨type, node, slot⟩ := place
      obtain ⟨hn, hslot⟩ := Cursor.fieldOf?_eq_some hfield
      have hselect := hc.selectField hn slot p.type.tag
      simp only [List.map_append, instr_aimedAt, Selection.after_append, hselect]
      refine ⟨.append ?_ (.single ⟨slot, hslot, ?_⟩), ?_⟩
      · unfold Cursor.selectField
        split
        · trivial
        · exact .single (hc.node type node hn)
      · rw [instr_aimedAt, hselect]
      · rw [Selection.after_cons, Instr.ForField.step hr]
        exact .separate type node slot
  | delete =>
    simp only [aimed, moves]
    split
    · rename_i type node hn
      exact ⟨.single (hc.node type node hn), .idle _⟩
    · exact ⟨trivial, .idle _⟩

/-- The instructions of some requests are for what is selected. -/
theorem aimedAll_hit {rs : List Request} (hrs : ∀ r ∈ rs, r.Proper) {c : Cursor} {s : Selection} (hc : c.Within s) :
    Hit s (aimedAll c rs) ∧ (c.after rs).Within (s.after ((aimedAll c rs).map (·.instr))) := by
  induction rs generalizing c s with
  | nil => exact ⟨trivial, hc⟩
  | cons r rs ih =>
    obtain ⟨hfirst, hmoved⟩ := Request.hits (hrs r List.mem_cons_self) hc
    obtain ⟨hrest, hend⟩ := ih (fun r' hr' => hrs r' (List.mem_cons_of_mem _ hr')) hmoved
    rw [aimedAll, List.map_append, Selection.after_append]
    exact ⟨hfirst.append hrest, hend⟩

theorem BufferCall.proper_of_mayAsk {call : BufferCall} {r : Request} (h : call.MayAsk r) : r.Proper := by
  cases call with
  | createNode | writeDelete => cases h; trivial
  | selectNode type node => obtain ⟨hnode, rfl⟩ := h; exact hnode
  | writeCreate | writeUpdate =>
    obtain ⟨i, hi, rfl⟩ | ⟨f, -, i, hi, rfl⟩ := h
    · exact hi
    · exact hi
  | writeCount => obtain ⟨i, hi, rfl⟩ := h; exact hi

end NodeStore.Write
