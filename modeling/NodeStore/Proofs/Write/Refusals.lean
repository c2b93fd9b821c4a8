import NodeStore.Proofs.Codec.MainBlock
import NodeStore.Proofs.Codec.RoundTrip
import NodeStore.Proofs.Write.Addressing
import NodeStore.Proofs.Write.Registries
import NodeStore.Proofs.Write.Requests

/-!
# What the encoder refuses

A value that passed its tests can still be refused when it is written: the tests know neither the locale of the session,
nor the nodes that are referred to, nor what the links to them store. What they leave out is named here, and nothing else
is refused.

* `Error.IsRefusal`: a value or a name is refused; `Clears`, `Admits`: this does not happen.
* `InOrder`, `EdgesInOrder`, `UpdateInOrder`: what the tests leave out.
* `writeSeparate_admits`, `writeCreateWith_admits`, `encodeEdges_clears`, `writeUpdate_admits`: valid values of which this is
  in order are not refused.
* `UpdateInOrder.later`: what is in order stays so.
-/

namespace NodeStore

/-- The references that a value sets, but for plain numbers. -/
def Value.refItems : Value → List RefItem
  | .ref target edges => [(target, edges)]
  | .refs replace add _ => replace.getD [] ++ add
  | .list vs => vs.filterMap fun
    | .ref target edges => some (target, edges)
    | _ => none
  | _ => []

/-- The references that a value takes away. -/
def Value.removed : Value → List NodeRef
  | .refs _ _ remove => remove
  | _ => []

namespace Write

/-- Is a value or a name refused? -/
def Error.IsRefusal : Error → Prop
  | .invalid .. | .unknownProperty .. => True
  | _ => False

variable {E α β : Type}

/-- Nothing is refused; it may fail for another reason. -/
def Clears (x : Except Error α) : Prop := ∀ e, x = .error e → ¬e.IsRefusal

/-- Nothing is refused, whatever the buffer holds; it may fail for another reason. -/
def Admits (x : EncodeM α) : Prop := ∀ d e d', x d = .error e d' → ¬e.IsRefusal

namespace Clears

theorem ok (a : α) : Clears (.ok a) := nofun

theorem error {e : Error} (h : ¬e.IsRefusal) : Clears (.error e : Except Error α) := fun _ he => Except.error.inj he ▸ h

theorem bind {x : Except Error α} {f : α → Except Error β} (hx : Clears x) (hf : ∀ a, x = .ok a → Clears (f a)) :
    Clears (x >>= f) := by
  cases x with
  | error e => exact .error (hx e rfl)
  | ok a => exact hf a rfl

theorem map {x : Except Error α} (hx : Clears x) (f : α → β) : Clears (f <$> x) := by
  cases x with
  | error e => exact .error (hx e rfl)
  | ok a => exact .ok _

theorem mapM {xs : List α} {f : α → Except Error β} (h : ∀ x ∈ xs, Clears (f x)) : Clears (xs.mapM f) := by
  induction xs with
  | nil => exact .ok _
  | cons x xs ih =>
    rw [List.mapM_cons]
    refine (h x List.mem_cons_self).bind fun _ _ => ?_
    exact (ih fun y hy => h y (List.mem_cons_of_mem _ hy)).bind fun _ _ => .ok _

end Clears

namespace Admits

theorem pure (a : α) : Admits (Pure.pure a) := fun _ _ _ h => nomatch h

theorem throw {e : Error} (h : ¬e.IsRefusal) : Admits (throw e : EncodeM α) := fun _ _ _ he => by
  cases he
  exact h

theorem bind {x : EncodeM α} {f : α → EncodeM β} (hx : Admits x) (hf : ∀ a, Admits (f a)) : Admits (x >>= f) := by
  intro d e d' h
  cases hd : x d with
  | error e₁ d₁ =>
    rw [EStateM.bind_of_error hd] at h
    cases h
    exact hx d _ _ hd
  | ok a d₁ =>
    rw [EStateM.bind_of_ok hd] at h
    exact hf a d₁ e d' h

/-- What comes without the buffer is put to use. -/
theorem lift {x : Except Error α} {f : α → EncodeM β} (hx : Clears x) (hf : ∀ a, x = .ok a → Admits (f a)) :
    Admits ((liftM x : EncodeM α) >>= f) := by
  cases x with
  | error e => exact fun d e' d' h => by cases h; exact hx e rfl
  | ok a => exact hf a rfl

theorem discard {x : EncodeM α} (hx : Admits x) : Admits (x >>= fun _ => Pure.pure PUnit.unit) := hx.bind fun _ => .pure _

theorem forM {xs : List α} {f : α → EncodeM PUnit} (h : ∀ x ∈ xs, Admits (f x)) : Admits (xs.forM f) := by
  induction xs with
  | nil => exact .pure _
  | cons x xs ih =>
    change Admits (f x >>= fun _ => xs.forM f)
    exact (h x List.mem_cons_self).bind fun _ => ih fun y hy => h y (List.mem_cons_of_mem _ hy)

end Admits

/-! ### Instructions -/

/-- A buffer that is full is no refusal. -/
theorem emit_admits (is : List Instr) : Admits (emit is) := by
  intro d e d' h
  rcases emit_cases is d with ⟨full, hfull⟩ | ⟨-, hok⟩
  · rw [hfull] at h
    cases h
    exact id
  · rw [hok] at h
    cases h

theorem cursor_admits : Admits cursor := fun _ _ _ h => nomatch h

theorem moveTo_admits (c : Cursor) : Admits (moveTo c) := fun _ _ _ h => nomatch h

theorem note_admits (hs : List Placeholder) : Admits (note hs) := fun _ _ _ h => nomatch h

theorem activeNode_admits : Admits activeNode := by
  unfold activeNode
  refine cursor_admits.bind fun c => ?_
  split
  · exact .pure _
  · exact .throw id

theorem selectNode_admits (type : TypeId) (node : NodeTarget) : Admits (selectNode type node) := by
  unfold selectNode
  refine cursor_admits.bind fun c => ?_
  split
  · exact .pure _
  · cases node with
    | link => exact (Admits.throw id).bind fun selector => (emit_admits _).bind fun _ => moveTo_admits _
    | _ => exact (emit_admits _).bind fun _ => moveTo_admits _

theorem nodeInstr_admits (i : Instr) : Admits (nodeInstr i) := activeNode_admits.bind fun _ => (emit_admits _).discard

theorem fieldInstr_admits (p : PropDef E) (i : Instr) : Admits (fieldInstr p i) := by
  unfold fieldInstr
  refine activeNode_admits.bind fun ⟨type, node⟩ => ?_
  dsimp only
  split
  · exact Admits.throw (e := .noActiveNode) id
  · exact cursor_admits.bind fun c => (emit_admits _).bind fun _ => (moveTo_admits _).bind fun _ => .pure _

theorem refInstr_admits (p : PropDef E) (many : Bool) (items : List RefItem) (entries : List (RefEntry × Option PendingId))
    (i : Instr) : Admits (refInstr p many items entries i) := (fieldInstr_admits p i).bind fun _ => note_admits _

/-! ### What the tests leave out -/

/-- A handle that is referred to is known, and its node has the type that the property leads to. -/
def LeadsTo (r : Registry) (p : PropDef E) : NodeRef → Prop
  | .id _ => True
  | .pending q => ∃ type, r.typeOf? q = some type ∧ ∀ target, p.target = some target → type = target.id

/-- What a link stores is in order; where links store nothing, only lenient callers may give them something. -/
def LinkInOrder (c : Context) (links : E → Record → Prop) (p : PropDef E) (edges : Record) : Prop :=
  edges ≠ [] →
    match p.edges with
    | some t => links t edges
    | none => c.lenient = true

/-- What the tests of a value leave out: a plain text has a locale, a reference leads to a node of the right type, what its
link stores is in order, and a reference that is taken away is to a node with an id. -/
structure InOrder (c : Context) (links : E → Record → Prop) (p : PropDef E) (v : Value) : Prop where
  locale : p.type = .text → ∀ s, v = .string s → c.locale ≠ Locale.none
  leads : ∀ item ∈ v.refItems, LeadsTo c.registry p item.1
  links : ∀ item ∈ v.refItems, LinkInOrder c links p item.2
  removed : ∀ target ∈ v.removed, ∃ id, c.registry.wireTarget target = .ok (.id id)

/-- What a link stores is valid, and what the tests leave out is in order. -/
def EdgesInOrder (c : Context) (t : EdgeLayout) (edges : Record) : Prop :=
  ∃ fields, collectFields t c.lenient true (Record.ofList (edges.map fun (name, v) => (plainName name, v))) = .ok fields ∧
    ∀ f ∈ fields, InOrder c nofun f.prop f.value

/-- What the tests of an update leave out is in order. A number of the main block is set only at the front of the block;
anywhere else it can only be given its default back. -/
def UpdateInOrder (c : Context) (fields : List (Field EdgeLayout)) : Prop :=
  ∀ f ∈ fields, InOrder c (EdgesInOrder c) f.prop f.value ∧
    ∀ offset, f.prop.offset? = some offset → offset = 0 ∨ f.value.isNull = true

/-! ### References -/

section

variable {c : Context} {edgesOf : EdgeEncoder E} {links : E → Record → Prop} {p : PropDef E}

/-- A node that cannot be referred to is no refusal. -/
theorem wireTarget_clears (r : Registry) (target : NodeRef) : Clears (r.wireTarget target) := by
  cases target with
  | id n => exact .ok _
  | pending q =>
    unfold Registry.wireTarget
    refine Clears.bind ?_ fun state _ => ?_
    · unfold Registry.status
      split
      · exact .ok _
      · exact .error id
    · cases state with
      | failed f => exact .error id
      | _ => exact .ok _

theorem checkTargetType_of_leadsTo {item : RefItem} (h : LeadsTo c.registry p item.1) : checkTargetType c p item = .ok () := by
  obtain ⟨target, edges⟩ := item
  unfold checkTargetType
  cases target with
  | id n => rfl
  | pending q =>
    obtain ⟨type, htype, hexpected⟩ := h
    have hknown : c.registry.pendingType? (.pending q) = some type := htype
    rw [hknown]
    cases htarget : p.target with
    | none => rfl
    | some target => exact if_pos (hexpected target htarget)

/-- A link to a node of an open batch is no refusal either. -/
theorem checkInLink_clears (c : Context) (p : PropDef E) (wire : WireTarget) : Clears (checkInLink c p wire) := by
  unfold checkInLink
  split
  · split
    · exact .error id
    · exact .ok _
  · exact .ok _

variable (hedges : ∀ t, p.edges = some t → ∀ edges deferred, links t edges → Clears (edgesOf t edges deferred))

include hedges

theorem linkBlock_clears {edges : Record} (h : LinkInOrder c links p edges) (deferred : Bool) :
    Clears (linkBlock c edgesOf p edges deferred) := by
  unfold linkBlock
  split
  · exact .ok _
  · have h := h (List.cons_ne_nil _ _)
    split
    · rename_i t ht
      rw [ht] at h
      exact (hedges t ht _ deferred h).map _
    · rename_i hnone
      rw [hnone] at h
      rw [if_pos h]
      exact .ok _

theorem refEntry_clears {item : RefItem} (hleads : LeadsTo c.registry p item.1) (hlinks : LinkInOrder c links p item.2) :
    Clears (refEntry c edgesOf p item) := by
  unfold refEntry
  refine (wireTarget_clears c.registry item.1).bind fun wire _ => ?_
  rw [checkTargetType_of_leadsTo hleads]
  refine (Clears.ok ()).bind fun _ _ => (checkInLink_clears c p wire).bind fun _ _ => ?_
  exact (linkBlock_clears hedges hlinks _).bind fun block _ => .ok _

theorem writeRefs_admits (make : List RefEntry → Instr) {items : List RefItem}
    (h : ∀ item ∈ items, LeadsTo c.registry p item.1 ∧ LinkInOrder c links p item.2) :
    Admits (writeRefs c edgesOf p make items) :=
  Admits.lift (.mapM fun item hitem => refEntry_clears hedges (h item hitem).1 (h item hitem).2) fun _ _ =>
    refInstr_admits p true items _ _

omit hedges in
theorem writeRemoved_admits {v : Value} {targets : List NodeRef}
    (h : ∀ target ∈ targets, ∃ id, c.registry.wireTarget target = .ok (.id id)) : Admits (writeRemoved c p v targets) := by
  unfold writeRemoved
  split
  · refine Admits.lift (.mapM fun target htarget => ?_) fun _ _ => (fieldInstr_admits p _).discard
    obtain ⟨id, hid⟩ := h target htarget
    unfold removedRef
    rw [hid]
    exact .ok _
  · exact .pure _

omit hedges in
/-- A valid reference is written as it is given, or given as a plain number. -/
theorem asRefItem_of_valid {v : Value} (h : PropDef.validateReference v = .ok ()) :
    ∃ item, asRefItem p v = .ok item ∧ (v = .ref item.1 item.2 ∨ ∃ id, item = (.id id, [])) := by
  cases v with
  | ref target edges => exact ⟨_, rfl, .inl rfl⟩
  | int i =>
    have hid : 0 < i.toInt ∧ i.toInt < 2 ^ 32 := by
      by_contra hnot
      have h : (if 0 < i.toInt ∧ i.toInt < 2 ^ 32 then Except.ok () else _) = Except.ok () := h
      rw [if_neg hnot] at h
      cases h
    exact ⟨_, if_pos ⟨by omega, hid.2⟩, .inr ⟨_, rfl⟩⟩
  | _ => cases h

omit hedges in
/-- The references that a value names lead where they should. -/
theorem InOrder.item {v : Value} (h : InOrder c links p v) {item : RefItem}
    (hitem : item ∈ v.refItems ∨ ∃ id, item = (.id id, [])) :
    LeadsTo c.registry p item.1 ∧ LinkInOrder c links p item.2 := by
  rcases hitem with hitem | ⟨id, rfl⟩
  · exact ⟨h.leads item hitem, h.links item hitem⟩
  · exact ⟨trivial, fun hne => absurd rfl hne⟩

/-- A valid list of references that are in order is written. -/
theorem writeListed_admits {vs : List Value} (hvalid : PropDef.validateReferences (.list vs) = .ok ())
    (horder : InOrder c links p (.list vs)) : Admits (do
      let items ← (vs.mapM (asRefItem p) : Except Error _)
      writeRefs c edgesOf p .setRefs items) := by
  have heach := forM_eq_ok.1 hvalid
  refine Admits.lift (.mapM fun v hv => ?_) fun items hitems => writeRefs_admits hedges _ fun item hitem => ?_
  · obtain ⟨item, hok, -⟩ := asRefItem_of_valid (p := p) (heach v hv)
    exact hok ▸ .ok item
  · obtain ⟨v, hv, hok⟩ := (mapM_eq_ok hitems).2.1 item hitem
    obtain ⟨_, hok', hgiven⟩ := asRefItem_of_valid (p := p) (heach v hv)
    rw [hok] at hok'
    cases hok'
    refine horder.item (hgiven.imp_left fun hgiven => List.mem_filterMap.2 ⟨v, hv, ?_⟩)
    rw [hgiven]

omit hedges in
theorem writeText_admits (create : Bool) (v : Value) {entry : String × String} (h : p.takesLocale entry.1 = true) :
    Admits (writeText create p v entry) := by
  unfold PropDef.takesLocale at h
  unfold writeText
  split
  · rename_i hid
    rw [hid] at h
    cases h
  · split
    · exact (fieldInstr_admits p _).discard
    · split
      · exact (fieldInstr_admits p _).discard
      · exact .pure _

/-- A valid value of which all is in order is not refused. -/
theorem writeSeparate_admits (hm : p.Measured) (hsep : p.isMain = false) {v : Value} (hvalid : p.validateBuiltin v = .ok ())
    (horder : InOrder c links p v) (create : Bool) : Admits (writeSeparate c edgesOf create p v) := by
  have hkind : v.isNull = false → (p.type = .reference → PropDef.validateReference v = .ok ()) ∧
      (p.type = .references → PropDef.validateReferences v = .ok ()) := fun hnull => by
    unfold PropDef.validateBuiltin at hvalid
    rw [if_neg (by simp [hnull])] at hvalid
    exact ⟨fun htype => by rwa [htype] at hvalid, fun htype => by rwa [htype] at hvalid⟩
  unfold writeSeparate
  split
  · split
    · exact (fieldInstr_admits p _).discard
    · exact .pure _
  · rename_i s htext
    rw [if_neg (horder.locale htext s rfl)]
    exact (fieldInstr_admits p _).discard
  · rename_i entries htext
    obtain ⟨_, hv⟩ | ⟨_, hv, hlocales⟩ := text_of_valid htext rfl hvalid
    · cases hv
    · cases hv
      exact .forM fun entry hentry => writeText_admits create _ (hlocales entry hentry)
  · rename_i v _ _ htype hne
    have hnull : v.isNull = false := by cases v <;> first | rfl | exact (hne rfl).elim
    obtain ⟨item, hok, hgiven⟩ := asRefItem_of_valid (p := p) ((hkind hnull).1 htype)
    obtain ⟨hleads, hlinks⟩ := horder.item (hgiven.imp_left fun hgiven => by rw [hgiven]; exact List.mem_singleton_self _)
    rw [hok]
    refine Admits.lift (.ok item) fun _ hitem => ?_
    cases hitem
    exact Admits.lift (refEntry_clears hedges hleads hlinks) fun entry _ => refInstr_admits p false _ _ _
  · rename_i vs htype
    exact writeListed_admits hedges ((hkind rfl).2 htype) horder
  · rename_i replace add remove htype
    have hgiven : ∀ item ∈ replace.getD [] ++ add, LeadsTo c.registry p item.1 ∧ LinkInOrder c links p item.2 :=
      fun item hitem => horder.item (.inl hitem)
    refine Admits.bind ?_ fun _ => Admits.bind ?_ fun _ => writeRemoved_admits horder.removed
    · cases replace with
      | none => exact .pure _
      | some items => exact writeRefs_admits hedges _ fun item hitem => hgiven item (List.mem_append_left _ hitem)
    · unfold writeAdded
      split
      · exact .pure _
      · exact writeRefs_admits hedges _ fun item hitem => hgiven item (List.mem_append_right _ hitem)
  · rename_i v _ _ hne href hstring htexts hlist hrefs
    have hnull : v.isNull = false := by cases v <;> first | rfl | exact (hne rfl).elim
    have htext : p.type ≠ .text := fun htext => by
      rcases text_of_valid htext hnull hvalid with ⟨s, rfl⟩ | ⟨entries, rfl, -⟩
      · exact hstring s htext rfl
      · exact htexts entries htext rfl
    have hmany : p.type ≠ .references := fun htype => by
      have := (hkind hnull).2 htype
      cases v with
      | list vs => exact hlist vs htype rfl
      | refs replace add remove => exact hrefs replace add remove htype rfl
      | _ => cases this
    have hplain : p.type.isReference = false := by cases htype : p.type <;> first | rfl | contradiction
    obtain ⟨payload, hpayload⟩ := encodeSeparate_of_valid hm hsep hplain htext hnull hvalid
    rw [hpayload]
    exact (fieldInstr_admits p _).discard

end

/-! ### The main block -/

section

variable {t : Layout E} {p : PropDef E}

/-- A valid value has a place in a block that reaches to the end of it. -/
theorem placeField_of_valid (hm : p.Measured) (hd : p.Declared) {f : Field E} (hf : f.prop = p) {offset : Nat}
    (hoffset : p.offset? = some offset) {block : Bytes} (hroom : offset + p.len ≤ block.length) (hnull : f.value.isNull = false)
    (hvalid : p.validateBuiltin f.value = .ok ()) : ∃ bytes, placeField block f = .ok bytes ∧ bytes.length = block.length := by
  subst hf
  obtain ⟨bytes, hbytes⟩ := encodeFixed_of_valid hm hd (PropDef.isMain_of_offset? hoffset) hnull hvalid
  have hlen := Schema.length_encodeFixed hm hbytes
  refine ⟨Bytes.overwrite offset bytes block, ?_, Bytes.length_overwrite (by omega)⟩
  unfold placeField
  rw [hoffset]
  dsimp only
  rw [if_neg (Nat.not_lt.2 hroom), hbytes]

/-- Valid values have their places in the main block of a new node. -/
theorem mainBlock_clears (ht : t.Placed) (hk : t.Packed) {fields : List (Field E)}
    (hfields : ∀ f ∈ fields, f.prop ∈ t.props ∧ f.prop.validateBuiltin f.value = .ok ()) : Clears (mainBlock t fields) := by
  have hplaced : ∀ fs : List (Field E), (∀ f ∈ fs, f ∈ fields ∧ f.prop.isMain = true ∧ f.value.isNull = false) →
      ∀ block : Bytes, block.length = t.mainLen → ∃ block', fs.foldlM placeField block = .ok block' := by
    intro fs
    induction fs with
    | nil => exact fun _ block _ => ⟨block, rfl⟩
    | cons f fs ih =>
      intro hfs block hblock
      obtain ⟨hf, hmain, hnull⟩ := hfs f List.mem_cons_self
      obtain ⟨hmem, hvalid⟩ := hfields f hf
      obtain ⟨offset, hoffset⟩ := PropDef.offset?_of_isMain hmain
      have hroom := ht.inside _ hmem offset hoffset
      have hfits : offset + f.prop.len ≤ block.length := by omega
      obtain ⟨next, hnext, hlen⟩ := placeField_of_valid (ht.measured _ hmem) (hk.declared _ hmem) rfl hoffset hfits hnull hvalid
      obtain ⟨last, hlast⟩ := ih (fun g hg => hfs g (List.mem_cons_of_mem _ hg)) next (hlen.trans hblock)
      exact ⟨last, by rw [List.foldlM_cons, hnext]; exact hlast⟩
  obtain ⟨block, hblock⟩ := hplaced (fields.filter fun f => f.prop.isMain && !f.value.isNull)
    (fun f hf => by simpa using List.mem_filter.1 hf) t.mainDefaults ht.defaults
  unfold mainBlock
  rw [hblock]
  exact .ok block

/-- The fields of a new node are not refused if they are valid and in order. -/
theorem writeCreateWith_admits {c : Context} {edgesOf : EdgeEncoder E} {links : E → Record → Prop} (ht : t.Placed) (hk : t.Packed)
    {fields : List (Field E)} (hfields : ∀ f ∈ fields, f.prop ∈ t.props ∧ f.prop.validateBuiltin f.value = .ok ())
    (hedges : ∀ f ∈ fields, ∀ e, f.prop.edges = some e → ∀ edges deferred, links e edges → Clears (edgesOf e edges deferred))
    (horder : ∀ f ∈ fields, InOrder c links f.prop f.value) : Admits (writeCreateWith c edgesOf t fields) := by
  have hseparate : Admits ((fields.filter fun f => !f.prop.isMain).forM fun f =>
      writeSeparate c edgesOf true f.prop f.value) := .forM fun f hf => by
    obtain ⟨hf, hsep⟩ := List.mem_filter.1 hf
    obtain ⟨hmem, hvalid⟩ := hfields f hf
    exact writeSeparate_admits (hedges f hf) (ht.measured _ hmem) (by simpa using hsep) hvalid (horder f hf) true
  unfold writeCreateWith
  split
  · exact Admits.lift (mainBlock_clears ht hk hfields) fun block _ => (nodeInstr_admits _).bind fun _ => hseparate
  · exact hseparate

end

/-! ### Calls -/

section

variable {c c' : Context}

/-- What a link stores is not refused if it is in order. -/
theorem encodeEdges_clears {t : EdgeLayout} (ht : t.Placed) (hk : t.Packed) {edges : Record} (h : EdgesInOrder c t edges)
    (deferred : Bool) : Clears (encodeEdges c t edges deferred) := by
  obtain ⟨fields, hfields, horder⟩ := h
  have hadmits : Admits (writeCreateWith { c with linkDeferred := some deferred } nothingOnLinks t fields) :=
    writeCreateWith_admits ht hk (collectFields_valid hfields) (fun _ _ => nofun) fun f hf =>
      ⟨(horder f hf).locale, (horder f hf).leads, (horder f hf).links, (horder f hf).removed⟩
  unfold encodeEdges
  refine Clears.bind (hfields ▸ .ok fields) fun found hfound => ?_
  rw [hfields] at hfound
  cases hfound
  split
  · exact .ok _
  · rename_i e d he
    exact .error (hadmits _ _ _ he)

/-- An update is not refused if its fields are valid and in order. -/
theorem writeUpdate_admits {t : TypeLayout} (ht : t.Placed) (hk : t.Packed)
    (hedges : ∀ p ∈ t.props, ∀ e, p.edges = some e → e.Placed ∧ e.Packed) {fields : List (Field EdgeLayout)}
    (hfields : ∀ f ∈ fields, f.prop ∈ t.props ∧ f.prop.validateBuiltin f.value = .ok ()) (horder : UpdateInOrder c fields) :
    Admits (writeUpdate c t fields) := by
  refine .forM fun f hf => ?_
  obtain ⟨hmem, hvalid⟩ := hfields f hf
  obtain ⟨horder, hfront⟩ := horder f hf
  unfold writeChange
  split
  · rename_i hnone
    have hsep : f.prop.isMain = false := by
      by_contra hmain
      obtain ⟨offset, hoffset⟩ := PropDef.offset?_of_isMain (by simpa using hmain)
      rw [hnone] at hoffset
      cases hoffset
    exact writeSeparate_admits (fun e he edges deferred h => encodeEdges_clears (hedges _ hmem e he).1 (hedges _ hmem e he).2
      h deferred) (ht.measured _ hmem) hsep hvalid horder false
  · rename_i offset hoffset
    refine Admits.lift ?_ fun bytes _ => nodeInstr_admits _
    split
    · exact .ok _
    · rename_i hnull
      obtain rfl := (hfront offset hoffset).resolve_right hnull
      have hroom := ht.inside _ hmem 0 hoffset
      have hfits : 0 + f.prop.len ≤ ((t.mainDefaults.drop 0).take f.prop.len).length := by
        have := ht.defaults
        simp
        omega
      obtain ⟨bytes, hbytes, -⟩ := placeField_of_valid (ht.measured _ hmem) (hk.declared _ hmem) rfl hoffset hfits
        (by simpa using hnull) hvalid
      rw [hbytes]
      exact .ok bytes

/-- An amount is not refused if it is a number, and an integer for a counter of integers. -/
theorem writeCount_admits {p : PropDef EdgeLayout} {amount : Value} (hmain : p.isMain = true) (hnumeric : p.type.isNumeric = true)
    (hnumber : amount.asDouble?.isSome = true) (horder : p.type = .number ∨ amount.asInt?.isSome = true) (decrement : Bool) :
    Admits (writeCount p amount decrement) := by
  obtain ⟨offset, hoffset⟩ := PropDef.offset?_of_isMain hmain
  have hamount : Clears (amountBytes p amount) := by
    obtain ⟨x, hx⟩ := Option.isSome_iff_exists.1 hnumber
    unfold amountBytes
    split
    · rw [hx]
      exact .ok _
    · rename_i hne
      obtain ⟨i, hi⟩ := Option.isSome_iff_exists.1 (horder.resolve_left hne)
      rw [hi]
      exact .ok _
  unfold writeCount
  rw [hoffset]
  simp only [hnumeric, Bool.not_true, Bool.false_eq_true, if_false]
  exact Admits.lift hamount fun bytes _ => nodeInstr_admits _

theorem writeDelete_admits : Admits writeDelete := (nodeInstr_admits _).bind fun _ => moveTo_admits _

/-- A write to a node is not refused if what it writes is not. -/
theorem writeTo_admits {write : Context → EncodeM Unit} (h : Admits (write c)) (type : TypeId) (target : NodeRef) :
    Admits (Session.writeTo type target write c) := by
  have hnode : ∀ node, Admits (do selectNode type node; write c; return (none : Option PendingId)) := fun node =>
    (selectNode_admits type node).bind fun _ => h.bind fun _ => .pure _
  refine Admits.lift (wireTarget_clears c.registry target) fun wire _ => ?_
  cases wire with
  | id n => exact hnode (.id n)
  | tmp n => exact hnode (.tmp n)
  | deferred p => exact .pure _

end

/-! ### Later calls -/

section

variable {c c' : Context}

/-- The same options, and a later registry. -/
structure Context.Later (c c' : Context) : Prop where
  locale : c'.locale = c.locale
  lenient : c'.lenient = c.lenient
  registry : c.registry.Later c'.registry

theorem LeadsTo.later {r r' : Registry} (hr : r.Later r') {p : PropDef E} {target : NodeRef} (h : LeadsTo r p target) :
    LeadsTo r' p target := by
  cases target with
  | id n => trivial
  | pending q =>
    obtain ⟨type, htype, hexpected⟩ := h
    exact ⟨type, hr.typeOf? htype, hexpected⟩

/-- What is in order stays so. -/
theorem InOrder.later (hc : c.Later c') {links links' : E → Record → Prop} (hlinks : ∀ t edges, links t edges → links' t edges)
    {p : PropDef E} {v : Value} (h : InOrder c links p v) : InOrder c' links' p v where
  locale htext s hs := by
    rw [hc.locale]
    exact h.locale htext s hs
  leads item hitem := (h.leads item hitem).later hc.registry
  links item hitem hne := by
    have hold := h.links item hitem hne
    split at hold
    · exact hlinks _ _ hold
    · rw [hc.lenient]
      exact hold
  removed target htarget := by
    obtain ⟨id, hid⟩ := h.removed target htarget
    cases target with
    | id n => exact ⟨n, rfl⟩
    | pending q =>
      obtain ⟨e, he, ⟨_, -, hw⟩ | ⟨_, -, hw⟩ | ⟨n, hstate, hw⟩⟩ := Registry.wireTarget_pending.1 hid
      · cases hw
      · cases hw
      · obtain ⟨e', he', -, hsettled⟩ := hc.registry q e he
        have hstate' : e'.state = .resolved n := (hsettled (by rw [hstate]; rfl)).trans hstate
        exact ⟨n, Registry.wireTarget_pending.2 ⟨e', he', .inr (.inr ⟨n, hstate', rfl⟩)⟩⟩

theorem UpdateInOrder.later (hc : c.Later c') {fields : List (Field EdgeLayout)} (h : UpdateInOrder c fields) :
    UpdateInOrder c' fields := by
  have hedges : ∀ t edges, EdgesInOrder c t edges → EdgesInOrder c' t edges := by
    rintro t edges ⟨fs, hfs, horder⟩
    refine ⟨fs, ?_, fun f hf => (horder f hf).later hc nofun⟩
    rw [hc.lenient]
    exact hfs
  exact fun f hf => ⟨(h f hf).1.later hc hedges, (h f hf).2⟩

end

end Write

end NodeStore
