import NodeStore.Proofs.Write.Agreement

/-!
# Other records on links

A value keeps its references when other records are put on their links. It is written alike if what the links store comes
out alike.

* `Value.mapLinks`, `PropDef.relink`, `Field.relink`: values and fields with other records on their links.
* `LinksAgree`, `ValueAgrees`, `FieldsAgree`: what the links store comes out alike.
* `writeSeparate_agrees`, `writeCreateWith_agrees`, `writeUpdateWith_agrees`: then so does all that is written.
-/

namespace NodeStore

/-- A reference with another record on its link. -/
def RefItem.relink (g : Record → Record) (item : RefItem) : RefItem := (item.1, g item.2)

/-- A reference as a value, with another record on its link. -/
def Value.mapLink (g : Record → Record) : Value → Value
  | .ref target edges => .ref target (g edges)
  | v => v

/-- A value with other records on its links. -/
def Value.mapLinks (g : Record → Record) : Value → Value
  | .refs replace add remove => .refs (replace.map (·.map (RefItem.relink g))) (add.map (RefItem.relink g)) remove
  | .list vs => .list (vs.map (Value.mapLink g))
  | v => v.mapLink g

theorem Value.isNull_mapLinks (g : Record → Record) (v : Value) : (v.mapLinks g).isNull = v.isNull := by cases v <;> rfl

/-- A value of a property with other records on its links, if the property has links. -/
def PropDef.relink {E : Type} (g : Record → Record) (p : PropDef E) (v : Value) : Value :=
  if p.type.isReference then v.mapLinks g else v

theorem PropDef.isNull_relink {E : Type} (g : Record → Record) (p : PropDef E) (v : Value) :
    (p.relink g v).isNull = v.isNull := by
  unfold relink
  split
  · exact v.isNull_mapLinks g
  · rfl

namespace Write

variable {E : Type} {X : Prop}

/-! ### References -/

/-- What a link stores comes out alike when it is given another record. -/
def LinksAgree {E : Type} (X : Prop) (c c' : Context) (edgesOf edgesOf' : EdgeEncoder E) (g : Record → Record)
    (p : PropDef E) (edges : Record) : Prop :=
  ∀ deferred, Agree X Eq (linkBlock c edgesOf p edges deferred) (linkBlock c' edgesOf' p (g edges) deferred)

theorem LinksAgree.nil {c c' : Context} {edgesOf edgesOf' : EdgeEncoder E} {g : Record → Record} (hg : g [] = [])
    (p : PropDef E) : LinksAgree X c c' edgesOf edgesOf' g p [] := fun deferred => by
  rw [hg]
  exact .ok rfl

section

variable {c : Context} {b : Bool} {edgesOf edgesOf' : EdgeEncoder E} {g : Record → Record} {p : PropDef E}

theorem wireTarget_known {r : Registry} {target : NodeRef} {e : Error} (h : r.wireTarget target = .error e) :
    ¬e.IsUnknown := fun hu =>
  wireTarget_clears r target e h (by cases e <;> trivial)

theorem refEntry_agrees {item : RefItem} (h : LinksAgree X c { c with lenient := b } edgesOf edgesOf' g p item.2) :
    Agree X Eq (refEntry c edgesOf p item) (refEntry { c with lenient := b } edgesOf' p (RefItem.relink g item)) := by
  refine (Agree.self fun e => wireTarget_known).bind ?_
  rintro wire _ rfl
  have htype : Agree X Eq (checkTargetType c p item)
      (checkTargetType { c with lenient := b } p (RefItem.relink g item)) := by
    unfold checkTargetType RefItem.relink
    dsimp only
    split
    · split
      · exact .ok rfl
      · exact .error ⟨id, id, .rfl⟩
    · exact .ok rfl
  have hlink : Agree X Eq (checkInLink c p wire) (checkInLink { c with lenient := b } p wire) := by
    unfold checkInLink
    dsimp only
    split
    · split
      · exact .error (.refl id)
      · exact .ok rfl
    · exact .ok rfl
  refine htype.bind fun _ _ _ => hlink.bind fun _ _ _ => (h _).bind ?_
  rintro block _ rfl
  exact .ok rfl

theorem removedRef_agrees (v v' : Value) (target : NodeRef) :
    Agree X Eq (removedRef c p v target) (removedRef { c with lenient := b } p v' target) := by
  refine (Agree.self fun e => wireTarget_known).bind ?_
  rintro wire _ rfl
  cases wire with
  | deferred q => exact .error ⟨id, id, .rfl⟩
  | _ => exact .ok rfl

theorem asRefItem_agrees (hg : g [] = []) (v : Value) :
    Agree X (RefItem.relink g · = ·) (asRefItem p v) (asRefItem p (v.mapLink g)) := by
  cases v with
  | ref target edges => exact .ok rfl
  | int i =>
    unfold Value.mapLink asRefItem
    dsimp only
    split
    · exact .ok (by rw [RefItem.relink, hg])
    · exact .error ⟨id, id, .rfl⟩
  | _ => exact .error ⟨id, id, .rfl⟩

/-- What a value is read as is one of its references, or a plain number. -/
theorem asRefItem_mem {v : Value} {item : RefItem} (h : asRefItem p v = .ok item) :
    v.refItems = [item] ∨ item.2 = [] := by
  cases v with
  | ref target edges =>
    cases h
    exact .inl rfl
  | int i =>
    unfold asRefItem at h
    dsimp only at h
    split at h
    · cases h
      exact .inr rfl
    · cases h
  | _ => cases h

theorem writeRefs_agrees (make : List RefEntry → Instr) {items : List RefItem}
    (h : ∀ item ∈ items, LinksAgree X c { c with lenient := b } edgesOf edgesOf' g p item.2) :
    Concur X (writeRefs c edgesOf p make items)
      (writeRefs { c with lenient := b } edgesOf' p make (items.map (RefItem.relink g))) := by
  refine Concur.lift (Agree.mapM_eq (forall₂_map_mem (RefItem.relink g) items) ?_) ?_
  · rintro item _ ⟨hitem, rfl⟩
    exact refEntry_agrees (h item hitem)
  · rintro entries _ rfl
    exact .refInstr p true _ _ entries _

theorem writeRemoved_agrees (v v' : Value) (targets : List NodeRef) :
    Concur X (writeRemoved c p v targets) (writeRemoved { c with lenient := b } p v' targets) := by
  unfold writeRemoved
  split
  · refine Concur.lift (Agree.mapM_eq (R := Eq) (List.forall₂_same.2 fun _ _ => rfl) ?_) ?_
    · rintro target _ rfl
      exact removedRef_agrees v v' target
    · rintro entries _ rfl
      exact (Concur.fieldInstr p _).discard
  · exact .pure _

/-! ### Fields -/

theorem writeText_agrees (create : Bool) (v : Value) (entry : String × String) :
    Concur X (writeText create p v entry) (writeText create p v entry) := by
  unfold writeText
  split
  · exact .throw (.refl id)
  · split
    · exact (Concur.fieldInstr p _).discard
    · split
      · exact (Concur.fieldInstr p _).discard
      · exact .pure _

/-- A value without links is written alike. -/
theorem writeSeparate_agrees_plain (href : p.type.isReference = false) (create : Bool) (v : Value) :
    Concur X (writeSeparate c edgesOf create p v) (writeSeparate { c with lenient := b } edgesOf' create p v) := by
  unfold writeSeparate
  split
  · split
    · exact (Concur.fieldInstr p _).discard
    · exact .pure _
  · dsimp only
    split
    · exact .throw (.refl id)
    · exact (Concur.fieldInstr p _).discard
  · exact .forM (List.forall₂_same.2 fun _ _ => rfl) fun entry _ h => h ▸ writeText_agrees create _ entry
  · rename_i htype _
    rw [htype] at href
    cases href
  · rename_i htype
    rw [htype] at href
    cases href
  · rename_i htype
    rw [htype] at href
    cases href
  · split
    · exact (Concur.fieldInstr p _).discard
    · exact .throw (.refl id)

variable {create : Bool} {v : Value}

theorem writeSeparate_nothing :
    writeSeparate c edgesOf create p .null =
      if !create then fieldInstr p .deleteField >>= fun _ => pure () else pure () := by
  unfold writeSeparate
  cases p.type <;> rfl

theorem writeSeparate_reference (htype : p.type = .reference) (hnull : v.isNull = false) :
    writeSeparate c edgesOf create p v = (do
      let item ← (asRefItem p v : Except Error _)
      let entry ← (refEntry c edgesOf p item : Except Error _)
      refInstr p false [item] [entry] (.setRef entry.1)) := by
  unfold writeSeparate
  cases v with
  | null => cases hnull
  | _ => simp only [htype]

theorem writeSeparate_list (htype : p.type = .references) (vs : List Value) :
    writeSeparate c edgesOf create p (.list vs) = (do
      let items ← (vs.mapM (asRefItem p) : Except Error _)
      writeRefs c edgesOf p .setRefs items) := by
  unfold writeSeparate
  simp only [htype]

theorem writeSeparate_refs (htype : p.type = .references) (replace : Option (List RefItem)) (add : List RefItem)
    (remove : List NodeRef) :
    writeSeparate c edgesOf create p (.refs replace add remove) = (do
      writeReplaced c edgesOf p replace
      writeAdded c edgesOf p add
      writeRemoved c p (.refs replace add remove) remove) := by
  unfold writeSeparate
  simp only [htype]

/-- Other values are no references. -/
theorem writeSeparate_unlisted (c : Context) (edgesOf : EdgeEncoder E) (create : Bool) (htype : p.type = .references)
    (hnull : v.isNull = false)
    (hlist : ∀ vs, v ≠ .list vs) (hrefs : ∀ replace add remove, v ≠ .refs replace add remove) :
    ∃ e : Error, ¬e.IsUnknown ∧ ¬e.IsFull ∧ writeSeparate c edgesOf create p v = throw e := by
  refine ⟨.invalid p.name v (.unencodable (.noSeparateForm v.kind .references)), id, id, ?_⟩
  unfold writeSeparate
  cases v with
  | null => cases hnull
  | list vs => exact absurd rfl (hlist vs)
  | refs replace add remove => exact absurd rfl (hrefs replace add remove)
  | _ => simp only [htype, PropDef.encodeSeparate]

/-- What the links of a value store comes out alike. -/
def ValueAgrees (X : Prop) (c c' : Context) (edgesOf edgesOf' : EdgeEncoder E) (g : Record → Record) (p : PropDef E)
    (v : Value) : Prop :=
  ∀ item ∈ v.refItems, LinksAgree X c c' edgesOf edgesOf' g p item.2

/-- So does what the link of a reference stores that stands for itself. -/
theorem ValueAgrees.one (hg : g [] = []) (h : ValueAgrees X c { c with lenient := b } edgesOf edgesOf' g p v)
    {item : RefItem} (hitem : asRefItem p v = .ok item) :
    LinksAgree X c { c with lenient := b } edgesOf edgesOf' g p item.2 := by
  rcases asRefItem_mem hitem with hmem | hnil
  · exact h item (hmem ▸ List.mem_singleton_self item)
  · exact hnil ▸ .nil hg p

/-- A reference is written alike. -/
theorem writeReference_agrees (hg : g [] = []) (h : ValueAgrees X c { c with lenient := b } edgesOf edgesOf' g p v)
    (hnull : v.isNull = false) (htype : p.type = .reference) :
    Concur X (writeSeparate c edgesOf create p v)
      (writeSeparate { c with lenient := b } edgesOf' create p (v.mapLinks g)) := by
  rw [writeSeparate_reference htype hnull, writeSeparate_reference htype ((v.isNull_mapLinks g).trans hnull)]
  refine Concur.lift (P := fun item item' => RefItem.relink g item = item' ∧ asRefItem p v = .ok item) ?_ ?_
  · refine Agree.remember ?_
    cases v with
    | list _ | refs _ _ _ => exact .error ⟨id, id, .rfl⟩
    | _ => exact asRefItem_agrees hg _
  · rintro item _ ⟨rfl, hitem⟩
    refine Concur.lift (refEntry_agrees (h.one hg hitem)) ?_
    rintro entry _ rfl
    exact .refInstr p false _ _ [entry] _

/-- Listed references are written alike. -/
theorem writeListed_agrees (hg : g [] = []) {vs : List Value}
    (h : ValueAgrees X c { c with lenient := b } edgesOf edgesOf' g p (.list vs)) (htype : p.type = .references) :
    Concur X (writeSeparate c edgesOf create p (.list vs))
      (writeSeparate { c with lenient := b } edgesOf' create p ((Value.list vs).mapLinks g)) := by
  rw [Value.mapLinks, writeSeparate_list htype, writeSeparate_list htype]
  refine Concur.lift (P := List.Forall₂ fun item item' =>
    LinksAgree X c { c with lenient := b } edgesOf edgesOf' g p item.2 ∧ RefItem.relink g item = item')
    (Agree.mapM (forall₂_map_mem (Value.mapLink g) vs) ?_) fun items items' hitems => ?_
  · rintro v _ ⟨hv, rfl⟩
    refine (asRefItem_agrees hg v).remember.mono id ?_
    rintro item _ ⟨rfl, hitem⟩
    have hone : ValueAgrees X c { c with lenient := b } edgesOf edgesOf' g p v := fun item' hitem' => by
      cases v with
      | ref target edges => exact h item' (List.mem_filterMap.2 ⟨_, hv, by rw [List.mem_singleton.1 hitem']⟩)
      | int i => cases hitem'
      | _ => cases hitem
    exact ⟨hone.one hg hitem, rfl⟩
  · obtain ⟨hall, hmap⟩ := (List.forall₂_and_left _ _).1 hitems
    rw [← List.forall₂_map_left_iff (R := Eq), List.forall₂_eq_eq_eq] at hmap
    subst hmap
    exact writeRefs_agrees _ hall

/-- References that are replaced, added and removed are written alike. -/
theorem writeChanged_agrees {replace : Option (List RefItem)} {add : List RefItem} {remove : List NodeRef}
    (h : ValueAgrees X c { c with lenient := b } edgesOf edgesOf' g p (.refs replace add remove))
    (htype : p.type = .references) :
    Concur X (writeSeparate c edgesOf create p (.refs replace add remove))
      (writeSeparate { c with lenient := b } edgesOf' create p ((Value.refs replace add remove).mapLinks g)) := by
  rw [Value.mapLinks, writeSeparate_refs htype, writeSeparate_refs htype]
  refine Concur.bind ?_ fun _ => Concur.bind ?_ fun _ => writeRemoved_agrees _ _ remove
  · cases replace with
    | none => exact .pure _
    | some items => exact writeRefs_agrees _ fun item hitem => h item (List.mem_append_left _ hitem)
  · unfold writeAdded
    rw [List.isEmpty_map]
    split
    · exact .pure _
    · exact writeRefs_agrees _ fun item hitem => h item (List.mem_append_right _ hitem)

/-- A value with other records on its links is written alike. -/
theorem writeSeparate_agrees (hg : g [] = [])
    (h : p.type.isReference = true → ValueAgrees X c { c with lenient := b } edgesOf edgesOf' g p v) :
    Concur X (writeSeparate c edgesOf create p v)
      (writeSeparate { c with lenient := b } edgesOf' create p (p.relink g v)) := by
  cases href : p.type.isReference with
  | false =>
    rw [PropDef.relink, href]
    exact writeSeparate_agrees_plain href create v
  | true =>
    have h := h href
    rw [PropDef.relink, href, if_pos rfl]
    cases hnull : v.isNull with
    | true =>
      cases v with
      | null =>
        rw [Value.mapLinks, Value.mapLink, writeSeparate_nothing, writeSeparate_nothing]
        · split
          · exact (Concur.fieldInstr p _).discard
          · exact .pure _
        all_goals intros; contradiction
      | _ => cases hnull
    | false =>
      cases htype : p.type with
      | reference => exact writeReference_agrees hg h hnull htype
      | references =>
        cases v with
        | list vs => exact writeListed_agrees hg h htype
        | refs replace add remove => exact writeChanged_agrees h htype
        | _ =>
          obtain ⟨e, hknown, hroom, he⟩ := writeSeparate_unlisted c edgesOf create htype hnull (fun _ hv => by cases hv)
            (fun _ _ _ hv => by cases hv)
          obtain ⟨e', hknown', hroom', he'⟩ := writeSeparate_unlisted { c with lenient := b } edgesOf' create htype
            ((Value.isNull_mapLinks g _).trans hnull) (fun _ hv => by cases hv) (fun _ _ _ hv => by cases hv)
          rw [he, he']
          exact .throw ⟨hknown, hknown', iff_of_false hroom' hroom⟩
      | _ =>
        rw [htype] at href
        cases href

end

/-! ### All fields -/

/-- A field with other records on the links of its value. -/
def Field.relink (g : PropDef E → Record → Record) (f : Field E) : Field E :=
  { f with value := f.prop.relink (g f.prop) f.value }

section

variable {c : Context} {b : Bool} {edgesOf edgesOf' : EdgeEncoder E} {g : PropDef E → Record → Record}
  {fields : List (Field E)}

/-- The values of some fields come out alike, and those of the main block have no links. -/
structure FieldsAgree (X : Prop) (c c' : Context) (edgesOf edgesOf' : EdgeEncoder E) (g : PropDef E → Record → Record)
    (fields : List (Field E)) : Prop where
  values : ∀ f ∈ fields, f.prop.type.isReference = true → ValueAgrees X c c' edgesOf edgesOf' (g f.prop) f.prop f.value
  plain : ∀ f ∈ fields, f.prop.isMain = true → f.prop.type.isReference = false

theorem Field.relink_of_plain {f : Field E} (h : f.prop.type.isReference = false) : f.relink g = f := by
  unfold Field.relink PropDef.relink
  rw [h]
  rfl

theorem placeField_agrees (block : Bytes) (f : Field E) : Agree X Eq (placeField block f) (placeField block f) := by
  refine Agree.self fun e he => ?_
  unfold placeField at he
  split at he
  · cases he
  · split at he
    · cases he
      exact id
    · split at he
      · cases he
      · cases he
        exact id

/-- The main block holds no links. -/
theorem mainBlock_relink (h : FieldsAgree X c { c with lenient := b } edgesOf edgesOf' g fields) (t : Layout E) :
    mainBlock t (fields.map (Field.relink g)) = mainBlock t fields := by
  have htest : (fun f : Field E => f.prop.isMain && !f.value.isNull) ∘ Field.relink g =
      fun f => f.prop.isMain && !f.value.isNull := by
    funext f
    simp only [Function.comp_apply, Field.relink, PropDef.isNull_relink]
  unfold mainBlock
  rw [List.filter_map, htest, List.map_congr_left (g := id), List.map_id]
  intro f hf
  obtain ⟨hmem, hmain⟩ := List.mem_filter.1 hf
  exact Field.relink_of_plain (h.plain f hmem (Bool.and_eq_true_iff.1 hmain).1)

/-- A new node is written alike. -/
theorem writeCreateWith_agrees (hg : ∀ p, g p [] = [])
    (h : FieldsAgree X c { c with lenient := b } edgesOf edgesOf' g fields) (t : Layout E) : Concur X (writeCreateWith c edgesOf t fields)
      (writeCreateWith { c with lenient := b } edgesOf' t (fields.map (Field.relink g))) := by
  have hseparate : Concur X
      ((fields.filter fun f => !f.prop.isMain).forM fun f => writeSeparate c edgesOf true f.prop f.value)
      (((fields.map (Field.relink g)).filter fun f => !f.prop.isMain).forM fun f =>
        writeSeparate { c with lenient := b } edgesOf' true f.prop f.value) := by
    rw [List.filter_map]
    refine .forM (forall₂_map_mem (Field.relink g) _) ?_
    rintro f _ ⟨hf, rfl⟩
    exact writeSeparate_agrees (hg f.prop) (h.values f (List.mem_of_mem_filter hf))
  unfold writeCreateWith
  rw [mainBlock_relink h]
  split
  · refine Concur.lift (Agree.foldlM placeField_agrees _) ?_
    rintro block _ rfl
    exact (Concur.nodeInstr _).bind fun _ => hseparate
  · exact hseparate

theorem writeChange_agrees (hg : ∀ p, g p [] = [])
    (h : FieldsAgree X c { c with lenient := b } edgesOf edgesOf' g fields) (t : Layout E) {f : Field E}
    (hf : f ∈ fields) : Concur X (writeChange c edgesOf t f)
      (writeChange { c with lenient := b } edgesOf' t (f.relink g)) := by
  cases hoffset : f.prop.offset? with
  | some offset =>
    have hmain := h.plain f hf (PropDef.isMain_of_offset? hoffset)
    rw [Field.relink_of_plain hmain]
    unfold writeChange
    rw [hoffset]
    refine Concur.lift (P := Eq) ?_ ?_
    · split
      · exact .ok rfl
      · exact placeField_agrees _ f
    · rintro bytes _ rfl
      exact .nodeInstr _
  | none =>
    have hoffset' : (f.relink g).prop.offset? = none := hoffset
    unfold writeChange
    rw [hoffset, hoffset']
    exact writeSeparate_agrees (hg f.prop) (h.values f hf)

/-- Changes of a node are written alike. -/
theorem writeUpdateWith_agrees (hg : ∀ p, g p [] = [])
    (h : FieldsAgree X c { c with lenient := b } edgesOf edgesOf' g fields) (t : Layout E) : Concur X (writeUpdateWith c edgesOf t fields)
      (writeUpdateWith { c with lenient := b } edgesOf' t (fields.map (Field.relink g))) := by
  refine .forM (forall₂_map_mem (Field.relink g) fields) ?_
  rintro f _ ⟨hf, rfl⟩
  exact writeChange_agrees hg h t hf

end

end Write

end NodeStore
