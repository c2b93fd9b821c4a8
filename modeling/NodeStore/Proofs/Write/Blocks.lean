import NodeStore.Proofs.Write.Drafts

/-!
# Blocks of links have one length

What a link stores is encoded when its reference is written and again when the reference is settled. The nodes that it
refers to may be in other states then, but a reference inside a block has the same length in any case.

* `Abreast`: two actions that write the same number of bytes whenever both succeed.
* `linkBlock_length`: the block of a link is as long as any other block of the same link.
-/

namespace NodeStore.Write

/-- The same number of bytes, and the cursor in the same place. -/
structure Draft.Level (d e : Draft) : Prop where
  length : d.length = e.length
  cursor : d.encoder.cursor = e.encoder.cursor

/-- From level drafts both actions come to level drafts, if both succeed. -/
def Abreast {α β : Type} (x : EncodeM α) (y : EncodeM β) : Prop :=
  ∀ d e a b d' e', d.Level e → x d = .ok a d' → y e = .ok b e' → d'.Level e'

namespace Abreast

variable {α β γ δ : Type}

theorem pure (a : α) (b : β) : Abreast (Pure.pure a) (Pure.pure b) := by
  intro d e a' b' d' e' h hx hy
  cases hx
  cases hy
  exact h

theorem throw (e : Error) (y : EncodeM β) : Abreast (MonadExcept.throw e : EncodeM α) y := by
  intro d e' a b d' e'' _ hx
  cases hx

theorem bind {x : EncodeM α} {y : EncodeM β} {f : α → EncodeM γ} {g : β → EncodeM δ} (h : Abreast x y)
    (hf : ∀ a b, Abreast (f a) (g b)) : Abreast (x >>= f) (y >>= g) := by
  intro d e a b d' e' hlevel hx hy
  obtain ⟨a', d₁, hx, hfx⟩ := EStateM.bind_eq_ok.1 hx
  obtain ⟨b', e₁, hy, hgy⟩ := EStateM.bind_eq_ok.1 hy
  exact hf a' b' d₁ e₁ a b d' e' (h d e a' b' d₁ e₁ hlevel hx hy) hfx hgy

theorem lift {x : Except Error α} {y : Except Error β} {f : α → EncodeM γ} {g : β → EncodeM δ}
    (hf : ∀ a b, x = .ok a → y = .ok b → Abreast (f a) (g b)) :
    Abreast ((liftM x : EncodeM α) >>= f) ((liftM y : EncodeM β) >>= g) := by
  intro d e a b d' e' hlevel hx hy
  obtain ⟨a', d₁, hx, hfx⟩ := EStateM.bind_eq_ok.1 hx
  obtain ⟨b', e₁, hy, hgy⟩ := EStateM.bind_eq_ok.1 hy
  obtain ⟨hxa, rfl⟩ := liftExcept_eq_ok.1 hx
  obtain ⟨hyb, rfl⟩ := liftExcept_eq_ok.1 hy
  exact hf a' b' hxa hyb _ _ a b d' e' hlevel hfx hgy

theorem forM {xs : List α} {f g : α → EncodeM PUnit} (h : ∀ x ∈ xs, Abreast (f x) (g x)) :
    Abreast (xs.forM f) (xs.forM g) := by
  induction xs with
  | nil => exact pure _ _
  | cons x xs ih =>
    change Abreast (f x >>= fun _ => xs.forM f) (g x >>= fun _ => xs.forM g)
    exact (h x List.mem_cons_self).bind fun _ _ => ih fun y hy => h y (List.mem_cons_of_mem _ hy)

theorem note (hs xs : List Placeholder) : Abreast (Write.note hs) (Write.note xs) := by
  intro d e a b d' e' hlevel hx hy
  cases note_eq_ok.1 hx
  cases note_eq_ok.1 hy
  exact ⟨hlevel.length, hlevel.cursor⟩

theorem nodeInstr (i : Instr) : Abreast (Write.nodeInstr i) (Write.nodeInstr i) := by
  intro d e a b d' e' hlevel hx hy
  obtain ⟨-, rfl⟩ := nodeInstr_spec hx
  obtain ⟨-, rfl⟩ := nodeInstr_spec hy
  refine ⟨?_, hlevel.cursor⟩
  have hlength := hlevel.length
  simp only [Draft.length, Draft.append, List.length_append] at hlength ⊢
  omega

theorem fieldInstr {E : Type} (p : PropDef E) {i j : Instr} (hij : i.encode.length = j.encode.length) :
    Abreast (Write.fieldInstr p i) (Write.fieldInstr p j) := by
  intro d e a b d' e' hlevel hx hy
  have hactive : ∃ n, d.encoder.cursor.node? = some n := by
    unfold Write.fieldInstr at hx
    obtain ⟨n, d₁, hn, -⟩ := EStateM.bind_eq_ok.1 hx
    exact ⟨n, (activeNode_eq_ok.1 hn).1⟩
  obtain ⟨⟨type, node⟩, hd⟩ := hactive
  have he : e.encoder.cursor.node? = some (type, node) := by
    rw [← hlevel.cursor]
    exact hd
  obtain ⟨slot, hslot, -, -, rfl⟩ := (fieldInstr_eq_ok hd).1 hx
  obtain ⟨slot', hslot', -, -, rfl⟩ := (fieldInstr_eq_ok he).1 hy
  rw [hslot] at hslot'
  cases hslot'
  refine ⟨?_, rfl⟩
  have hlength := hlevel.length
  simp only [Draft.length, Draft.at, Draft.append, List.length_append, encodeAll_append, encodeAll_cons, encodeAll_nil,
    hlevel.cursor] at hlength ⊢
  simp only [hij, hlength]

/-- The same instruction without a reference. -/
theorem sameField {E : Type} (p : PropDef E) (i : Instr) :
    Abreast (Write.fieldInstr p i >>= fun _ => Pure.pure PUnit.unit) (Write.fieldInstr p i >>= fun _ => Pure.pure PUnit.unit) :=
  (Abreast.fieldInstr p rfl).bind fun _ _ => .pure _ _

end Abreast

/-! ### References inside a block -/

/-- The links of links store nothing. -/
theorem length_refEntry {c : Context} {p : PropDef Empty} {item : RefItem} {entry : RefEntry × Option PendingId}
    (h : refEntry c nothingOnLinks p item = .ok entry) : entry.1.encode.length = 5 := by
  obtain ⟨wire, block, -, -, -, hblock, rfl⟩ := refEntry_eq_ok.1 h
  have hnone : block = none := by
    unfold linkBlock at hblock
    split at hblock
    · cases hblock
      rfl
    · split at hblock
      · rename_i t _
        exact t.elim
      · split at hblock
        · cases hblock
          rfl
        · cases hblock
  rw [hnone]
  simp [RefEntry.encode]

theorem length_removedRef {c : Context} {p : PropDef Empty} {v : Value} {target : NodeRef} {entry : RefEntry}
    (h : removedRef c p v target = .ok entry) : entry.encode.length = 5 := by
  unfold removedRef at h
  obtain ⟨wire, -, h⟩ := Except.bind_eq_ok.1 h
  cases wire with
  | deferred p => cases h
  | _ => cases h; simp [RefEntry.encode]

theorem length_encodeItems {es : List RefEntry} (h : ∀ e ∈ es, e.encode.length = 5) :
    (Instr.encodeItems es).length = 4 + 5 * es.length := by
  have hitems : (es.flatMap RefEntry.encode).length = 5 * es.length := by
    induction es with
    | nil => rfl
    | cons e es ih =>
      have he := h e List.mem_cons_self
      have hes := ih fun x hx => h x (List.mem_cons_of_mem _ hx)
      simp only [List.flatMap_cons, List.length_append, List.length_cons]
      omega
  rw [Instr.encodeItems, List.length_append, length_leBytes, hitems]

section

variable {c c' : Context} {p : PropDef Empty}

theorem abreast_refInstr (many : Bool) {items items' : List RefItem} {es es' : List (RefEntry × Option PendingId)}
    {i j : Instr} (h : i.encode.length = j.encode.length) :
    Abreast (refInstr p many items es i) (refInstr p many items' es' j) :=
  (Abreast.fieldInstr p h).bind fun _ _ => .note _ _

theorem length_encodeItems_refs {items : List RefItem} {es : List (RefEntry × Option PendingId)}
    (h : items.mapM (refEntry c nothingOnLinks p) = .ok es) :
    (Instr.encodeItems (es.map (·.1))).length = 4 + 5 * items.length := by
  obtain ⟨hlen, hmem, -⟩ := mapM_eq_ok h
  rw [length_encodeItems, List.length_map, hlen]
  intro e he
  obtain ⟨entry, hentry, rfl⟩ := List.mem_map.1 he
  obtain ⟨item, -, hitem⟩ := hmem entry hentry
  exact length_refEntry hitem

theorem length_encodeItems_removed {v : Value} {targets : List NodeRef} {es : List RefEntry}
    (h : targets.mapM (removedRef c p v) = .ok es) : (Instr.encodeItems es).length = 4 + 5 * targets.length := by
  obtain ⟨hlen, hmem, -⟩ := mapM_eq_ok h
  rw [length_encodeItems, hlen]
  intro e he
  obtain ⟨target, -, htarget⟩ := hmem e he
  exact length_removedRef htarget

theorem abreast_writeRefs {make : List RefEntry → Instr} {op : UInt8}
    (hmake : ∀ es, (make es).encode = op :: Instr.encodeItems es) (items : List RefItem) :
    Abreast (writeRefs c nothingOnLinks p make items) (writeRefs c' nothingOnLinks p make items) := by
  refine Abreast.lift fun es es' hes hes' => abreast_refInstr true ?_
  rw [hmake, hmake, List.length_cons, List.length_cons, length_encodeItems_refs hes, length_encodeItems_refs hes']

theorem abreast_writeRemoved (v : Value) (targets : List NodeRef) :
    Abreast (writeRemoved c p v targets) (writeRemoved c' p v targets) := by
  unfold writeRemoved
  split
  · refine Abreast.lift fun es es' hes hes' => (Abreast.fieldInstr p ?_).bind fun _ _ => .pure _ _
    simp only [Instr.encode, List.length_cons, length_encodeItems_removed hes, length_encodeItems_removed hes']
  · exact .pure _ _

theorem abreast_writeText (create : Bool) (v : Value) (entry : String × String) :
    Abreast (writeText create p v entry) (writeText create p v entry) := by
  unfold writeText
  split
  · exact .throw _ _
  · split
    · exact .sameField p _
    · split
      · exact .sameField p _
      · exact .pure _ _

/-- The same value written to the same property takes the same number of bytes. -/
theorem abreast_writeSeparate (hlocale : c'.locale = c.locale) (create : Bool) (v : Value) :
    Abreast (writeSeparate c nothingOnLinks create p v) (writeSeparate c' nothingOnLinks create p v) := by
  unfold writeSeparate
  rw [hlocale]
  split
  · split
    · exact .sameField p _
    · exact .pure _ _
  · split
    · exact .throw _ _
    · exact .sameField p _
  · exact .forM fun entry _ => abreast_writeText create _ entry
  · refine Abreast.lift fun item item' hitem hitem' => ?_
    rw [hitem] at hitem'
    cases hitem'
    refine Abreast.lift fun entry entry' hentry hentry' => abreast_refInstr false ?_
    simp only [Instr.encode, List.length_cons, length_refEntry hentry, length_refEntry hentry']
  · refine Abreast.lift fun items items' hitems hitems' => ?_
    rw [hitems] at hitems'
    cases hitems'
    exact abreast_writeRefs (fun _ => rfl) items
  · rename_i replace add remove _
    refine .bind ?_ fun _ _ => .bind ?_ fun _ _ => abreast_writeRemoved _ remove
    · cases replace with
      | none => exact .pure _ _
      | some items => exact abreast_writeRefs (fun _ => rfl) items
    · unfold writeAdded
      split
      · exact .pure _ _
      · exact abreast_writeRefs (fun _ => rfl) add
  · split
    · exact .sameField p _
    · exact .throw _ _

/-- The same fields of a link take the same number of bytes. -/
theorem abreast_writeCreateWith {c c' : Context} (hlocale : c'.locale = c.locale) (t : Layout Empty) (fields : List (Field Empty)) :
    Abreast (writeCreateWith c nothingOnLinks t fields) (writeCreateWith c' nothingOnLinks t fields) := by
  unfold writeCreateWith
  have hseparate : Abreast
      ((fields.filter fun f => !f.prop.isMain).forM fun f => writeSeparate c nothingOnLinks true f.prop f.value)
      ((fields.filter fun f => !f.prop.isMain).forM fun f => writeSeparate c' nothingOnLinks true f.prop f.value) :=
    .forM fun f _ => abreast_writeSeparate hlocale true f.value
  split
  · refine Abreast.lift fun block block' hblock hblock' => ?_
    rw [hblock] at hblock'
    cases hblock'
    exact (Abreast.nodeInstr _).bind fun _ _ => hseparate
  · exact hseparate

end

/-! ### Blocks -/

section

variable {c c' : Context}

theorem encodeEdges_length (hlocale : c'.locale = c.locale) (hlenient : c'.lenient = c.lenient) {t : EdgeLayout}
    {edges : Record} {deferred deferred' : Bool} {bytes bytes' : Bytes} (h : encodeEdges c t edges deferred = .ok bytes)
    (h' : encodeEdges c' t edges deferred' = .ok bytes') : bytes'.length = bytes.length := by
  unfold encodeEdges at h h'
  obtain ⟨fields, hfields, h⟩ := Except.bind_eq_ok.1 h
  obtain ⟨fields', hfields', h'⟩ := Except.bind_eq_ok.1 h'
  rw [hlenient, hfields] at hfields'
  cases hfields'
  split at h
  · rename_i u d hd
    cases h
    split at h'
    · rename_i u' d' hd'
      cases h'
      have hlevel : Draft.Level ⟨.forLink, []⟩ ⟨.forLink, []⟩ := ⟨rfl, rfl⟩
      have habreast := @abreast_writeCreateWith { c with linkDeferred := some deferred }
        { c' with linkDeferred := some deferred' } hlocale t fields
      exact (habreast _ _ _ _ _ _ hlevel hd hd').length.symm
    · cases h'
  · cases h

/-- The block of a link is as long as any other block of the same link. -/
theorem linkBlock_length (hlocale : c'.locale = c.locale) (hlenient : c'.lenient = c.lenient) {p : PropDef EdgeLayout}
    {edges : Record} {deferred deferred' : Bool} {block block' : Option Bytes}
    (h : linkBlock c (encodeEdges c) p edges deferred = .ok block)
    (h' : linkBlock c' (encodeEdges c') p edges deferred' = .ok block') (target target' : RefId) :
    (⟨target', block'⟩ : RefEntry).encode.length = (⟨target, block⟩ : RefEntry).encode.length := by
  unfold linkBlock at h h'
  split at h
  · cases h
    cases h'
    simp [RefEntry.encode]
  · cases hedges : p.edges with
    | none =>
      rw [hedges] at h h'
      dsimp only at h h'
      rw [hlenient] at h'
      split at h
      · rename_i hl
        rw [if_pos hl] at h'
        cases h
        cases h'
        simp [RefEntry.encode]
      · cases h
    | some t =>
      rw [hedges] at h h'
      obtain ⟨bytes, hbytes, rfl⟩ := Except.map_eq_ok.1 h
      obtain ⟨bytes', hbytes', rfl⟩ := Except.map_eq_ok.1 h'
      have hlength := encodeEdges_length hlocale hlenient hbytes hbytes'
      simp [RefEntry.encode, Wire.sized, hlength]

end

end NodeStore.Write
