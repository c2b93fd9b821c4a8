import NodeStore.Proofs.Codec.MainBlock
import NodeStore.Proofs.Write.Addressing
import NodeStore.Proofs.Write.Effects

/-!
# What the fields of a record make of a node

The last value that is written to a property is the one that its bytes of the main block stand for, and no write touches
the bytes of another property.

* `Field.change`: what writing a field changes.
* `slice_all`, `field_all`: what the fields of a record come to for one property.
* `Holds`: a node holds what was written to a property; `writeCreate_holds` and `writeUpdate_holds` keep it up.
-/

namespace NodeStore

namespace Write

open Engine

/-! ### Fields -/

/-- What writing a field changes. -/
def Field.change (t : TypeLayout) (locale : UInt8) (create : Bool) (f : Field EdgeLayout) : Change :=
  match f.prop.offset? with
  | some offset => .ofMain (Bytes.overwrite offset (t.mainBytes f.prop f.value))
  | none => .ofField (slotOf f.prop) (f.prop.assign locale create f.value)

/-- A valid value for a property of the layout that is no reference. -/
structure Field.Suits (t : TypeLayout) (f : Field EdgeLayout) : Prop where
  prop : t.props[f.index]? = some f.prop
  plain : f.prop.type.isReference = false
  valid : f.prop.validateBuiltin f.value = .ok ()

theorem Field.Suits.mem {t : TypeLayout} {f : Field EdgeLayout} (h : f.Suits t) : f.prop ∈ t.props :=
  List.mem_of_getElem? h.prop

namespace Creation

variable {g : Creation} {c : Context} {edgesOf : EdgeEncoder EdgeLayout}

/-- A changed field is written. -/
theorem acts_writeChange (ht : g.type.Placed) (hk : g.type.Packed) {f : Field EdgeLayout} (hf : f.Suits g.type) :
    g.Acts (writeChange c edgesOf g.type f) (f.change g.type c.locale false) := by
  have hm := ht.measured _ hf.mem
  unfold writeChange Field.change
  split
  · rename_i hoffset
    rw [hoffset]
    obtain ⟨slot, hslot⟩ := PropDef.slot?_of_offset? hoffset
    rw [slotOf, hslot]
    exact acts_writeSeparate ht (hk.declared _ hf.mem) hf.mem hslot hf.plain false hf.valid
  · rename_i offset hoffset
    rw [hoffset]
    refine .lift fun bytes hbytes => ?_
    have hin := ht.inside _ hf.mem offset hoffset
    have hdefault : ((g.type.mainDefaults.drop offset).take f.prop.len).length = f.prop.len := by
      rw [List.length_take, List.length_drop, ht.defaults]
      omega
    obtain ⟨hlen, heq⟩ : bytes.length = f.prop.len ∧ bytes = g.type.mainBytes f.prop f.value := by
      unfold Layout.mainBytes
      split at hbytes
      · rename_i hnull
        cases hbytes
        rw [if_pos hnull, PropDef.slice, hoffset]
        exact ⟨hdefault, rfl⟩
      · rename_i hnull
        rw [if_neg hnull]
        unfold placeField at hbytes
        simp only [hoffset, hdefault] at hbytes
        split at hbytes
        · cases hbytes
        · -- Only a field at the very front passes the test of its place.
          rename_i hfront
          obtain rfl : offset = 0 := by omega
          split at hbytes
          · rename_i encoded hencoded
            cases hbytes
            have hwidth := Schema.length_encodeFixed hm hencoded
            have hrest : ((g.type.mainDefaults.drop 0).take f.prop.len).drop (0 + encoded.length) = [] :=
              List.drop_eq_nil_of_le (by omega)
            have hover : Bytes.overwrite 0 encoded ((g.type.mainDefaults.drop 0).take f.prop.len) = encoded := by
              rw [Bytes.overwrite, hrest, List.take_zero, List.nil_append, List.append_nil]
            rw [hover, hencoded]
            exact ⟨hwidth, rfl⟩
          · cases hbytes
    rw [heq] at hlen ⊢
    exact acts_nodeInstr (does_mainField ht (by omega))

/-- The fields of an update are written. -/
theorem acts_writeUpdate (ht : g.type.Placed) (hk : g.type.Packed) {fields : List (Field EdgeLayout)}
    (hf : ∀ f ∈ fields, f.Suits g.type) :
    g.Acts (writeUpdateWith c edgesOf g.type fields) (.all (·.change g.type c.locale false) fields) :=
  .forM fun f hmem => acts_writeChange ht hk (hf f hmem)

/-- The separate fields of a new node are written. -/
theorem acts_separateFields (ht : g.type.Placed) (hk : g.type.Packed) {fields : List (Field EdgeLayout)}
    (hf : ∀ f ∈ fields, f.Suits g.type) (hsep : ∀ f ∈ fields, f.prop.isMain = false) :
    g.Acts (fields.forM fun f => writeSeparate c edgesOf true f.prop f.value)
      (.all (·.change g.type c.locale true) fields) := by
  refine .forM fun f hmem => ?_
  obtain ⟨slot, hslot⟩ := PropDef.isMain_eq_false_iff.1 (hsep f hmem)
  have hsuits := hf f hmem
  rw [Field.change, PropDef.offset?_of_slot? hslot, slotOf, hslot]
  exact acts_writeSeparate ht (hk.declared _ hsuits.mem) hsuits.mem hslot hsuits.plain true hsuits.valid

end Creation

/-! ### One property -/

section

variable {t : TypeLayout} (locale : UInt8) (create : Bool) {i : Nat} {p : PropDef EdgeLayout}

/-- Properties at different indexes are different. -/
theorem index_unique (ha : t.Addressed) {j : Nat} (hi : t.props[i]? = some p) (hj : t.props[j]? = some p) : i = j :=
  Option.some.inj ((ha.leaf i p hi).symm.trans (ha.leaf j p hj))

theorem valuesOf_cons (i : Nat) (f : Field EdgeLayout) (fs : List (Field EdgeLayout)) :
    valuesOf i (f :: fs) = if f.index = i then f.value :: valuesOf i fs else valuesOf i fs := by
  unfold valuesOf
  rw [List.filter_cons]
  split <;> simp_all

/-- What a separate field holds after all fields of a record. -/
theorem field_all (ht : t.Placed) (ha : t.Addressed) (hp : t.props[i]? = some p) {slot : UInt8}
    (hslot : p.slot? = some slot) {fields : List (Field EdgeLayout)} (hf : ∀ f ∈ fields, f.Suits t)
    (x : Option (Content EdgeNode)) :
    (Change.all (·.change t locale create) fields).field slot x =
      (valuesOf i fields).foldl (fun x v => p.assign locale create v x) x := by
  induction fields generalizing x with
  | nil => rfl
  | cons f fs ih =>
    have hsuits := hf f List.mem_cons_self
    have hoffset := PropDef.offset?_of_slot? hslot
    change (Change.all (·.change t locale create) fs).field slot ((f.change t locale create).field slot x) = _
    rw [ih fun f' hf' => hf f' (List.mem_cons_of_mem _ hf'), valuesOf_cons]
    split
    · rename_i hi
      obtain rfl : f.prop = p := Option.some.inj (hsuits.prop.symm.trans (hi ▸ hp))
      simp [Field.change, hoffset, Change.ofField, slotOf, hslot]
    · rename_i hi
      have hother : (f.change t locale create).field slot x = x := by
        unfold Field.change
        split
        · rfl
        · rename_i hnone
          obtain ⟨slot', hslot'⟩ := PropDef.slot?_of_offset? hnone
          have hne : slot ≠ slot' := fun he => hi (index_unique ha hsuits.prop
            (ht.slot_unique hsuits.mem (List.mem_of_getElem? hp) hslot' (he ▸ hslot) ▸ hp))
          simp [Change.ofField, slotOf, hslot', hne]
      rw [hother]

theorem length_mainBytes (ht : t.Placed) (hk : t.Packed) {f : Field EdgeLayout} (hf : f.Suits t) {a : Nat}
    (ha : f.prop.offset? = some a) : (t.mainBytes f.prop f.value).length = f.prop.len := by
  have hmain := PropDef.isMain_of_offset? ha
  have hin := ht.inside _ hf.mem a ha
  unfold Layout.mainBytes
  split
  · rw [PropDef.slice, ha, Option.getD_some, List.length_take, List.length_drop, ht.defaults]
    omega
  · rename_i hnull
    have hm := ht.measured _ hf.mem
    obtain ⟨bs, hbs⟩ := encodeFixed_of_valid hm (hk.declared _ hf.mem) hmain (by simpa using hnull) hf.valid
    rw [hbs]
    exact Schema.length_encodeFixed hm hbs

/-- What the bytes of a main property are after all fields of a record. -/
theorem slice_all (ht : t.Placed) (hk : t.Packed) (hp : t.props[i]? = some p) {a : Nat} (ha : p.offset? = some a)
    {fields : List (Field EdgeLayout)} (hf : ∀ f ∈ fields, f.Suits t) {block : Bytes} (hlen : block.length = t.mainLen) :
    p.slice ((Change.all (·.change t locale create) fields).main block) =
      (valuesOf i fields).foldl (fun _ v => t.mainBytes p v) (p.slice block) := by
  induction fields generalizing block with
  | nil => rfl
  | cons f fs ih =>
    have hsuits := hf f List.mem_cons_self
    have hrest := fun f' hf' => hf f' (List.mem_cons_of_mem _ hf')
    change p.slice ((Change.all (·.change t locale create) fs).main ((f.change t locale create).main block)) = _
    rw [valuesOf_cons]
    cases hoffset : f.prop.offset? with
    | none =>
      have hsame : (f.change t locale create).main block = block := by simp [Field.change, hoffset, Change.ofField]
      have hi : f.index ≠ i := fun hi => by
        obtain rfl : f.prop = p := Option.some.inj (hsuits.prop.symm.trans (hi ▸ hp))
        simp [ha] at hoffset
      rw [hsame, if_neg hi, ih hrest hlen]
    | some b =>
      have hbytes := length_mainBytes ht hk hsuits hoffset
      have hin := ht.inside _ hsuits.mem b hoffset
      have hover : (f.change t locale create).main block = Bytes.overwrite b (t.mainBytes f.prop f.value) block := by
        simp [Field.change, hoffset, Change.ofMain]
      rw [hover, ih hrest (by rw [Bytes.length_overwrite (by omega), hlen])]
      split
      · rename_i hi
        obtain rfl : f.prop = p := Option.some.inj (hsuits.prop.symm.trans (hi ▸ hp))
        rw [slice_overwrite_self hoffset hbytes (by omega), List.foldl_cons]
      · rename_i hi
        have hapart := hk.disjoint hp hsuits.prop (Ne.symm hi) ha hoffset
        rw [slice_overwrite_of_apart ha (by omega) (by omega)]

/-- Fields that the property does not have do not matter. -/
theorem valuesOf_filter {fields : List (Field EdgeLayout)} {keep : Field EdgeLayout → Bool} {keep' : Value → Bool}
    (h : ∀ f ∈ fields, f.index = i → keep f = keep' f.value) :
    valuesOf i (fields.filter keep) = (valuesOf i fields).filter keep' := by
  induction fields with
  | nil => rfl
  | cons f fs ih =>
    have hrest := ih fun f' hf' => h f' (List.mem_cons_of_mem _ hf')
    rw [List.filter_cons]
    by_cases hi : f.index = i
    · cases hkeep : keep f <;> simp [valuesOf_cons, hi, hrest, ← h f List.mem_cons_self hi, hkeep]
    · cases hkeep : keep f <;> simp [valuesOf_cons, hi, hrest]

/-- The main block of a new node is made by the changes of the fields. -/
theorem foldlM_placeField {fields : List (Field EdgeLayout)} (hfields : ∀ f ∈ fields, f.prop.isMain ∧ f.value.isNull = false)
    {block block' : Bytes} (h : fields.foldlM placeField block = .ok block') :
    block' = (Change.all (·.change t locale create) fields).main block := by
  induction fields generalizing block with
  | nil =>
    cases h
    rfl
  | cons f fs ih =>
    obtain ⟨hmain, hnull⟩ := hfields f List.mem_cons_self
    obtain ⟨a, ha⟩ := PropDef.offset?_of_isMain hmain
    rw [List.foldlM_cons] at h
    obtain ⟨next, hnext, hrest⟩ := Except.bind_eq_ok.1 h
    rw [ih (fun f' hf' => hfields f' (List.mem_cons_of_mem _ hf')) hrest]
    change _ = (Change.all (·.change t locale create) fs).main ((f.change t locale create).main block)
    congr 1
    unfold placeField at hnext
    simp only [ha] at hnext
    split at hnext
    · cases hnext
    · split at hnext
      · rename_i bytes hbytes
        cases hnext
        simp [Field.change, ha, Change.ofMain, Layout.mainBytes, hnull, hbytes, Except.toOption]
      · cases hnext

theorem length_main_all (ht : t.Placed) (hk : t.Packed) {fields : List (Field EdgeLayout)} (hf : ∀ f ∈ fields, f.Suits t)
    {block : Bytes} (hlen : block.length = t.mainLen) :
    ((Change.all (·.change t locale create) fields).main block).length = t.mainLen := by
  induction fields generalizing block with
  | nil => exact hlen
  | cons f fs ih =>
    have hsuits := hf f List.mem_cons_self
    refine ih (fun f' hf' => hf f' (List.mem_cons_of_mem _ hf')) ?_
    cases hoffset : f.prop.offset? with
    | none => simpa [Field.change, hoffset, Change.ofField] using hlen
    | some b =>
      have hbytes := length_mainBytes ht hk hsuits hoffset
      have hin := ht.inside _ hsuits.mem b hoffset
      simp only [Field.change, hoffset, Change.ofMain]
      rw [Bytes.length_overwrite (by omega), hlen]

end

/-! ### Records -/

/-- A value that some fields have for a property is valid. -/
theorem validateBuiltin_of_mem_valuesOf {t : TypeLayout} {i : Nat} {p : PropDef EdgeLayout} (hp : t.props[i]? = some p)
    {fields : List (Field EdgeLayout)} (hf : ∀ f ∈ fields, f.Suits t) : ∀ v ∈ valuesOf i fields, p.validateBuiltin v = .ok () := by
  intro v hv
  obtain ⟨f, hmem, rfl⟩ := List.mem_map.1 hv
  obtain ⟨hmem, hi⟩ := List.mem_filter.1 hmem
  have hi : f.index = i := by simpa using hi
  obtain rfl : f.prop = p := Option.some.inj ((hf f hmem).prop.symm.trans (hi ▸ hp))
  exact (hf f hmem).valid

/-- The node holds what was written to a property: first with its creation, then with updates. -/
structure Holds (t : TypeLayout) (locale : UInt8) (n : StoredNode) (p : PropDef EdgeLayout) (created updated : List Value) :
    Prop where
  once : created.length ≤ 1
  valid : ∀ v ∈ created ++ updated, p.validateBuiltin v = .ok ()
  main : ∀ a, p.offset? = some a →
    p.slice n.main = (created ++ updated).foldl (fun _ v => t.mainBytes p v) (p.slice t.mainDefaults)
  separate : ∀ slot, p.slot? = some slot →
    n.field? slot = updated.foldl (fun x v => p.assign locale false v x)
      (created.foldl (fun x v => p.assign locale true v x) none)

namespace Creation

variable {g : Creation} {c : Context} {d d' : Draft} {fields : List (Field EdgeLayout)}

/-- The fields with a value for the main block of a new node. -/
def mainFields (fields : List (Field EdgeLayout)) : List (Field EdgeLayout) :=
  fields.filter fun f => f.prop.isMain && !f.value.isNull

def separateFields (fields : List (Field EdgeLayout)) : List (Field EdgeLayout) := fields.filter fun f => !f.prop.isMain

theorem suits_mainFields {t : TypeLayout} (hf : ∀ f ∈ fields, f.Suits t) : ∀ f ∈ mainFields fields, f.Suits t :=
  fun f hmem => hf f (List.mem_of_mem_filter hmem)

theorem suits_separateFields {t : TypeLayout} (hf : ∀ f ∈ fields, f.Suits t) : ∀ f ∈ separateFields fields, f.Suits t :=
  fun f hmem => hf f (List.mem_of_mem_filter hmem)

theorem main_all_separateFields (t : TypeLayout) (locale : UInt8) (create : Bool) {fields : List (Field EdgeLayout)}
    (hsep : ∀ f ∈ fields, f.prop.isMain = false) (block : Bytes) :
    (Change.all (·.change t locale create) fields).main block = block := by
  induction fields generalizing block with
  | nil => rfl
  | cons f fs ih =>
    obtain ⟨slot, hslot⟩ := PropDef.isMain_eq_false_iff.1 (hsep f List.mem_cons_self)
    refine (ih (fun f' hf' => hsep f' (List.mem_cons_of_mem _ hf')) _).trans ?_
    simp [Field.change, PropDef.offset?_of_slot? hslot, Change.ofField]

/-- The fields of a new node are written. -/
theorem acts_writeCreate (ht : g.type.Placed) (hk : g.type.Packed) (hf : ∀ f ∈ fields, f.Suits g.type) :
    g.Acts (writeCreate c g.type fields)
      ⟨fun _ => (Change.all (·.change g.type c.locale true) (mainFields fields)).main g.type.mainDefaults,
        (Change.all (·.change g.type c.locale true) (separateFields fields)).field⟩ := by
  have hmain : ∀ f ∈ mainFields fields, f.prop.isMain ∧ f.value.isNull = false := fun f hmem => by
    simpa using (List.mem_filter.1 hmem).2
  have hsep : ∀ f ∈ separateFields fields, f.prop.isMain = false := fun f hmem => by simpa using (List.mem_filter.1 hmem).2
  have hlen := length_main_all c.locale true ht hk (suits_mainFields hf) ht.defaults
  have hfields : g.Acts ((separateFields fields).forM fun f => writeSeparate c (encodeEdges c) true f.prop f.value)
      (.all (·.change g.type c.locale true) (separateFields fields)) :=
    acts_separateFields ht hk (suits_separateFields hf) hsep
  unfold writeCreate writeCreateWith
  split
  · refine .lift fun block hblock => ?_
    have hblock := foldlM_placeField c.locale true (t := g.type) hmain hblock
    refine ((acts_nodeInstr (does_mainBlock (hblock ▸ hlen))).bind hfields).congr (Change.ext (funext fun _ => ?_) rfl)
    exact (main_all_separateFields g.type c.locale true hsep block).trans hblock
  · -- A type without main properties has no main block to write.
    rename_i hnone
    intro d d' hd h
    obtain ⟨hd', hle, hnoted, hlead⟩ := hfields d d' hd h
    refine ⟨hd', hle, hnoted, fun n hm hsize => ?_⟩
    obtain ⟨n', hm', hleads⟩ := hlead n hm hsize
    refine ⟨n', hm', ?_, hleads.field⟩
    rw [List.eq_nil_of_length_eq_zero (hm'.fits.main.trans (by omega))]
    exact (List.eq_nil_of_length_eq_zero (hlen.trans (by omega))).symm

/-- A new node holds what is written with its creation. -/
theorem writeCreate_holds (ht : g.type.Placed) (hk : g.type.Packed) (ha : g.type.Addressed) (hf : ∀ f ∈ fields, f.Suits g.type)
    (hd : g.Selected d) (h : writeCreate c g.type fields d = .ok () d') :
    g.Selected d' ∧ d.length ≤ d'.length ∧ d'.placeholders = d.placeholders ∧
      (g.Mirrors d (.fresh g.type) → d'.length < 2 ^ 32 → ∃ n', g.Mirrors d' n' ∧
        ∀ i p, g.type.props[i]? = some p → (valuesOf i fields).length ≤ 1 →
          Holds g.type c.locale n' p (valuesOf i fields) []) := by
  obtain ⟨hd', hle, hnoted, hlead⟩ := acts_writeCreate (c := c) ht hk hf d d' hd h
  refine ⟨hd', hle, hnoted, fun hm hsize => ?_⟩
  obtain ⟨n', hm', hleads⟩ := hlead _ hm hsize
  refine ⟨n', hm', fun i p hp hone => ⟨hone, ?_, fun a hoffset => ?_, fun slot hslot => ?_⟩⟩
  · rw [List.append_nil]
    exact validateBuiltin_of_mem_valuesOf hp hf
  · have hvalues : valuesOf i (mainFields fields) = (valuesOf i fields).filter (!·.isNull) := by
      refine valuesOf_filter fun f hmem hi => ?_
      obtain rfl : f.prop = p := Option.some.inj ((hf f hmem).prop.symm.trans (hi ▸ hp))
      simp [PropDef.isMain_of_offset? hoffset]
    have hslice := slice_all c.locale true ht hk hp hoffset (suits_mainFields hf) ht.defaults
    refine (congrArg p.slice hleads.main).trans (hslice.trans ?_)
    rw [hvalues, List.append_nil]
    match hlist : valuesOf i fields, hone with
    | [], _ => rfl
    | [v], _ => cases hnull : v.isNull <;> simp [hnull, Layout.mainBytes]
  · have hvalues : valuesOf i (separateFields fields) = valuesOf i fields := by
      have hkeep : ∀ f ∈ fields, f.index = i → (!f.prop.isMain) = (fun _ => true) f.value := fun f hmem hi => by
        obtain rfl : f.prop = p := Option.some.inj ((hf f hmem).prop.symm.trans (hi ▸ hp))
        simp [PropDef.isMain_of_slot? hslot]
      exact (valuesOf_filter hkeep).trans (List.filter_true _)
    have hfield := field_all c.locale true ht ha hp hslot (suits_separateFields hf) none
    rw [hvalues] at hfield
    exact (hleads.field slot).trans hfield

/-- An update goes on with what the node holds. -/
theorem writeUpdate_holds (ht : g.type.Placed) (hk : g.type.Packed) (ha : g.type.Addressed) (hf : ∀ f ∈ fields, f.Suits g.type)
    (hd : g.Selected d) (h : writeUpdate c g.type fields d = .ok () d') :
    g.Selected d' ∧ d.length ≤ d'.length ∧ d'.placeholders = d.placeholders ∧
      ∀ n, g.Mirrors d n → d'.length < 2 ^ 32 → ∃ n', g.Mirrors d' n' ∧
        ∀ i p, g.type.props[i]? = some p → ∀ created updated, Holds g.type c.locale n p created updated →
          Holds g.type c.locale n' p created (updated ++ valuesOf i fields) := by
  have hacts : g.Acts (writeUpdate c g.type fields) _ := acts_writeUpdate ht hk hf
  obtain ⟨hd', hle, hnoted, hlead⟩ := hacts d d' hd h
  refine ⟨hd', hle, hnoted, fun n hm hsize => ?_⟩
  obtain ⟨n', hm', hleads⟩ := hlead n hm hsize
  refine ⟨n', hm', fun i p hp created updated hn => ⟨hn.once, ?_, fun a hoffset => ?_, fun slot hslot => ?_⟩⟩
  · rw [← List.append_assoc]
    intro v hv
    exact (List.mem_append.1 hv).elim (hn.valid v) (validateBuiltin_of_mem_valuesOf hp hf v)
  · rw [hleads.main, slice_all c.locale false ht hk hp hoffset hf hm.fits.main, hn.main a hoffset]
    simp only [List.foldl_append]
  · rw [hleads.field, field_all c.locale false ht ha hp hslot hf, hn.separate slot hslot, List.foldl_append]

end Creation

end Write

end NodeStore
