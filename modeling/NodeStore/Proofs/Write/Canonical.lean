import NodeStore.Codec.Payload
import NodeStore.Proofs.Codec.Canonical
import NodeStore.Proofs.Write.Items

/-!
# Canonical instructions

What the codec writes for valid values: every value that an instruction carries is one of the property that the instruction
goes to, in the form in which values of that property are written.

* `Instr.Canonical`: one instruction, given what is selected before it; `CanonicalAll`: some instructions.
* `CanonicalAll.of_bare`: references do not matter.
* `mainBlock_canonical`: the main block of a new node.
-/

namespace NodeStore.Write

/-- The layout of the selected type. -/
def Selection.layout? (schema : SchemaLayout) (s : Selection) : Option TypeLayout := s.type.bind schema.typeById?

theorem Selection.layout?_of_type {schema : SchemaLayout} {s : Selection} {type : TypeId} {t : TypeLayout}
    (hs : s.type = some type) (ht : schema.typeById? type = some t) : s.layout? schema = some t := by
  rw [layout?, hs, Option.bind_some, ht]

/-- The instruction carries values of the selected type, or of its selected field, as they are written. -/
def Instr.Canonical (schema : SchemaLayout) (s : Selection) : Instr → Prop
  | .mainBlock block => ∃ t, s.layout? schema = some t ∧ t.Canonical block
  | .mainField offset bytes => ∃ t p, s.layout? schema = some t ∧ p ∈ t.props ∧ p.offset? = some offset ∧ p.Canonical bytes
  | .count _ tag offset amount => ∃ t p, s.layout? schema = some t ∧ p ∈ t.props ∧ p.offset? = some offset ∧
      p.type.isNumeric = true ∧ tag = p.type.tag ∧ amount.length = p.len
  | .updateField payload => ∃ t p slot, s.layout? schema = some t ∧ s.slot = some slot ∧ p ∈ t.props ∧ p.slot? = some slot ∧
      (p.type = .string ∨ p.type = .alias → ∃ str, payload = Payload.plain (Utf8.encode str))
  | .removeRefs es => ∀ e ∈ es, e.edges = none
  | _ => True

/-- Each of some instructions is canonical where it stands. -/
def CanonicalAll (schema : SchemaLayout) : Selection → List Instr → Prop
  | _, [] => True
  | s, i :: is => i.Canonical schema s ∧ CanonicalAll schema (s.step i) is

variable {schema : SchemaLayout} {s : Selection} {is js : List Instr}

theorem canonicalAll_append :
    CanonicalAll schema s (is ++ js) ↔ CanonicalAll schema s is ∧ CanonicalAll schema (s.after is) js := by
  induction is generalizing s with
  | nil => simp [CanonicalAll]
  | cons i is ih =>
    rw [List.cons_append, CanonicalAll, CanonicalAll, Selection.after_cons, ih, and_assoc]

theorem canonicalAll_singleton {i : Instr} : CanonicalAll schema s [i] ↔ i.Canonical schema s := by
  simp [CanonicalAll]

/-- References do not matter. -/
theorem CanonicalAll.of_bare (h : CanonicalAll schema s is) (hbare : js.map Instr.bare = is.map Instr.bare) :
    CanonicalAll schema s js := by
  induction is generalizing s js with
  | nil =>
    rw [List.map_nil, List.map_eq_nil_iff] at hbare
    rw [hbare]
    trivial
  | cons i is ih =>
    cases js with
    | nil => cases hbare
    | cons j js =>
      obtain ⟨hfirst, hrest⟩ := List.cons.inj hbare
      have hone : j.Canonical schema s ∧ s.step j = s.step i := by
        have hi := h.1
        cases i <;> cases j <;> cases hfirst <;> exact ⟨hi, rfl⟩
      exact ⟨hone.1, hone.2 ▸ ih h.2 hrest⟩

/-! ### Main blocks -/

section

variable {E : Type} {t : Layout E} {f : Field E} {fields : List (Field E)} {block block' : Bytes}

/-- A valid value is put in its place. -/
theorem placeField_eq_ok {offset : Nat} (ha : f.prop.offset? = some offset) (h : placeField block f = .ok block') :
    offset + f.prop.len ≤ block.length ∧
      ∃ bytes, f.prop.encodeFixed f.prop.len f.value = .ok bytes ∧ block' = Bytes.overwrite offset bytes block := by
  unfold placeField at h
  simp only [ha] at h
  split at h
  · cases h
  · rename_i hin
    split at h
    · rename_i bytes hbytes
      cases h
      exact ⟨Nat.not_lt.1 hin, bytes, hbytes, rfl⟩
    · cases h

/-- The main block of a new node holds its values and the defaults of all other properties. -/
theorem mainBlock_canonical (ht : t.Placed) (hk : t.Packed)
    (hfields : ∀ f ∈ fields, f.prop ∈ t.props ∧ f.prop.validateBuiltin f.value = .ok ()) (h : mainBlock t fields = .ok block) :
    t.Canonical block := by
  have hstart : t.mainDefaults.length = t.mainLen ∧ t.Canonical t.mainDefaults := ⟨ht.defaults, hk.canonical ht⟩
  refine (foldlM_invariant (P := fun b => b.length = t.mainLen ∧ t.Canonical b) h hstart fun f hf b b' ⟨hlen, hb⟩ hstep => ?_).2
  obtain ⟨hf, hmain⟩ := List.mem_filter.1 hf
  obtain ⟨hp, hvalid⟩ := hfields f hf
  obtain ⟨hmain, hnull⟩ := Bool.and_eq_true_iff.1 hmain
  obtain ⟨a, ha⟩ := PropDef.offset?_of_isMain hmain
  obtain ⟨hin, bytes, hbytes, rfl⟩ := placeField_eq_ok ha hstep
  have hcanonical := PropDef.Canonical.of_valid (ht.measured _ hp) (hk.declared _ hp) hmain hvalid (by simpa using hnull) hbytes
  exact ⟨by rw [Bytes.length_overwrite (by rw [hcanonical.length]; exact hin), hlen],
    hk.canonical_overwrite ht hlen hb hp ha hcanonical⟩

/-- What an update puts in the place of a main property. -/
theorem change_canonical (ht : t.Placed) (hk : t.Packed) (hp : f.prop ∈ t.props) {offset : Nat}
    (ha : f.prop.offset? = some offset) (hvalid : f.prop.validateBuiltin f.value = .ok ()) {bytes : Bytes}
    (h : (if f.value.isNull then .ok ((t.mainDefaults.drop offset).take f.prop.len)
      else placeField ((t.mainDefaults.drop offset).take f.prop.len) f) = .ok bytes) : f.prop.Canonical bytes := by
  have hmain := PropDef.isMain_of_offset? ha
  have hdefault : f.prop.Canonical ((t.mainDefaults.drop offset).take f.prop.len) := by
    have hslice := hk.canonical ht f.prop hp hmain
    rwa [PropDef.slice, ha, Option.getD_some] at hslice
  cases hnull : f.value.isNull with
  | true =>
    rw [hnull, if_pos rfl] at h
    cases h
    exact hdefault
  | false =>
    rw [hnull, if_neg Bool.false_ne_true] at h
    obtain ⟨hin, encoded, hencoded, rfl⟩ := placeField_eq_ok ha h
    have hcanonical := PropDef.Canonical.of_valid (ht.measured _ hp) (hk.declared _ hp) hmain hvalid hnull hencoded
    -- The bytes to be changed are no longer than those that are put there.
    rw [hdefault.length] at hin
    obtain rfl : offset = 0 := by omega
    have hwhole : Bytes.overwrite 0 encoded ((t.mainDefaults.drop 0).take f.prop.len) = encoded := by
      simp [Bytes.overwrite, hcanonical.length]
    rwa [hwhole]

/-- The amount of a counter has the width of its property. -/
theorem length_of_amountBytes {p : PropDef E} (hm : p.Measured) {amount : Value} {bytes : Bytes}
    (h : amountBytes p amount = .ok bytes) : bytes.length = p.len := by
  unfold amountBytes at h
  split at h
  · rename_i hnumber
    split at h
    · cases h
      rw [Binary64.length_toBytes, (hm.fixed 8 (by rw [hnumber]; rfl)).2]
    · cases h
  · split at h
    · cases h
      exact length_intBytes ..
    · cases h

end

end NodeStore.Write
