import Mathlib.Algebra.GroupWithZero.Nat
import NodeStore.Codec.Fixed
import NodeStore.Proofs.Schema.Packing

/-!
# The places of the main properties

What is written at the place of a main property is what the property holds, and no other property sees it.

* `PropDef.slice`: the bytes of a main property in a block.
* `slice_overwrite_self`, `slice_overwrite_of_apart`, `Layout.Packed.disjoint`.
* `Layout.mainBytes`: the bytes that a value asks for.
-/

namespace NodeStore

theorem PropDef.offset?_of_slot? {E : Type} {p : PropDef E} {slot : UInt8} (h : p.slot? = some slot) : p.offset? = none := by
  cases hl : p.location <;> simp_all [offset?, slot?]

theorem PropDef.isMain_of_offset? {E : Type} {p : PropDef E} {a : Nat} (h : p.offset? = some a) : p.isMain = true := by
  cases hl : p.location <;> simp_all [offset?, isMain]

theorem PropDef.offset?_of_isMain {E : Type} {p : PropDef E} (h : p.isMain = true) : ∃ a, p.offset? = some a := by
  cases hl : p.location <;> simp_all [offset?, isMain]

theorem PropType.fixedWidth_of_numeric {type : PropType} (h : type.isNumeric = true) : ∃ w, type.fixedWidth = some w := by
  cases type <;> first | exact ⟨_, rfl⟩ | cases h

/-- A number has its place in the main block, of its own width. -/
theorem PropDef.Measured.number {E : Type} {p : PropDef E} (hm : p.Measured) (hn : p.type.isNumeric = true) :
    p.type.fixedWidth = some p.len ∧ ∃ a, p.offset? = some a := by
  obtain ⟨w, hw⟩ := PropType.fixedWidth_of_numeric hn
  obtain ⟨hmain, hlen⟩ := hm.fixed w hw
  exact ⟨hlen ▸ hw, PropDef.offset?_of_isMain hmain⟩

theorem PropDef.isMain_of_slot? {E : Type} {p : PropDef E} {slot : UInt8} (h : p.slot? = some slot) : p.isMain = false :=
  PropDef.isMain_eq_false_iff.2 ⟨slot, h⟩

theorem PropDef.slot?_of_isMain {E : Type} {p : PropDef E} (h : p.isMain = true) : p.slot? = none := by
  cases hl : p.location <;> simp_all [slot?, isMain]

theorem PropDef.slot?_of_offset? {E : Type} {p : PropDef E} (h : p.offset? = none) : ∃ slot, p.slot? = some slot := by
  cases hl : p.location <;> simp_all [offset?, slot?]

/-- The bytes of a main property in a block. -/
def PropDef.slice {E : Type} (p : PropDef E) (block : Bytes) : Bytes := (block.drop (p.offset?.getD 0)).take p.len

section

variable {E : Type} {p : PropDef E} {a : Nat} {bytes block : Bytes}

theorem PropDef.getElem?_slice (ha : p.offset? = some a) (k : Nat) :
    (p.slice block)[k]? = if k < p.len then block[a + k]? else none := by
  rw [slice, ha, Option.getD_some, List.getElem?_take, List.getElem?_drop]

theorem length_slice (ha : p.offset? = some a) (hin : a + p.len ≤ block.length) : (p.slice block).length = p.len := by
  rw [PropDef.slice, ha, Option.getD_some, List.length_take, List.length_drop]
  omega

/-- What is written at the place of a property is what the property holds. -/
theorem slice_overwrite_self (ha : p.offset? = some a) (hlen : bytes.length = p.len) (hin : a + p.len ≤ block.length) :
    p.slice (Bytes.overwrite a bytes block) = bytes := by
  refine List.ext_getElem? fun k => ?_
  rw [PropDef.getElem?_slice ha, Bytes.getElem?_overwrite (by omega)]
  split
  · rw [if_neg (by omega), if_pos (by omega), Nat.add_sub_cancel_left]
  · exact (List.getElem?_eq_none (by omega)).symm

/-- What is written elsewhere does not matter. -/
theorem slice_overwrite_of_apart (ha : p.offset? = some a) {b : Nat} (hin : b + bytes.length ≤ block.length)
    (h : b + bytes.length ≤ a ∨ a + p.len ≤ b) : p.slice (Bytes.overwrite b bytes block) = p.slice block := by
  refine List.ext_getElem? fun k => ?_
  rw [PropDef.getElem?_slice ha, PropDef.getElem?_slice ha, Bytes.getElem?_overwrite hin]
  split
  · split
    · rfl
    · rw [if_neg (by omega)]
  · rfl

end

/-- The places of two main properties do not overlap. -/
theorem Layout.Packed.disjoint {E : Type} {t : Layout E} (h : t.Packed) {i j : Nat} {p q : PropDef E}
    (hp : t.props[i]? = some p) (hq : t.props[j]? = some q) (hij : i ≠ j) {a b : Nat} (ha : p.offset? = some a)
    (hb : q.offset? = some b) : b + q.len ≤ a ∨ a + p.len ≤ b := by
  obtain ⟨hi, rfl⟩ := List.getElem?_eq_some_iff.1 hp
  obtain ⟨hj, rfl⟩ := List.getElem?_eq_some_iff.1 hq
  have hapart := List.pairwise_iff_getElem.1 h.apart
  rcases Nat.lt_or_gt_of_ne hij with hlt | hlt
  · exact .inr (hapart i j hi hj hlt a b ha hb)
  · exact .inl (hapart j i hj hi hlt b a hb ha)

/-- The main properties together are no longer than the block. -/
theorem Layout.Packed.sum_len_le {E : Type} {t : Layout E} (hk : t.Packed) (ht : t.Placed) {ps : List (PropDef E)}
    (hsub : ps.Sublist t.props) (hmain : ∀ p ∈ ps, p.isMain = true) : (ps.map (·.len)).sum ≤ t.mainLen := by
  have hinside := fun p hp => ht.inside p (hsub.subset hp)
  have hapart := hk.apart.sublist hsub
  clear hsub
  -- The properties from some place on have the room behind that place.
  suffices hgo : ∀ start ≤ t.mainLen, (∀ p ∈ ps, ∀ a, p.offset? = some a → start ≤ a) →
      start + (ps.map (·.len)).sum ≤ t.mainLen by
    simpa using hgo 0 (Nat.zero_le _) fun _ _ _ _ => Nat.zero_le _
  induction ps with
  | nil => exact fun _ hstart _ => hstart
  | cons p ps ih =>
    intro start _ hfrom
    obtain ⟨hp, hps⟩ := List.pairwise_cons.1 hapart
    obtain ⟨a, ha⟩ := PropDef.offset?_of_isMain (hmain p List.mem_cons_self)
    have hin := hinside p List.mem_cons_self a ha
    have hstart := hfrom p List.mem_cons_self a ha
    have hrest := ih (fun q hq => hmain q (List.mem_cons_of_mem _ hq)) (fun q hq => hinside q (List.mem_cons_of_mem _ hq)) hps
      (a + p.len) hin fun q hq b hb => hp q hq a b ha hb
    rw [List.map_cons, List.sum_cons]
    omega

/-- A main property takes a byte at least. -/
theorem PropDef.Measured.len_pos {E : Type} {p : PropDef E} (hm : p.Measured) (hmain : p.isMain = true) : 0 < p.len := by
  cases hw : p.type.fixedWidth with
  | none => exact (hm.short hmain hw).2
  | some w =>
    rw [(hm.fixed w hw).2]
    cases ht : p.type <;> rw [ht] at hw <;> cases hw <;> decide

/-- The bytes that a value asks for; a null asks for those of a fresh block. -/
def Layout.mainBytes {E : Type} (t : Layout E) (p : PropDef E) (v : Value) : Bytes :=
  if v.isNull then p.slice t.mainDefaults else (p.encodeFixed p.len v).toOption.getD []

end NodeStore
