import NodeStore.Proofs.Codec.CompiledValues
import NodeStore.Proofs.Codec.MainBlock

/-!
# Canonical bytes

A value can be read from more than one byte string: a short string does not mind what its padding is. The codec writes one
of them, and in bytes of that form two fields agree exactly if their values do.

* `PropDef.Canonical`: the bytes are those in which the value that they hold is written.
* `Canonical.of_numeric`, `Canonical.of_valid`, `Canonical.of_zeros`: the bytes that come up in writing.
* `Canonical.eq_of_decodeFixed`: equal values have equal bytes.
* `Layout.Canonical`: a block of canonical bytes; `Layout.Packed.canonical_overwrite`: it stays one.
-/

namespace NodeStore

open Engine (readInt)

variable {E : Type} {p : PropDef E} {bs cs : Bytes}

/-- What is written as no value is read as null; anything else that is read is written as these bytes. -/
def PropDef.Canonical (p : PropDef E) (bs : Bytes) : Prop :=
  ∃ v, p.decodeFixed bs = .ok v ∧ (v = .null ∨ p.encodeFixed p.len v = .ok bs)

theorem length_of_decodeFixed {v : Value} (h : p.decodeFixed bs = .ok v) : bs.length = p.len := by
  unfold PropDef.decodeFixed at h
  split at h
  · cases h
  · rename_i hlen
    exact not_not.1 hlen

/-- Only a label can be missing in the main block, and then its number is zero. -/
theorem eq_zeros_of_decodeFixed_null (h : p.decodeFixed bs = .ok .null) : bs = List.replicate p.len 0 := by
  have hlen := length_of_decodeFixed h
  unfold PropDef.decodeFixed at h
  rw [if_neg (not_not_intro hlen)] at h
  cases ht : p.type <;> simp only [ht] at h
  case enum =>
    split at h
    · rename_i hzero
      exact leNat_inj (by rw [hlen, List.length_replicate]) (by rw [hzero, leNat_zeros])
    · split at h <;> cases h
  case boolean => split at h <;> [cases h; split at h <;> cases h]
  case string =>
    obtain ⟨content, -, h⟩ := Except.bind_eq_ok.1 h
    split at h <;> cases h
  case binary =>
    obtain ⟨content, -, h⟩ := Except.bind_eq_ok.1 h
    cases h
  all_goals cases h

namespace PropDef.Canonical

theorem length (h : p.Canonical bs) : bs.length = p.len := by
  obtain ⟨v, hv, -⟩ := h
  exact length_of_decodeFixed hv

/-- Equal values have equal bytes. -/
theorem eq_of_decodeFixed (hb : p.Canonical bs) (hc : p.Canonical cs) {v : Value} (hbv : p.decodeFixed bs = .ok v)
    (hcv : p.decodeFixed cs = .ok v) : bs = cs := by
  obtain ⟨w, hw, hb⟩ := hb
  cases hw.symm.trans hbv
  obtain ⟨w, hw, hc⟩ := hc
  cases hw.symm.trans hcv
  rcases hb with rfl | hb
  · exact (eq_zeros_of_decodeFixed_null hbv).trans (eq_zeros_of_decodeFixed_null hcv).symm
  · rcases hc with rfl | hc
    · exact (eq_zeros_of_decodeFixed_null hbv).trans (eq_zeros_of_decodeFixed_null hcv).symm
    · exact Except.ok.inj (hb.symm.trans hc)

/-- Each number has bytes of one form only. -/
theorem of_numeric (hm : p.Measured) (hnumeric : p.type.isNumeric = true) (hlen : bs.length = p.len) : p.Canonical bs := by
  by_cases hint : p.type.isInteger = true
  · obtain ⟨w, -, -, hw, -⟩ := Engine.range_of_isInteger hint
    have hw' : p.type.fixedWidth = some p.len := by rw [(hm.fixed w hw).2, hw]
    have hread := decodeFixed_integer hint hw' hlen
    obtain ⟨again, hwritten, hagain⟩ := encodeFixed_decodeFixed_integer hint hm hlen hread
    have hlen' := length_of_decodeFixed hagain
    have hsame : Int64.ofInt (readInt p.type.isSigned again) = Int64.ofInt (readInt p.type.isSigned bs) := by
      rw [decodeFixed_integer hint hw' hlen'] at hagain
      exact Value.int.inj (Except.ok.inj hagain)
    have hread' : readInt p.type.isSigned again = readInt p.type.isSigned bs := by
      have := congrArg Int64.toInt hsame
      rwa [Engine.toInt_readInt hint hw' hlen', Engine.toInt_readInt hint hw' hlen] at this
    have hwidth := PropType.fixedWidth_le hw'
    cases Engine.readInt_inj (hlen'.trans hlen.symm) (hlen ▸ hwidth) hread'
    exact ⟨_, hread, .inr hwritten⟩
  · have hnumber : p.type = .number := by simpa [PropType.isNumeric, hint] using hnumeric
    have hlen8 : bs.length = 8 := hlen.trans (hm.fixed 8 (by rw [hnumber]; rfl)).2
    have hback : (Binary64.ofBytes bs).toBytes = bs := by
      have hlt := leNat_lt bs
      rw [hlen8] at hlt
      have hbits : (UInt64.ofNat (leNat bs)).toNat = leNat bs := UInt64.toNat_ofNat_of_lt hlt
      rw [Binary64.toBytes, Binary64.ofBytes, hbits, ← hlen8, leBytes_leNat]
    refine ⟨.float (.ofBytes bs), ?_, .inr ?_⟩
    · unfold PropDef.decodeFixed
      rw [if_neg (not_not_intro hlen), hnumber]
    · unfold PropDef.encodeFixed
      rw [if_neg (not_not_intro rfl), hnumber]
      exact congrArg Except.ok hback

/-- A valid value is written so. -/
theorem of_valid (hm : p.Measured) (hd : p.Declared) (hmain : p.isMain = true) {v : Value}
    (hvalid : p.validateBuiltin v = .ok ()) (hnull : v.isNull = false) (h : p.encodeFixed p.len v = .ok bs) : p.Canonical bs := by
  cases hnumeric : p.type.isNumeric with
  | true => exact of_numeric hm hnumeric (Schema.length_encodeFixed hm h)
  | false =>
    rw [PropType.isNumeric, Bool.or_eq_false_iff] at hnumeric
    have hexact : p.IsExact v := ⟨fun hint => absurd (hint.symm.trans hnumeric.1) Bool.noConfusion,
      fun hnumber => absurd hnumber (of_decide_eq_false hnumeric.2)⟩
    refine ⟨v, ?_, .inr h⟩
    rw [decodeFixed_encodeFixed hm hd hmain hnull hvalid h, hexact.stored]

/-- Nothing but zeros: no label, or the zero of the type. -/
theorem of_zeros (hm : p.Measured) (hmain : p.isMain = true) : p.Canonical (List.replicate p.len 0) := by
  cases hnumeric : p.type.isNumeric with
  | true => exact of_numeric hm hnumeric List.length_replicate
  | false =>
    refine ⟨p.type.zero, decodeFixed_zero hm hmain, ?_⟩
    have hshort : ∀ n, 0 < n → encodeShort n [] = .ok (List.replicate n 0) := fun n hn => by
      obtain ⟨k, rfl⟩ := Nat.exists_eq_succ_of_ne_zero (Nat.ne_of_gt hn)
      rfl
    have hpos := hm.len_pos hmain
    have hfixed := hm.fixed
    have hkind := hm.short hmain
    unfold PropDef.encodeFixed
    rw [if_neg (not_not_intro rfl)]
    cases ht : p.type <;> simp only [ht] at hnumeric hfixed hkind ⊢
    case boolean =>
      rw [(hfixed 1 rfl).2]
      exact .inr rfl
    case enum => exact .inl rfl
    case string => exact .inr (hshort p.len hpos)
    case binary => exact .inr (hshort p.len hpos)
    case «alias» | text | cardinality | vector | colvec | reference | references =>
      exact absurd (hkind rfl).1 (by decide)
    all_goals cases hnumeric

end PropDef.Canonical

/-! ### Blocks -/

/-- A block holds canonical bytes at the places of the properties. -/
def Layout.Canonical (t : Layout E) (block : Bytes) : Prop := ∀ p ∈ t.props, p.isMain = true → p.Canonical (p.slice block)

namespace Layout.Packed

variable {t : Layout E}

/-- So does a fresh one. -/
theorem canonical (hk : t.Packed) (ht : t.Placed) : t.Canonical t.mainDefaults := by
  intro p hp hmain
  have hm := ht.measured p hp
  obtain ⟨a, ha⟩ := PropDef.offset?_of_isMain hmain
  have hbytes := hk.defaults p hp a ha
  rw [PropDef.slice, ha, Option.getD_some]
  unfold Schema.defaultBytes at hbytes
  split at hbytes
  · rw [← Except.ok.inj hbytes]
    exact .of_zeros hm hmain
  · rename_i v hv
    split at hbytes
    · rename_i bs hencoded
      rw [← Except.ok.inj hbytes]
      have hnull : v.isNull = false := by
        cases v <;> first | rfl | exact absurd hencoded encodeFixed_null_ne_ok
      obtain ⟨⟨⟩, hvalid, -⟩ := Except.bind_eq_ok.1 ((hk.declared p hp).default v hv).2
      exact .of_valid hm (hk.declared p hp) hmain hvalid hnull hencoded
    · cases hbytes

/-- Canonical bytes of one property change no other. -/
theorem canonical_overwrite (hk : t.Packed) (ht : t.Placed) {block : Bytes} (hlen : block.length = t.mainLen)
    (h : t.Canonical block) (hp : p ∈ t.props) {a : Nat} (ha : p.offset? = some a) (hbs : p.Canonical bs) :
    t.Canonical (Bytes.overwrite a bs block) := by
  intro q hq hmain
  have hin := ht.inside p hp a ha
  obtain ⟨i, hi⟩ := List.mem_iff_getElem?.1 hp
  obtain ⟨j, hj⟩ := List.mem_iff_getElem?.1 hq
  by_cases hij : j = i
  · subst hij
    cases hi.symm.trans hj
    rw [slice_overwrite_self ha hbs.length (hlen ▸ hin)]
    exact hbs
  · obtain ⟨b, hb⟩ := PropDef.offset?_of_isMain hmain
    have hapart := hk.disjoint hj hi hij hb ha
    rw [slice_overwrite_of_apart hb (by rw [hbs.length, hlen]; exact hin) (by rw [hbs.length]; exact hapart)]
    exact h q hq hmain

end Layout.Packed

end NodeStore
