import NodeStore.Proofs.Codec.RoundTrip
import NodeStore.Proofs.Schema.WellFormed
import NodeStore.Proofs.SortedLists

/-!
# The codec of compiled properties

For every property that compiling makes, validating, encoding and decoding agree: what passes the tests of the property
can be encoded and comes back, and what can be read from its bytes can be written again.

* `PropDef.IsExact`: a value in the form in which it is stored.
* `PropDef.Codes`: the three ways to store a value lose nothing; `PropDef.Codes.of`: it follows from what compiling checks.
* `compile_codes`: so it is for every property of a schema that compiles.
-/

namespace NodeStore

open Engine (readInt)

variable {E : Type} {p : PropDef E}

/-- Integers are given as such, and numbers as doubles. -/
structure PropDef.IsExact (p : PropDef E) (v : Value) : Prop where
  integer : p.type.isInteger = true → ∃ i, v = .int i
  number : p.type = .number → ∃ x, v = .float x

/-- What is valid for a property can be stored and comes back; what its bytes hold can be stored again. -/
structure PropDef.Codes (p : PropDef E) : Prop where
  main : p.isMain = true → ∀ v : Value, v.isNull = false → p.validateBuiltin v = .ok () → p.IsExact v →
    ∃ bs, p.encodeFixed p.len v = .ok bs ∧ p.decodeFixed bs = .ok v
  separate : p.isMain = false → p.type = .string ∨ p.type = .alias ∨ p.type = .binary ∨ p.type = .vector ∨ p.type = .colvec →
    ∀ v : Value, v.isNull = false → p.validateBuiltin v = .ok () →
      ∃ payload, p.encodeSeparate v = .ok payload ∧ p.decodeSeparate payload = .ok v
  /-- A plain string is a text of any locale. -/
  text : p.type = .text → ∀ v : Value, v.isNull = false → p.validateBuiltin v = .ok () →
    (∃ s, v = .string s ∧ ∀ locale, Payload.text (Payload.localized locale s) = .ok (locale, s)) ∨
      ∃ entries, v = .text entries ∧ ∀ code s, (code, s) ∈ entries → ∃ locale ∈ p.locales, Locale.idOf? code = some locale ∧
        Payload.text (Payload.localized locale s) = .ok (locale, s) ∧
          p.decodeSeparate (Payload.localized locale s) = .ok (.text [(code, s)])
  rewritten : ∀ (bs : Bytes) (v : Value), bs.length = p.len → p.decodeFixed bs = .ok v → v.isNull = false →
    ∃ again, p.encodeFixed p.len v = .ok again ∧ p.decodeFixed again = .ok v

/-! ### Written and read -/

theorem PropDef.IsExact.stored {v : Value} (h : p.IsExact v) : p.stored v = v := by
  unfold PropDef.stored
  split
  · rename_i hint
    obtain ⟨i, rfl⟩ := h.integer hint
    rfl
  · split
    · rename_i hnumber
      obtain ⟨x, rfl⟩ := h.number hnumber
      rfl
    · rfl

/-- A valid value outside the main block comes back from its payload. -/
theorem decodeSeparate_encodeSeparate (hcard : p.type ≠ .cardinality) {v : Value} {payload : Bytes}
    (h : p.encodeSeparate v = .ok payload) : p.decodeSeparate payload = .ok v := by
  unfold PropDef.encodeSeparate at h
  unfold PropDef.decodeSeparate
  cases ht : p.type <;> simp only [ht] at h hcard ⊢
  case cardinality => exact absurd rfl hcard
  case string | «alias» =>
    cases v <;> cases h
    rw [Payload.utf8_plain]
    rfl
  case binary =>
    cases v <;> cases h
    rw [Payload.string_plain]
    rfl
  case vector | colvec =>
    cases v <;> cases h
    rw [Payload.vector_elements]
    rfl
  all_goals cases h

/-- The payload of a text is read as the text in its locale. -/
theorem decodeSeparate_localized (htext : p.type = .text) {code : String} {locale : UInt8}
    (hlocale : Locale.idOf? code = some locale) (s : String) :
    p.decodeSeparate (Payload.localized locale s) = .ok (.text [(code, s)]) := by
  unfold PropDef.decodeSeparate
  simp only [htext, Payload.text_localized, bind, Except.bind, Locale.codeOf?_of_idOf? hlocale]
  rfl

theorem takesLocale_eq_true {code : String} (h : p.takesLocale code = true) :
    ∃ locale ∈ p.locales, Locale.idOf? code = some locale := by
  unfold PropDef.takesLocale at h
  split at h
  · rename_i id hid
    exact ⟨id, by simpa using h, hid⟩
  · cases h

/-! ### Read and written again -/

theorem Utf8.encode_of_decode? {bs : Bytes} {s : String} (h : Utf8.decode? bs = some s) : Utf8.encode s = bs := by
  unfold Utf8.decode? String.fromUTF8? at h
  split at h
  · cases h
    rfl
  · cases h

/-- The contents of a short byte string can be written in the same width, and are read then. -/
theorem encodeShort_decodeShort {bs content : Bytes} (h : PropDef.decodeShort bs = .ok content) :
    ∃ again, encodeShort bs.length content = .ok again ∧ PropDef.decodeShort again = .ok content := by
  cases bs with
  | nil => cases h
  | cons n rest =>
    rw [PropDef.decodeShort] at h
    split at h
    · cases h
    · cases h
      have hn : n.toNat < 256 := n.toNat_lt
      have hlt : (rest.take n.toNat).length < (n :: rest).length := by
        rw [List.length_take, List.length_cons]
        omega
      obtain ⟨again, hagain⟩ := encodeShort_of_lt hlt
      exact ⟨again, hagain, decodeShort_encodeShort (by rw [List.length_take]; omega) hagain⟩

/-- A label that is read has a number that leads to it. -/
theorem exists_enumIndex? {label : String} {n : Nat} (hlabels : p.enumValues.length ≤ Limits.maxEnumValues)
    (h : p.enumValues[n]? = some label) : ∃ (i : UInt8) (m : Nat), p.enumIndex? label = some i ∧ i.toNat = m + 1 ∧
      p.enumValues[m]? = some label := by
  cases hi : p.enumIndex? label with
  | some i =>
    obtain ⟨m, hm, hget⟩ := enumIndex?_eq_some hlabels hi
    exact ⟨i, m, rfl, hm, hget⟩
  | none =>
    have hnone := List.findIdx?_eq_none_iff.1 (Option.map_eq_none_iff.1 hi) label (List.mem_of_getElem? h)
    simp at hnone

/-- What is read from the bytes of an integer is written as bytes that are read so. -/
theorem encodeFixed_decodeFixed_integer (hint : p.type.isInteger = true) (hm : p.Measured) {bs : Bytes} {v : Value}
    (hlen : bs.length = p.len) (h : p.decodeFixed bs = .ok v) :
    ∃ again, p.encodeFixed p.len v = .ok again ∧ p.decodeFixed again = .ok v := by
  obtain ⟨w, low, high, hw, hrange⟩ := Engine.range_of_isInteger hint
  have hw' : p.type.fixedWidth = some p.len := by rw [(hm.fixed w hw).2, hw]
  obtain ⟨hlow, hhigh⟩ := Engine.readInt_range hrange hw' hlen
  rw [decodeFixed_integer hint hw' hlen] at h
  cases h
  have hi := Engine.toInt_readInt hint hw' hlen
  refine ⟨intBytes p.len (readInt p.type.isSigned bs), ?_, ?_⟩
  · rw [encodeFixed_integer hint, Value.asInt?, Option.elim_some, hi]
  · rw [decodeFixed_integer hint hw' (length_intBytes ..), Engine.readInt_intBytes hrange hw' hlow hhigh]

/-- What is read from the bytes of a property is written as bytes that are read so; padding need not come back. -/
theorem encodeFixed_decodeFixed (hm : p.Measured) (hd : p.Declared) {bs : Bytes} {v : Value} (hlen : bs.length = p.len)
    (h : p.decodeFixed bs = .ok v) (hnull : v.isNull = false) :
    ∃ again, p.encodeFixed p.len v = .ok again ∧ p.decodeFixed again = .ok v := by
  by_cases hint : p.type.isInteger = true
  · exact encodeFixed_decodeFixed_integer hint hm hlen h
  · -- It is enough to write the value with the right width and to read the new bytes by the type alone.
    suffices hagain : ∃ again, p.encodeFixed p.len v = .ok again ∧ (again.length = p.len → p.decodeFixed again = .ok v) by
      obtain ⟨again, hwritten, hread⟩ := hagain
      exact ⟨again, hwritten, hread (Schema.length_encodeFixed hm hwritten)⟩
    unfold PropDef.decodeFixed at h
    rw [if_neg (not_not_intro hlen)] at h
    unfold PropDef.encodeFixed PropDef.decodeFixed
    rw [if_neg (not_not_intro rfl)]
    cases ht : p.type <;> simp only [ht] at h hint ⊢
    case number =>
      cases h
      exact ⟨_, rfl, fun hwidth => by rw [if_neg (not_not_intro hwidth), Binary64.ofBytes_toBytes]⟩
    case boolean =>
      split at h
      · cases h
        exact ⟨_, rfl, fun hwidth => if_neg (not_not_intro hwidth)⟩
      · split at h
        · cases h
          exact ⟨_, rfl, fun hwidth => if_neg (not_not_intro hwidth)⟩
        · cases h
    case enum =>
      split at h
      · cases h
        cases hnull
      · split at h
        · rename_i label hlabel
          cases h
          obtain ⟨i, m, hi, hm, hget⟩ := exists_enumIndex? (hd.labels ht) hlabel
          refine ⟨[i], by simp [Value.asString?, hi], fun hwidth => ?_⟩
          rw [if_neg (not_not_intro hwidth)]
          simp [leNat, hm, hget]
        · cases h
    case string =>
      obtain ⟨content, hcontent, h⟩ := Except.bind_eq_ok.1 h
      split at h
      · rename_i s hs
        cases h
        obtain ⟨again, hwritten, hread⟩ := encodeShort_decodeShort hcontent
        refine ⟨again, (congrArg _ (Utf8.encode_of_decode? hs)).trans (hlen ▸ hwritten), fun hwidth => ?_⟩
        simp only [if_neg (not_not_intro hwidth), hread, bind, Except.bind, hs]
        rfl
      · cases h
    case binary =>
      obtain ⟨content, hcontent, h⟩ := Except.bind_eq_ok.1 h
      cases h
      obtain ⟨again, hwritten, hread⟩ := encodeShort_decodeShort hcontent
      refine ⟨again, hlen ▸ hwritten, fun hwidth => ?_⟩
      rw [if_neg (not_not_intro hwidth), hread]
      rfl
    all_goals first
      | exact absurd rfl hint
      | cases h

/-! ### Compiled properties -/

/-- What compiling checks of a property is enough. -/
theorem PropDef.Codes.of (hm : p.Measured) (hd : p.Declared) : p.Codes where
  main hmain v hnull hvalid hexact := by
    obtain ⟨bs, hbs⟩ := encodeFixed_of_valid hm hd hmain hnull hvalid
    exact ⟨bs, hbs, hexact.stored ▸ decodeFixed_encodeFixed hm hd hmain hnull hvalid hbs⟩
  separate hsep htype v hnull hvalid := by
    have hother : p.type.isReference = false ∧ p.type ≠ .text ∧ p.type ≠ .cardinality := by
      rcases htype with ht | ht | ht | ht | ht <;> rw [ht] <;> decide
    obtain ⟨payload, hpayload⟩ := encodeSeparate_of_valid hm hsep hother.1 hother.2.1 hnull hvalid
    exact ⟨payload, hpayload, decodeSeparate_encodeSeparate hother.2.2 hpayload⟩
  text htext v hnull hvalid := by
    rcases text_of_valid htext hnull hvalid with ⟨s, rfl⟩ | ⟨entries, rfl, henabled⟩
    · exact .inl ⟨s, rfl, fun locale => Payload.text_localized locale s⟩
    · refine .inr ⟨entries, rfl, fun code s hentry => ?_⟩
      obtain ⟨locale, hlocale, hid⟩ := takesLocale_eq_true (henabled _ hentry)
      exact ⟨locale, hlocale, hid, Payload.text_localized locale s, decodeSeparate_localized htext hid s⟩
  rewritten _ _ hlen h hnull := encodeFixed_decodeFixed hm hd hlen h hnull

/-- No property of a schema that compiles loses a value, neither in the main block nor outside of it, and neither on a
node nor on a link. -/
theorem compile_codes {decl : SchemaDecl} {priority : Priority} {schema : SchemaLayout} (h : decl.compile priority = .ok schema)
    {E : Type} {t : Layout E} (ht : schema.HasLayout t) {p : PropDef E} (hp : p ∈ t.props) : p.Codes := by
  obtain ⟨hplaced, -, hpacked⟩ := compile_hasLayout h ht
  exact .of (hplaced.measured p hp) (hpacked.declared p hp)

open People in
/-- The year of a friendship, stored on the link, is any number of its type. -/
theorem compile_codes_since :
    decl.compile = .ok layout ∧ layout.HasLayout friendship ∧ since.validateBuiltin (.int 65535) = .ok () ∧
      PropDef.Codes { since with location := .main 0 } :=
  have hlinks : layout.HasLayout friendship :=
    .ofLinks (t := person) (p := { friends with location := .separate 1 }) (by simp [layout]) (by simp [person]) rfl
  ⟨compile_decl, hlinks, by decide, compile_codes compile_decl hlinks (by simp [friendship])⟩

end NodeStore
