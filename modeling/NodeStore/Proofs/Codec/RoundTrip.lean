import NodeStore.Codec.Payload
import NodeStore.Proofs.Engine.Number
import NodeStore.Proofs.Schema.Packing

/-!
# Values read back

A valid value that was encoded for a property is decoded to itself; numbers come back in the form of their type.

* `PropDef.stored`: the form in which a value comes back; `PropType.zero`: the value of zero bytes.
* `encodeFixed_of_valid`, `decodeFixed_encodeFixed`, `decodeFixed_zero`: values of the main block.
* `encodeSeparate_of_valid`, `text_of_valid`: values of separate fields.
* `Payload.utf8_plain`, `Payload.vector_elements`, `Payload.readHashes_hashes`: payloads.
-/

namespace NodeStore

open Engine (readInt)

/-- The value of zero bytes; a label that is unset is null. -/
def PropType.zero : PropType → Value
  | .number => .float .zero
  | .boolean => .bool false
  | .string => .string ""
  | .binary => .binary []
  | type => if type.isInteger then .int 0 else .null

variable {E : Type} {p : PropDef E}

/-- The form in which a value comes back: integers and numbers in that of their type, others as they are. -/
def PropDef.stored (p : PropDef E) (v : Value) : Value :=
  if p.type.isInteger then (v.asInt?.map .int).getD v
  else if p.type = .number then (v.asDouble?.map .float).getD v
  else v

/-! ### Numbers -/

theorem PropType.fixedWidth_le {type : PropType} {w : Nat} (h : type.fixedWidth = some w) : w ≤ 8 := by
  cases type <;> cases h <;> decide

/-- The bytes of an integer property are read as its type asks for. -/
theorem decodeFixed_integer (hint : p.type.isInteger = true) (hw : p.type.fixedWidth = some p.len) {bs : Bytes}
    (hlen : bs.length = p.len) : p.decodeFixed bs = .ok (.int (.ofInt (readInt p.type.isSigned bs))) := by
  have hmax : bs.length ≤ 8 := hlen ▸ PropType.fixedWidth_le hw
  rw [PropDef.decodeFixed, if_neg (not_not_intro hlen), readInt, List.take_of_length_le hmax]
  cases ht : p.type <;> rw [ht] at hint <;> first | rfl | cases hint

theorem encodeFixed_integer (hint : p.type.isInteger = true) (v : Value) :
    p.encodeFixed p.len v = (v.asInt?.elim (.error (.wrongKind "integer")) fun i => .ok (intBytes p.len i.toInt)) := by
  unfold PropDef.encodeFixed
  rw [if_neg (not_not_intro rfl)]
  cases ht : p.type <;> rw [ht] at hint <;> cases hint
  all_goals cases v.asInt? <;> rfl

theorem validateBuiltin_integer (hint : p.type.isInteger = true) {v : Value} (hnull : v.isNull = false) :
    p.validateBuiltin v = p.validateInteger v := by
  unfold PropDef.validateBuiltin
  rw [hnull]
  cases ht : p.type <;> rw [ht] at hint <;> cases hint
  all_goals rfl

theorem validateInteger_range {i : Int64} {v : Value} (hv : v.asInt? = some i) (h : p.validateInteger v = .ok ())
    {low high : Int} (hrange : p.type.intRange? = some (low, high)) : low ≤ i.toInt ∧ i.toInt ≤ high := by
  unfold PropDef.validateInteger at h
  simp only [hv, hrange] at h
  split at h
  · cases h
  · omega

theorem decodeFixed_encodeFixed_integer (hint : p.type.isInteger = true) (hw : p.type.fixedWidth = some p.len) {v : Value}
    (hvalid : p.validateInteger v = .ok ()) {bs : Bytes} (h : p.encodeFixed p.len v = .ok bs) :
    p.decodeFixed bs = .ok (p.stored v) := by
  rw [encodeFixed_integer hint] at h
  cases hv : v.asInt? with
  | none =>
    rw [hv] at h
    cases h
  | some i =>
    rw [hv] at h
    cases h
    obtain ⟨⟨low, high⟩, hrange⟩ : ∃ r, p.type.intRange? = some r := by
      cases ht : p.type <;> rw [ht] at hint <;> first | exact ⟨_, rfl⟩ | cases hint
    obtain ⟨hlow, hhigh⟩ := validateInteger_range hv hvalid hrange
    rw [decodeFixed_integer hint hw (length_intBytes ..), Engine.readInt_intBytes hrange hw hlow hhigh, Int64.ofInt_toInt,
      PropDef.stored, if_pos hint, hv]
    rfl

/-! ### Labels and short strings -/

/-- The number of a label leads back to it. -/
theorem enumIndex?_eq_some {label : String} {i : UInt8} (hlabels : p.enumValues.length ≤ Limits.maxEnumValues)
    (h : p.enumIndex? label = some i) : ∃ n, i.toNat = n + 1 ∧ p.enumValues[n]? = some label := by
  obtain ⟨n, hn, rfl⟩ := Option.map_eq_some_iff.1 h
  obtain ⟨hlt, hname, -⟩ := List.findIdx?_eq_some_iff_getElem.1 hn
  have hmax : Limits.maxEnumValues = 255 := rfl
  refine ⟨n, ?_, ?_⟩
  · rw [UInt8.toNat_ofNat']
    omega
  · rw [List.getElem?_eq_getElem hlt]
    simpa using hname

theorem length_of_encodeShort {width : Nat} {bs out : Bytes} (h : encodeShort width bs = .ok out) : bs.length < width := by
  unfold encodeShort at h
  split at h
  · cases h
  · exact Nat.not_le.1 ‹_›

theorem decodeShort_encodeShort {width : Nat} {bs out : Bytes} (hbyte : bs.length < 256) (h : encodeShort width bs = .ok out) :
    PropDef.decodeShort out = .ok bs := by
  unfold encodeShort at h
  split at h
  · cases h
  · cases h
    have hn : (UInt8.ofNat bs.length).toNat = bs.length := by
      rw [UInt8.toNat_ofNat']
      omega
    rw [List.cons_append, PropDef.decodeShort, hn, if_neg (by simp), List.take_left']
    rfl

/-! ### The main block -/

theorem encodeShort_of_lt {width : Nat} {bs : Bytes} (h : bs.length < width) : ∃ out, encodeShort width bs = .ok out := by
  rw [encodeShort, if_neg (Nat.not_le.2 h)]
  exact ⟨_, rfl⟩

theorem length_lt_of_checkLength {n max : Nat} (hmax : p.maxBytes = some max) (hlen : p.len = max + 1)
    (h : p.checkLength n = .ok ()) : n < p.len := by
  unfold PropDef.checkLength at h
  simp only [hmax] at h
  split at h
  · cases h
  · omega

/-- Every valid value has a form in the main block. -/
theorem encodeFixed_of_valid (hm : p.Measured) (hd : p.Declared) (hmain : p.isMain = true) {v : Value}
    (hnull : v.isNull = false) (hvalid : p.validateBuiltin v = .ok ()) : ∃ bs, p.encodeFixed p.len v = .ok bs := by
  by_cases hint : p.type.isInteger = true
  · rw [validateBuiltin_integer hint hnull] at hvalid
    rw [encodeFixed_integer hint]
    cases hv : v.asInt? with
    | none =>
      rw [PropDef.validateInteger, hv] at hvalid
      cases hvalid
    | some i => exact ⟨_, rfl⟩
  · have hseparate := hm.separate
    have hshort := hd.short hmain
    unfold PropDef.validateBuiltin at hvalid
    unfold PropDef.encodeFixed
    rw [hnull] at hvalid
    rw [if_neg (not_not_intro rfl)]
    cases ht : p.type <;> simp only [ht, Bool.false_eq_true, if_false] at hint hvalid hseparate hshort ⊢
    case number =>
      cases hv : v.asDouble? with
      | none =>
        rw [PropDef.validateNumber, hv] at hvalid
        cases hvalid
      | some x => exact ⟨_, rfl⟩
    case boolean =>
      cases v with
      | bool b => exact ⟨_, rfl⟩
      | _ => cases hvalid
    case enum =>
      cases hv : v.asString? with
      | none =>
        rw [PropDef.validateEnum, hv] at hvalid
        cases hvalid
      | some label =>
        rw [PropDef.validateEnum, hv] at hvalid
        dsimp only at hvalid ⊢
        cases hi : p.enumIndex? label with
        | none =>
          rw [hi] at hvalid
          cases hvalid
        | some i => exact ⟨_, rfl⟩
    case string =>
      obtain ⟨max, hmax, hlen, -⟩ := hshort (by simp)
      cases v with
      | string s => exact encodeShort_of_lt (by simpa using length_lt_of_checkLength hmax hlen hvalid)
      | _ => cases hvalid
    case binary =>
      obtain ⟨max, hmax, hlen, -⟩ := hshort (by simp)
      cases v with
      | binary bs => exact encodeShort_of_lt (length_lt_of_checkLength hmax hlen hvalid)
      | _ => cases hvalid
    all_goals
      first
      | exact absurd rfl hint
      | exact absurd (hseparate rfl) (by simp [hmain])

/-- A valid value of the main block comes back. -/
theorem decodeFixed_encodeFixed (hm : p.Measured) (hd : p.Declared) (hmain : p.isMain = true) {v : Value}
    (hnull : v.isNull = false) (hvalid : p.validateBuiltin v = .ok ()) {bs : Bytes} (h : p.encodeFixed p.len v = .ok bs) :
    p.decodeFixed bs = .ok (p.stored v) := by
  have hlen := Schema.length_encodeFixed hm h
  by_cases hint : p.type.isInteger = true
  · obtain ⟨w, hw⟩ : ∃ w, p.type.fixedWidth = some w := by
      cases ht : p.type <;> rw [ht] at hint <;> first | exact ⟨_, rfl⟩ | cases hint
    rw [validateBuiltin_integer hint hnull] at hvalid
    exact decodeFixed_encodeFixed_integer hint (by rw [(hm.fixed w hw).2, hw]) hvalid h
  · have hplain : p.type ≠ .number → p.stored v = v := fun hne => by rw [PropDef.stored, if_neg hint, if_neg hne]
    have hsmall : p.type = .string ∨ p.type = .binary → p.len ≤ 256 := fun ht => by
      obtain ⟨max, -, hlen, hmax⟩ := hd.short hmain ht
      have : Limits.maxFixedString = 60 := rfl
      omega
    unfold PropDef.validateBuiltin at hvalid
    rw [hnull] at hvalid
    unfold PropDef.encodeFixed at h
    rw [if_neg (not_not_intro rfl)] at h
    unfold PropDef.decodeFixed
    rw [if_neg (not_not_intro hlen)]
    cases ht : p.type
    case number =>
      simp only [ht] at h
      split at h
      · rename_i x hx
        cases h
        rw [PropDef.stored, if_neg hint, if_pos ht, hx, Binary64.ofBytes_toBytes]
        rfl
      · cases h
    case boolean =>
      simp only [ht] at h
      split at h
      · rename_i b
        cases h
        cases b <;> simp [hplain, ht]
      · cases h
    case enum =>
      simp only [ht] at h
      split at h
      · cases h
      · rename_i label hlabel
        split at h
        · rename_i i hi
          cases h
          obtain ⟨n, hn, hget⟩ := enumIndex?_eq_some (hd.labels ht) hi
          have hv : v = .string label := by cases v <;> cases hlabel; rfl
          rw [hplain (by rw [ht]; decide), hv]
          simp [leNat, hn, hget]
        · cases h
    case string =>
      simp only [ht, Bool.false_eq_true, if_false] at h hvalid
      split at h
      · rename_i s
        simp [decodeShort_encodeShort (Nat.lt_of_lt_of_le (length_of_encodeShort h) (hsmall (.inl ht))) h, bind, Except.bind, Utf8.decode?_encode, hplain, ht]
        rfl
      · cases hvalid
      · cases h
    case binary =>
      simp only [ht, Bool.false_eq_true, if_false] at h hvalid
      split at h
      · cases hvalid
      · simp [decodeShort_encodeShort (Nat.lt_of_lt_of_le (length_of_encodeShort h) (hsmall (.inr ht))) h, bind, Except.bind, hplain, ht]
        rfl
      · cases h
    all_goals
      exfalso
      simp_all [PropType.isInteger]

/-- A null is no value of the main block. -/
theorem encodeFixed_null_ne_ok {bs : Bytes} : p.encodeFixed p.len .null ≠ .ok bs := by
  intro h
  unfold PropDef.encodeFixed at h
  rw [if_neg (not_not_intro rfl)] at h
  cases ht : p.type <;> simp [ht, Value.asDouble?, Value.asInt?, Value.asString?, PropType.isInteger] at h

theorem leNat_zeros (n : Nat) : leNat (List.replicate n 0) = 0 := by
  induction n with
  | zero => rfl
  | succ n ih => simp [List.replicate_succ, leNat, ih]

/-- Bytes that were never written hold the zero of the type. -/
theorem decodeFixed_zero (hm : p.Measured) (hmain : p.isMain = true) :
    p.decodeFixed (List.replicate p.len 0) = .ok p.type.zero := by
  by_cases hint : p.type.isInteger = true
  · obtain ⟨w, hw⟩ : ∃ w, p.type.fixedWidth = some w := by
      cases ht : p.type <;> rw [ht] at hint <;> first | exact ⟨_, rfl⟩ | cases hint
    have hzero : readInt p.type.isSigned (List.replicate p.len 0) = 0 := by
      rw [readInt, List.take_replicate, leInt, leNat_zeros]
      simp
    have hw' : p.type.fixedWidth = some p.len := by rw [(hm.fixed w hw).2, hw]
    rw [decodeFixed_integer hint hw' List.length_replicate, hzero]
    cases ht : p.type <;> rw [ht] at hint <;> first | rfl | cases hint
  · have hfixed := hm.fixed
    have hshort := hm.short hmain
    unfold PropDef.decodeFixed
    rw [if_neg (by simp)]
    cases ht : p.type <;> simp only [ht] at hint hfixed hshort
    case number =>
      simp [PropType.zero, Binary64.ofBytes, leNat_zeros, Binary64.zero]
    case boolean =>
      rw [(hfixed 1 rfl).2]
      rfl
    case enum =>
      rw [(hfixed 1 rfl).2]
      rfl
    case string =>
      obtain ⟨n, hn⟩ := Nat.exists_eq_succ_of_ne_zero (Nat.ne_of_gt (hshort rfl).2)
      rw [hn]
      rfl
    case binary =>
      obtain ⟨n, hn⟩ := Nat.exists_eq_succ_of_ne_zero (Nat.ne_of_gt (hshort rfl).2)
      rw [hn]
      rfl
    all_goals
      first
      | exact absurd rfl hint
      | simp [PropType.fixedWidth] at hshort

/-! ### Separate fields -/

/-- A valid value of a separate property has a payload, unless it is a text or a reference. -/
theorem encodeSeparate_of_valid (hm : p.Measured) (hsep : p.isMain = false) (href : p.type.isReference = false)
    (htext : p.type ≠ .text) {v : Value} (hnull : v.isNull = false) (hvalid : p.validateBuiltin v = .ok ()) :
    ∃ payload, p.encodeSeparate v = .ok payload := by
  have hwidth : p.type.fixedWidth = none := by
    cases hw : p.type.fixedWidth with
    | none => rfl
    | some w =>
      have := (hm.fixed w hw).1
      rw [hsep] at this
      cases this
  unfold PropDef.validateBuiltin at hvalid
  rw [if_neg (by simp [hnull])] at hvalid
  unfold PropDef.encodeSeparate
  cases htype : p.type with
  | string | «alias» =>
    simp only [htype] at hvalid
    cases v <;> first | exact ⟨_, rfl⟩ | cases hvalid
  | binary =>
    simp only [htype] at hvalid
    cases v <;> first | exact ⟨_, rfl⟩ | cases hvalid
  | cardinality => exact ⟨_, rfl⟩
  | vector | colvec =>
    simp only [htype, PropDef.validateVector] at hvalid
    cases v <;> first | exact ⟨_, rfl⟩ | cases hvalid
  | text => exact absurd htype htext
  | reference | references =>
    rw [htype] at href
    cases href
  | _ =>
    rw [htype] at hwidth
    cases hwidth

/-- A valid text is a string, or has texts in enabled locales. -/
theorem text_of_valid (htext : p.type = .text) {v : Value} (hnull : v.isNull = false) (hvalid : p.validateBuiltin v = .ok ()) :
    (∃ s, v = .string s) ∨ ∃ entries, v = .text entries ∧ ∀ entry ∈ entries, p.takesLocale entry.1 = true := by
  unfold PropDef.validateBuiltin PropDef.validateText at hvalid
  rw [if_neg (by simp [hnull])] at hvalid
  simp only [htext] at hvalid
  cases v with
  | string s => exact .inl ⟨s, rfl⟩
  | text entries =>
    refine .inr ⟨entries, rfl, fun entry hentry => ?_⟩
    have hone := forM_eq_ok.1 hvalid entry hentry
    obtain ⟨code, text⟩ := entry
    by_contra hnot
    simp only [Bool.not_eq_true] at hnot
    dsimp only at hone
    rw [hnot] at hone
    cases hone
  | _ => cases hvalid

/-! ### Payloads -/

namespace Payload

@[simp] theorem string_plain (bs : Bytes) : string (plain bs) = .ok bs := rfl

@[simp] theorem utf8_plain (s field : String) : utf8 (plain (Utf8.encode s)) field = .ok s := by
  simp [utf8, bind, Except.bind, Utf8.decode?_encode]
  rfl

@[simp] theorem text_localized (locale : UInt8) (s : String) : text (localized locale s) = .ok (locale, s) := by
  simp [text, localized, bind, Except.bind]
  rfl

theorem vector_elements (xs : List Binary32) : vector (xs.flatMap (·.toBytes)) = .ok xs := by
  have hwidth : ∀ bs ∈ xs.map (·.toBytes), bs.length = 4 := by simp
  have hlen : (xs.flatMap (·.toBytes)).length = xs.length * 4 := by
    rw [List.flatMap_def, length_flatten_of_width hwidth, List.length_map]
  have hpieces := pieces_flatten hwidth
  rw [List.length_map, ← List.flatMap_def] at hpieces
  rw [vector, if_neg (by simp [hlen]), hlen, Nat.mul_div_cancel _ (by decide), hpieces, List.map_map]
  simp [Function.comp_def, Binary32.ofBytes_toBytes]

/-- Fewer hashes than four bytes count are read back. -/
theorem readHashes_hashes {hs : List UInt64} (h : hs.length < 2 ^ 32) : readHashes (hashes hs) = .ok hs := by
  have hwidth : ∀ bs ∈ hs.map (fun h => leBytes 8 h.toNat), bs.length = 8 := by simp
  have hlen : (hs.flatMap fun h => leBytes 8 h.toNat).length = hs.length * 8 := by
    rw [List.flatMap_def, length_flatten_of_width hwidth, List.length_map]
  have hpieces := pieces_flatten hwidth
  rw [List.length_map, ← List.flatMap_def] at hpieces
  have htake : (hashes hs).take 4 = leBytes 4 hs.length := List.take_left' (length_leBytes ..)
  have hdrop : (hashes hs).drop 4 = hs.flatMap fun h => leBytes 8 h.toNat := List.drop_left' (length_leBytes ..)
  rw [readHashes, if_neg (by simp [hashes]), htake, hdrop, leNat_leBytes_of_lt h]
  simp only [hlen, hpieces, ne_eq, not_true_eq_false, if_false, List.map_map]
  congr 1
  refine (List.map_congr_left fun x _ => ?_).trans (List.map_id _)
  have hx : x.toNat < 256 ^ 8 := x.toNat_lt
  simp [leNat_leBytes_of_lt hx]

end Payload

end NodeStore
