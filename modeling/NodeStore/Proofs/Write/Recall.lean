import Mathlib.Data.List.Induction
import NodeStore.Engine.Answer
import NodeStore.Proofs.SortedLists
import NodeStore.Proofs.Write.OneNode

/-!
# What a property reads as

The value of a property follows from the values that were written to it, in their order, and from its declaration.

* `PropDef.valueAfter`: that value.
* `Holds.decodeFixed`: the bytes of the main block stand for it.
* `Tells`: what the payloads of a separate field say; `Holds.tells`: they say the same.
-/

namespace NodeStore

open Engine

/-! ### The value -/

/-- The values written after the last null. -/
def sinceNull (vs : List Value) : List Value := vs.foldl (fun vs v => if v.isNull then [] else vs ++ [v]) []

@[simp] theorem sinceNull_concat (vs : List Value) (v : Value) :
    sinceNull (vs ++ [v]) = if v.isNull then [] else sinceNull vs ++ [v] := by simp [sinceNull]

/-- The texts by code after one of them was written. The empty string takes a text away, from a node that is there
already. -/
def writeEntry (create : Bool) (texts : List (String × String)) (entry : String × String) : List (String × String) :=
  if !entry.2.isEmpty then Assoc.insert entry.1 entry.2 texts
  else if create then texts
  else Assoc.erase entry.1 texts

/-- The texts by code after one more value. A plain string is a text in the `home` locale. -/
def writeTexts (home : Option String) (create : Bool) (texts : List (String × String)) : Value → List (String × String)
  | .null => if create then texts else []
  | .string s => home.elim texts fun code => Assoc.insert code s texts
  | .text entries => entries.foldl (writeEntry create) texts
  | _ => texts

/-- The value that some texts make. -/
def textsValue : List (String × String) → Value
  | [] => .null
  | texts => .text texts

/-- The value of the number of distinct items, if there was a write at all. -/
def countValue : List Value → Value
  | [] => .null
  | vs => .int (.ofInt (vs.flatMap Value.sketchHashes).dedup.length)

namespace PropDef

variable {E : Type}

/-- The value that a main property has from the start: its default, else the zero of its type. -/
def initial (p : PropDef E) : Value := (p.default.map p.stored).getD p.type.zero

/-- What a property reads as after values were written to it, first with the creation of its node, then with updates. -/
def valueAfter (p : PropDef E) (home : Option String) (created updated : List Value) : Value :=
  if p.isMain then ((sinceNull (created ++ updated)).getLast?.map p.stored).getD p.initial
  else
    match p.type with
    | .text => textsValue (updated.foldl (writeTexts home false) (created.foldl (writeTexts home true) []))
    | .cardinality => countValue (sinceNull (created ++ updated))
    | _ => (created ++ updated).getLast?.getD .null

end PropDef

theorem getLast?_sinceNull (vs : List Value) : (sinceNull vs).getLast? = vs.getLast?.filter (!·.isNull) := by
  rcases List.eq_nil_or_concat vs with rfl | ⟨vs, v, rfl⟩
  · rfl
  · rw [List.concat_eq_append, sinceNull_concat, List.getLast?_concat]
    cases hnull : v.isNull <;> simp [Option.filter_some, hnull]

namespace Write

/-! ### The main block -/

section

variable {t : TypeLayout} {locale : UInt8} {n : StoredNode} {p : PropDef EdgeLayout} {created updated : List Value}

/-- The last value decides. -/
theorem foldl_mainBytes (vs : List Value) (start : Bytes) :
    vs.foldl (fun _ v => t.mainBytes p v) start = (vs.getLast?.map (t.mainBytes p)).getD start := by
  rcases List.eq_nil_or_concat vs with rfl | ⟨vs, v, rfl⟩
  · rfl
  · simp

/-- The bytes of a fresh block stand for the initial value. -/
theorem decodeFixed_defaults (ht : t.Placed) (hk : t.Packed) (hp : p ∈ t.props) {a : Nat} (ha : p.offset? = some a) :
    p.decodeFixed (p.slice t.mainDefaults) = .ok p.initial := by
  have hm := ht.measured p hp
  have hmain := PropDef.isMain_of_offset? ha
  have hbytes := hk.defaults p hp a ha
  rw [PropDef.slice, ha, Option.getD_some, PropDef.initial]
  unfold Schema.defaultBytes at hbytes
  split at hbytes
  · rename_i hnone
    rw [hnone, ← Except.ok.inj hbytes]
    exact decodeFixed_zero hm hmain
  · rename_i v hv
    split at hbytes
    · rename_i bs hencoded
      rw [hv, ← Except.ok.inj hbytes]
      have hnull : v.isNull = false := by
        cases v <;> first | rfl | exact absurd hencoded encodeFixed_null_ne_ok
      obtain ⟨⟨⟩, hvalid, -⟩ := Except.bind_eq_ok.1 ((hk.declared p hp).default v hv).2
      exact decodeFixed_encodeFixed hm (hk.declared p hp) hmain hnull hvalid hencoded
    · cases hbytes

/-- The bytes of a main property stand for what was written to it. -/
theorem Holds.decodeFixed (h : Holds t locale n p created updated) (ht : t.Placed) (hk : t.Packed) (hp : p ∈ t.props)
    (hmain : p.isMain = true) (home : Option String) :
    p.decodeFixed (p.slice n.main) = .ok (p.valueAfter home created updated) := by
  obtain ⟨a, ha⟩ := PropDef.offset?_of_isMain hmain
  rw [h.main a ha, foldl_mainBytes, PropDef.valueAfter, if_pos hmain, getLast?_sinceNull]
  have hvalid := h.valid
  generalize created ++ updated = written at hvalid
  cases hlast : written.getLast? with
  | none => exact decodeFixed_defaults ht hk hp ha
  | some v =>
    rw [Option.map_some, Option.getD_some, Layout.mainBytes]
    cases hnull : v.isNull with
    | true =>
      rw [if_pos rfl]
      simpa [Option.filter_some, hnull] using decodeFixed_defaults ht hk hp ha
    | false =>
      have hv := hvalid v (List.mem_of_getLast? hlast)
      obtain ⟨bs, hbs⟩ := encodeFixed_of_valid (ht.measured p hp) (hk.declared p hp) hmain hnull hv
      rw [if_neg Bool.false_ne_true, hbs]
      simpa [Option.filter_some, hnull, Except.toOption] using
        decodeFixed_encodeFixed (ht.measured p hp) (hk.declared p hp) hmain hnull hv hbs

end

/-! ### Texts -/

section

variable {E L : Type} {p : PropDef L} {locale : UInt8} {entries : List (UInt8 × String)} {texts : List (String × String)}

/-- The content of some texts. -/
def textContent (entries : List (UInt8 × String)) : Option (Content E) :=
  if entries.isEmpty then none else some (.text entries)

@[simp] theorem textsIn_textContent (entries : List (UInt8 × String)) :
    textsIn (textContent entries : Option (Content E)) = entries := by
  cases entries <;> rfl

theorem withText_textContent (locale : UInt8) (s : String) (entries : List (UInt8 × String)) :
    withText locale s (textContent entries : Option (Content E)) = textContent (Assoc.insert locale s entries) := by
  rw [withText, textsIn_textContent, textContent, if_neg]
  cases entries with
  | nil => simp [Assoc.insert]
  | cons e es =>
    rw [Assoc.insert]
    split
    · simp
    · split <;> simp

theorem withoutText_textContent (locale : UInt8) (entries : List (UInt8 × String)) :
    withoutText locale (textContent entries : Option (Content E)) = textContent (Assoc.erase locale entries) := by
  cases entries with
  | nil => rfl
  | cons e es =>
    cases h : Assoc.erase locale (e :: es) <;> simp [textContent, withoutText, h]

/-- Texts by locale are those by code. -/
structure Spelled (entries : List (UInt8 × String)) (texts : List (String × String)) : Prop where
  sorted : Assoc.Sorted entries
  known : ∀ e ∈ entries, ∃ code, Locale.codeOf? e.1 = some code
  texts : entries.map (fun e => (Locale.codeOf e.1, e.2)) = texts

theorem Spelled.insert (h : Spelled entries texts) {code : String} (hcode : Locale.codeOf? locale = some code) (s : String) :
    Spelled (Assoc.insert locale s entries) (Assoc.insert code s texts) where
  sorted := h.sorted.insert locale s
  known e he := by
    rcases Assoc.mem_insert he with rfl | he
    · exact ⟨code, hcode⟩
    · exact h.known e he
  texts := by
    have hname : Locale.codeOf locale = code := by rw [Locale.codeOf, hcode, Option.getD_some]
    rw [Assoc.map_insert, h.texts, hname]
    · intro e he
      obtain ⟨_, hknown⟩ := h.known e he
      exact Locale.codeOf_inj hcode hknown
    · intro e he
      obtain ⟨_, hknown⟩ := h.known e he
      exact Locale.codeOf_lt_iff hcode hknown

theorem Spelled.erase (h : Spelled entries texts) {code : String} (hcode : Locale.codeOf? locale = some code) :
    Spelled (Assoc.erase locale entries) (Assoc.erase code texts) where
  sorted := h.sorted.erase locale
  known e he := h.known e ((Assoc.erase_sublist locale entries).mem he)
  texts := by
    have hname : Locale.codeOf locale = code := by rw [Locale.codeOf, hcode, Option.getD_some]
    rw [Assoc.map_erase, h.texts, hname]
    intro e he
    obtain ⟨_, hknown⟩ := h.known e he
    exact Locale.codeOf_inj hcode hknown

theorem Spelled.nil : Spelled [] [] := ⟨.nil, nofun, rfl⟩

theorem Spelled.assignText (h : Spelled entries texts) (create : Bool) {entry : String × String}
    (htakes : p.takesLocale entry.1 = true) :
    ∃ entries', assignText create (textContent entries : Option (Content E)) entry = textContent entries' ∧
      Spelled entries' (writeEntry create texts entry) := by
  unfold PropDef.takesLocale at htakes
  cases hid : Locale.idOf? entry.1 with
  | none =>
    rw [hid] at htakes
    cases htakes
  | some id =>
    have hcode := Locale.codeOf?_of_idOf? hid
    simp only [Engine.assignText, hid, writeEntry]
    split
    · exact ⟨_, withText_textContent id entry.2 entries, h.insert hcode entry.2⟩
    · split
      · exact ⟨entries, rfl, h⟩
      · exact ⟨_, withoutText_textContent id entries, h.erase hcode⟩

theorem Spelled.assignTexts (h : Spelled entries texts) (create : Bool) {written : List (String × String)}
    (htakes : ∀ e ∈ written, p.takesLocale e.1 = true) :
    ∃ entries', written.foldl (Engine.assignText create) (textContent entries : Option (Content E)) = textContent entries' ∧
      Spelled entries' (written.foldl (writeEntry create) texts) := by
  induction written generalizing entries texts with
  | nil => exact ⟨entries, rfl, h⟩
  | cons e written ih =>
    obtain ⟨next, hnext, hspelled⟩ := h.assignText create (htakes e List.mem_cons_self) (E := E)
    rw [List.foldl_cons, List.foldl_cons, hnext]
    exact ih hspelled fun e' he' => htakes e' (List.mem_cons_of_mem _ he')

theorem validateBuiltin_text (ht : p.type = .text) {v : Value} (hnull : v.isNull = false) :
    p.validateBuiltin v = p.validateText v := by
  unfold PropDef.validateBuiltin
  rw [hnull, ht]
  rfl

/-- A valid value changes the texts by locale as it does those by code. -/
theorem Spelled.assign (h : Spelled entries texts) (ht : p.type = .text)
    (hlocale : locale = Locale.none ∨ ∃ code, Locale.codeOf? locale = some code) (create : Bool) {v : Value}
    (hvalid : p.validateBuiltin v = .ok ()) :
    ∃ entries', p.assign locale create v (textContent entries : Option (Content E)) = textContent entries' ∧
      Spelled entries' (writeTexts (Locale.codeOf? locale) create texts v) := by
  unfold PropDef.assign
  simp only [ht]
  cases v with
  | null =>
    cases create with
    | true => exact ⟨entries, rfl, h⟩
    | false => exact ⟨[], rfl, .nil⟩
  | string s =>
    rcases hlocale with rfl | ⟨code, hcode⟩
    · exact ⟨entries, rfl, h⟩
    · have hne : locale ≠ Locale.none := fun he => by
        rw [he] at hcode
        cases hcode
      refine ⟨_, (if_neg hne).trans (withText_textContent locale s entries), ?_⟩
      rw [writeTexts, hcode]
      exact h.insert hcode s
  | text written =>
    rw [validateBuiltin_text ht rfl] at hvalid
    refine h.assignTexts (p := p) create fun e he => ?_
    have hentry := forM_eq_ok.1 hvalid e he
    cases htakes : p.takesLocale e.1 with
    | true => rfl
    | false =>
      simp only [htakes] at hentry
      cases hentry
  | _ =>
    rw [validateBuiltin_text ht rfl] at hvalid
    cases hvalid

/-- Valid values change the texts by locale as they do those by code. -/
theorem Spelled.assignAll (h : Spelled entries texts) (ht : p.type = .text)
    (hlocale : locale = Locale.none ∨ ∃ code, Locale.codeOf? locale = some code) (create : Bool) {vs : List Value}
    (hvalid : ∀ v ∈ vs, p.validateBuiltin v = .ok ()) :
    ∃ entries', vs.foldl (fun x v => p.assign locale create v x) (textContent entries : Option (Content E)) =
        textContent entries' ∧ Spelled entries' (vs.foldl (writeTexts (Locale.codeOf? locale) create) texts) := by
  induction vs generalizing entries texts with
  | nil => exact ⟨entries, rfl, h⟩
  | cons v vs ih =>
    obtain ⟨next, hnext, hspelled⟩ := h.assign ht hlocale create (hvalid v List.mem_cons_self) (E := E)
    rw [List.foldl_cons, List.foldl_cons, hnext]
    exact ih hspelled fun v' hv' => hvalid v' (List.mem_cons_of_mem _ hv')

end

/-! ### Other separate fields -/

section

variable {E L : Type} {p : PropDef L} {locale : UInt8}

/-- To a field without a content a created node writes as an update does. -/
theorem assign_create (ht : p.type ≠ .text) (v : Value) :
    p.assign locale true v (none : Option (Content E)) = p.assign locale false v none := by
  unfold PropDef.assign
  cases v with
  | null => rfl
  | _ => split <;> first | rfl | contradiction

/-- What was written to a field with the creation and with updates, as one run of writes. -/
theorem foldl_assign_create (ht : p.type ≠ .text) {created : List Value} (h : created.length ≤ 1) (updated : List Value) :
    updated.foldl (fun x v => p.assign locale false v x)
        (created.foldl (fun x v => p.assign locale true v x) (none : Option (Content E))) =
      (created ++ updated).foldl (fun x v => p.assign locale false v x) none := by
  match created, h with
  | [], _ => rfl
  | [v], _ => simp [assign_create ht]

/-- A sketch holds the hashes of all items since the last null. -/
theorem foldl_assign_cardinality (ht : p.type = .cardinality) (vs : List Value) :
    vs.foldl (fun x v => p.assign locale false v x) (none : Option (Content E)) =
      match sinceNull vs with
      | [] => none
      | vs => some (.sketch ((vs.flatMap Value.sketchHashes).foldl (fun known h => KeySet.insert h known) [])) := by
  induction vs using List.reverseRecOn with
  | nil => rfl
  | append_singleton vs v ih =>
    rw [List.foldl_append, ih, sinceNull_concat]
    cases hnull : v.isNull with
    | true =>
      obtain rfl : v = .null := by cases v <;> first | rfl | cases hnull
      simp [PropDef.assign]
    | false =>
      have hassign : ∀ c : Option (Content E), p.assign locale false v c = withHashes v.sketchHashes c := fun c => by
        unfold PropDef.assign
        simp only [ht]
        cases v <;> first | rfl | cases hnull
      rw [if_neg Bool.false_ne_true, List.foldl_cons, List.foldl_nil, hassign]
      cases sinceNull vs with
      | nil => simp [withHashes, hashesIn]
      | cons w ws => simp [withHashes, hashesIn]

end

/-! ### Payloads -/

/-- What the payloads of a field say if all texts are asked for: nothing, a value, or the texts by locale. -/
inductive Tells (schema : SchemaLayout) (p : PropDef EdgeLayout) (c : Option (Content EdgeNode)) : Value → Prop where
  | nothing : payloads schema p Locale.none c = [] → Tells schema p c .null
  | value {payload : Bytes} {v : Value} : p.type ≠ .text → payloads schema p Locale.none c = [payload] →
      6 + payload.length ≤ contentSize c → p.decodeSeparate payload = .ok v → Tells schema p c v
  | texts {entries : List (UInt8 × String)} {texts : List (String × String)} : p.type = .text → c = some (.text entries) →
      entries ≠ [] → Spelled entries texts → Tells schema p c (.text texts)

section

variable {schema : SchemaLayout} {t : TypeLayout} {locale : UInt8} {n : StoredNode} {p : PropDef EdgeLayout}
  {created updated : List Value}

/-- The types whose fields hold the last value as it is. -/
def plainTypes : List PropType := [.string, .alias, .binary, .vector, .colvec]

/-- The payload of a value of these types says that value. -/
theorem tells_assign (ht : p.type ∈ plainTypes) {v : Value} (hvalid : p.validateBuiltin v = .ok ())
    (c : Option (Content EdgeNode)) : Tells schema p (p.assign locale false v c) v := by
  by_cases hnull : v.isNull = true
  · obtain rfl : v = .null := by cases v <;> first | rfl | cases hnull
    exact .nothing (by simp [PropDef.assign, payloads])
  · have htext : p.type ≠ .text := fun he => by
      rw [he] at ht
      revert ht
      decide
    unfold PropDef.validateBuiltin at hvalid
    rw [if_neg hnull] at hvalid
    have hform : (∃ s, v = .string s ∧ (p.type = .string ∨ p.type = .alias)) ∨ (∃ bs, v = .binary bs ∧ p.type = .binary) ∨
        ∃ xs, v = .vector xs ∧ (p.type = .vector ∨ p.type = .colvec) := by
      simp only [plainTypes, List.mem_cons, List.not_mem_nil, or_false] at ht
      rcases ht with ht | ht | ht | ht | ht <;> simp only [ht] at hvalid <;> cases v <;> first | cases hvalid | simp [ht]
    rcases hform with ⟨s, rfl, ht | ht⟩ | ⟨bs, rfl, ht⟩ | ⟨xs, rfl, ht | ht⟩
    all_goals
      refine .value htext (by simp [PropDef.assign, payloads, ht]; rfl) ?_ ?_
      · simp only [PropDef.assign, ht, contentSize, Option.map_some, Option.getD_some, Content.size, Payload.plain,
          List.length_cons]
        omega
      · simp [PropDef.decodeSeparate, ht, bind, Except.bind, Payload.vector_elements]
        rfl

theorem payloads_texts {entries : List (UInt8 × String)} (h : Assoc.Sorted entries) :
    payloads schema p Locale.none (some (.text entries)) = entries.map fun e => Payload.localized e.1 e.2 := by
  have hfind : ∀ es : List (UInt8 × String), (∀ e ∈ es, e ∈ entries) →
      (es.map Prod.fst).filterMap (fun l => (Assoc.find? l entries).map (Payload.localized l)) =
        es.map fun e => Payload.localized e.1 e.2 := by
    intro es hes
    induction es with
    | nil => rfl
    | cons e es ih =>
      rw [List.map_cons, List.map_cons, List.filterMap_cons, h.find?_of_mem (hes e List.mem_cons_self),
        ih fun e' he' => hes e' (List.mem_cons_of_mem _ he')]
      rfl
  exact hfind entries fun _ he => he

/-- The payloads of a separate field say what was written to it. -/
theorem Holds.tells (h : Holds t locale n p created updated) (hm : p.Measured) {slot : UInt8} (hslot : p.slot? = some slot)
    (href : p.type.isReference = false) (hlocale : locale = Locale.none ∨ ∃ code, Locale.codeOf? locale = some code)
    (hsize : contentSize (n.field? slot) < 2 ^ 32) :
    Tells schema p (n.field? slot) (p.valueAfter (Locale.codeOf? locale) created updated) := by
  have hsep : ¬p.isMain = true := by simp [PropDef.isMain_of_slot? hslot]
  rw [h.separate slot hslot] at hsize ⊢
  rw [PropDef.valueAfter, if_neg hsep]
  by_cases htext : p.type = .text
  · obtain ⟨front, hfront, hspelled⟩ := Spelled.nil.assignAll htext hlocale true (E := EdgeNode)
      fun v hv => h.valid v (List.mem_append_left updated hv)
    obtain ⟨entries, hentries, hspelled⟩ := hspelled.assignAll htext hlocale false (E := EdgeNode)
      fun v hv => h.valid v (List.mem_append_right created hv)
    simp only [htext]
    rw [show (none : Option (Content EdgeNode)) = textContent [] from rfl, hfront, hentries]
    generalize updated.foldl _ _ = texts at hspelled
    match entries with
    | [] =>
      rw [← hspelled.texts]
      exact .nothing rfl
    | e :: es =>
      rw [show textsValue texts = .text texts by rw [← hspelled.texts]; rfl]
      exact .texts htext rfl (List.cons_ne_nil e es) hspelled
  · rw [foldl_assign_create htext h.once] at hsize ⊢
    have hvalid := h.valid
    generalize created ++ updated = written at hvalid hsize
    by_cases hcount : p.type = .cardinality
    · rw [foldl_assign_cardinality hcount] at hsize ⊢
      simp only [hcount]
      match sinceNull written, hsize with
      | [], _ => exact .nothing rfl
      | v :: vs, hsize =>
        have hlen := KeySet.length_insertAll ((v :: vs).flatMap Value.sketchHashes)
        have hbound : ((v :: vs).flatMap Value.sketchHashes).dedup.length < 256 ^ 4 := by
          simp only [contentSize, Option.map_some, Option.getD_some, Content.size] at hsize
          omega
        refine .value htext rfl ?_ ?_
        · simp only [contentSize, Option.map_some, Option.getD_some, Content.size, length_leBytes]
          omega
        rw [PropDef.decodeSeparate]
        simp only [hcount, length_leBytes, List.take_of_length_le (Nat.le_of_eq (length_leBytes 4 _)), hlen,
          leNat_leBytes_of_lt hbound, Nat.lt_irrefl, if_false]
        rfl
    · have hplain : p.type ∈ plainTypes := by
        have hfixed : p.type.fixedWidth = none := by
          cases hw : p.type.fixedWidth with
          | none => rfl
          | some w => exact absurd (hm.fixed w hw).1 hsep
        cases ht : p.type <;> simp_all [plainTypes, PropType.fixedWidth, PropType.isReference]
      have hlast : Tells schema p (written.foldl (fun x v => p.assign locale false v x) none)
          (written.getLast?.getD .null) := by
        rcases List.eq_nil_or_concat written with rfl | ⟨front, v, rfl⟩
        · exact .nothing rfl
        · rw [List.concat_eq_append] at hvalid ⊢
          rw [List.foldl_append, List.getLast?_concat]
          exact tells_assign hplain (hvalid v (by simp)) _
      cases ht : p.type <;> simp only [ht] at htext hcount hplain ⊢ <;> first | exact hlast | contradiction

end

end Write

end NodeStore
