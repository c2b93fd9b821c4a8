import NodeStore.Proofs.Engine.Records
import NodeStore.Proofs.Write.Recall
import NodeStore.Result.Answer

/-!
# Reading a record back

The record that the engine writes is read by the plan of its query to the values that the node holds.

* `run_instrs`: instructions are taken in one after the other.
* `Gathered`: what is known of a record when some of its properties were read; one lemma for each kind of property.
* `decodeBody_everything`: every property that was asked for is found in the record.
-/

namespace NodeStore.Result

open Engine (StoredNode payloadInstrs mainInstrs recordInstrs contentSize Content EdgeNode)
open Query (MainPlan everythingMain everythingFields everythingPlan)
open Wire (Reads)
open Write (Tells Spelled)

/-! ### Instructions -/

namespace Instr

theorem reads_main {block : Bytes} (h : block.length < 2 ^ 32) : Reads read (main block).encode (main block) := by
  rw [encode, ← List.singleton_append]
  refine (Reads.byte _ _).bind ?_
  exact (Reads.sized h _).bind_pure (.pure _)

theorem reads_field (slot : UInt8) {payload : Bytes} (h : payload.length < 2 ^ 32) :
    Reads read (field slot payload).encode (field slot payload) := by
  rw [encode, ← List.singleton_append, ← List.singleton_append (x := slot)]
  refine (Reads.byte _ _).bind ?_
  refine (Reads.byte _ _).bind ?_
  exact (Reads.sized h _).bind_pure (.pure _)

theorem reads_link (slot : UInt8) {body : Bytes} (h : body.length < 2 ^ 32) :
    Reads read (link slot body).encode (link slot body) := by
  rw [encode, ← List.singleton_append, ← List.singleton_append (x := slot)]
  refine (Reads.byte _ _).bind ?_
  exact (Reads.byte _ _).bind ((Reads.sized h _).bind_pure (.pure _))

theorem reads_links (slot : UInt8) {body : Bytes} (h : body.length < 2 ^ 32) :
    Reads read (links slot body).encode (links slot body) := by
  rw [encode, ← List.singleton_append, ← List.singleton_append (x := slot)]
  refine (Reads.byte _ _).bind ?_
  exact (Reads.byte _ _).bind ((Reads.sized h _).bind_pure (.pure _))

theorem reads_edge {body : Bytes} (h : body.length < 2 ^ 32) : Reads read (edge body).encode (edge body) := by
  rw [encode, ← List.singleton_append]
  refine (Reads.byte _ _).bind ?_
  exact (Reads.sized h _).bind_pure (.pure _)

theorem reads_count (slot kind : UInt8) {value : Nat} (h : value < 2 ^ 64) :
    Reads read (count slot kind value).encode (count slot kind value) := by
  rw [encode, ← List.singleton_append, ← List.singleton_append (x := slot), ← List.singleton_append (x := kind)]
  refine (Reads.byte _ _).bind ?_
  exact (Reads.byte _ _).bind ((Reads.byte _ _).bind ((Reads.nat h _).bind_pure (.pure _)))

theorem reads_stop : Reads read stop.encode stop := (Reads.byte _ _).bind_pure (.pure _)

/-- The instruction is no end mark, and a size that it gives has room in eight bytes. -/
def Whole : Instr → Prop
  | stop => False
  | count _ _ value => value < 2 ^ 64
  | main _ | field .. | link .. | links .. | edge _ => True

/-- An instruction is read back. -/
theorem Whole.reads {i : Instr} (h : i.Whole) (hsize : i.encode.length < 2 ^ 32) : i ≠ stop ∧ Reads read i.encode i := by
  have hsized : ∀ bs : Bytes, (Wire.sized bs).length ≤ i.encode.length → bs.length < 2 ^ 32 := fun bs hle => by
    rw [Wire.length_sized] at hle
    omega
  cases i with
  | stop => exact h.elim
  | main block => exact ⟨nofun, reads_main (hsized _ (Nat.le_add_right _ 1))⟩
  | field slot payload => exact ⟨nofun, reads_field slot (hsized _ (Nat.le_add_right _ 2))⟩
  | link slot body => exact ⟨nofun, reads_link slot (hsized _ (Nat.le_add_right _ 2))⟩
  | links slot body => exact ⟨nofun, reads_links slot (hsized _ (Nat.le_add_right _ 2))⟩
  | edge body => exact ⟨nofun, reads_edge (hsized _ (Nat.le_add_right _ 1))⟩
  | count slot kind value => exact ⟨nofun, reads_count slot kind h⟩

end Instr

/-- Instructions are read back. -/
theorem reads_instrs {is : List Instr} (h : ∀ i ∈ is, i.Whole) (hsize : (is.flatMap Instr.encode).length < 2 ^ 32) :
    ∀ i ∈ is, i ≠ .stop ∧ Reads Instr.read i.encode i := fun i hi =>
  (h i hi).reads (Nat.lt_of_le_of_lt (List.sublist_flatten_of_mem (List.mem_map_of_mem hi)).length_le hsize)

/-- Instructions are taken in one after the other up to the end mark. -/
theorem run_instrs (c : Context) {is : List Instr} (h : ∀ i ∈ is, i ≠ .stop ∧ Reads Instr.read i.encode i) (s : Partial)
    (pos : Nat) : c.run s ⟨pos, is.flatMap Instr.encode ++ Instr.stop.encode⟩ = is.foldlM c.step s := by
  induction is generalizing s pos with
  | nil =>
    have hread := Instr.reads_stop pos []
    rw [List.append_nil] at hread
    rw [List.flatMap_nil, List.nil_append, Context.run]
    split <;> rename_i hcase <;> rw [hread] at hcase <;> cases hcase
    · rfl
    · rename_i hne
      exact absurd rfl hne
  | cons i is ih =>
    obtain ⟨hstop, hi⟩ := h i List.mem_cons_self
    have hread := hi pos (is.flatMap Instr.encode ++ Instr.stop.encode)
    rw [List.flatMap_cons, List.append_assoc, Context.run]
    split <;> rename_i hcase <;> rw [hread] at hcase <;> cases hcase
    · exact absurd rfl hstop
    · rw [List.foldlM_cons]
      congr 1
      funext s'
      exact ih (fun j hj => h j (List.mem_cons_of_mem _ hj)) s' _

theorem mem_mainInstrs {main : Bytes} {plan : MainPlan} {i : Instr} (h : i ∈ mainInstrs main plan) :
    ∃ block, i = .main block := by
  cases plan with
  | none => cases h
  | all | props => exact ⟨_, List.mem_singleton.1 h⟩

/-! ### Payloads -/

section

variable {schema : SchemaLayout} {p : PropDef EdgeLayout} {n : StoredNode} {slot : UInt8} {v : Value}

/-- The instructions of a field are no longer than its content. -/
theorem length_payloadInstrs_le (hslot : p.slot? = some slot) (h : Tells schema p (n.field? slot) v) :
    ((payloadInstrs schema n p).flatMap Instr.encode).length ≤ contentSize (n.field? (p.slot?.getD 0)) := by
  rw [payloadInstrs, hslot, Option.getD_some]
  cases h with
  | nothing hnone => simp [hnone]
  | value _ hone hsize _ =>
    rw [hone]
    simp only [List.map_cons, List.map_nil, List.flatMap_singleton, Instr.encode, List.length_cons, Wire.length_sized]
    omega
  | @texts entries _ _ hentries _ hspelled =>
    rw [hentries, Write.payloads_texts hspelled.sorted, List.map_map, List.flatMap_map, List.length_flatMap]
    refine Nat.le_of_eq (congrArg List.sum (List.map_congr_left fun e _ => ?_))
    simp only [Function.comp_apply, Instr.encode, List.length_cons, Wire.length_sized, Payload.localized, Payload.plain]
    omega

theorem Spelled.sorted_texts {entries : List (UInt8 × String)} {texts : List (String × String)} (h : Spelled entries texts) :
    Assoc.Sorted texts := by
  rw [← h.texts]
  refine List.pairwise_map.2 (List.pairwise_map.2 (List.Pairwise.imp_of_mem ?_ (List.pairwise_map.1 h.sorted)))
  intro e e' he he' hlt
  obtain ⟨_, hcode⟩ := h.known e he
  obtain ⟨_, hcode'⟩ := h.known e' he'
  exact Locale.codeOf_lt_codeOf hcode hcode' hlt

/-- The texts are read with their codes. -/
theorem textValue_of_spelled {entries : List (UInt8 × String)} {texts : List (String × String)}
    (h : Spelled entries texts) : textValue schema none entries = .ok (.text texts) := by
  unfold textValue
  refine Except.bind_eq_ok.2 ⟨_, mapM_ok (g := fun e => (Locale.codeOf e.1, e.2)) fun e he => ?_, ?_⟩
  · obtain ⟨code, hcode⟩ := h.known e he
    simp [hcode, Locale.codeOf]
  · rw [h.texts, Assoc.ofList_of_sorted (Spelled.sorted_texts h)]
    rfl

end

/-! ### Records -/

/-- What is known of a record when some of its properties were read, `told` being the values that they have: each value
that is no null is in the record, but for texts, which are kept apart by slot. -/
structure Gathered (schema : SchemaLayout) (t : TypeLayout) (told : PropDef EdgeLayout → Value)
    (read : List (PropDef EdgeLayout)) (s : Partial) : Prop where
  record : ∃ entries, s.record = Record.insertAll entries .empty ∧ (∀ e ∈ entries, ∃ p ∈ t.props, e = (p.path, told p)) ∧
    ∀ p ∈ read, p.type ≠ .text → told p = .null ∨ (p.path, told p) ∈ entries
  texts : ∀ e ∈ s.texts, e.2.1 ∈ t.props ∧ textValue schema none e.2.2 = .ok (told e.2.1)
  text : ∀ p ∈ read, p.type = .text → told p = .null ∨ ∃ e ∈ s.texts, e.2.1 = p
  slots : ∀ e ∈ s.texts, ∃ p ∈ read, p.slot?.getD 0 = e.1

namespace Gathered

variable {schema : SchemaLayout} {t : TypeLayout} {told : PropDef EdgeLayout → Value} {ps : List (PropDef EdgeLayout)}
  {s : Partial} {p : PropDef EdgeLayout}

theorem empty : Gathered schema t told [] .empty where
  record := ⟨[], rfl, by simp, by simp⟩
  texts := by simp [Partial.empty]
  text := by simp
  slots := by simp [Partial.empty]

/-- A value of a property was read. -/
theorem put (h : Gathered schema t told ps s) (hp : p ∈ t.props) (htext : p.type ≠ .text) :
    Gathered schema t told (ps ++ [p]) (s.put p (told p)) := by
  obtain ⟨entries, hrecord, hentries, hall⟩ := h.record
  refine ⟨⟨entries ++ [(p.path, told p)], ?_, fun e he => ?_, fun q hq hqtext => ?_⟩, h.texts, fun q hq hqtext => ?_,
    fun e he => ?_⟩
  · rw [Record.insertAll_append, ← hrecord]
    rfl
  · rcases List.mem_append.1 he with he | he
    · exact hentries e he
    · exact ⟨p, hp, List.mem_singleton.1 he⟩
  · rcases List.mem_append.1 hq with hq | hq
    · exact (hall q hq hqtext).imp_right (List.mem_append_left _)
    · exact .inr (List.mem_append_right _ (by simp [List.mem_singleton.1 hq]))
  · rcases List.mem_append.1 hq with hq | hq
    · exact h.text q hq hqtext
    · exact absurd (List.mem_singleton.1 hq ▸ hqtext) htext
  · obtain ⟨q, hq, hslot⟩ := h.slots e he
    exact ⟨q, List.mem_append_left _ hq, hslot⟩

/-- A property without a value needs no reading. -/
theorem skip (h : Gathered schema t told ps s) (hnull : told p = .null) : Gathered schema t told (ps ++ [p]) s := by
  obtain ⟨entries, hrecord, hentries, hall⟩ := h.record
  refine ⟨⟨entries, hrecord, hentries, fun q hq hqtext => ?_⟩, h.texts, fun q hq hqtext => ?_, fun e he => ?_⟩
  · rcases List.mem_append.1 hq with hq | hq
    · exact hall q hq hqtext
    · exact .inl (List.mem_singleton.1 hq ▸ hnull)
  · rcases List.mem_append.1 hq with hq | hq
    · exact h.text q hq hqtext
    · exact .inl (List.mem_singleton.1 hq ▸ hnull)
  · obtain ⟨q, hq, hslot⟩ := h.slots e he
    exact ⟨q, List.mem_append_left _ hq, hslot⟩

/-- The texts of a property were read. -/
theorem addTexts (h : Gathered schema t told ps s) (hp : p ∈ t.props) (htext : p.type = .text)
    (hslots : ∀ q ∈ ps, q.slot?.getD 0 ≠ p.slot?.getD 0) {entries : List (UInt8 × String)}
    (hvalue : textValue schema none entries = .ok (told p)) :
    Gathered schema t told (ps ++ [p]) { s with texts := Assoc.insert (p.slot?.getD 0) (p, entries) s.texts } := by
  obtain ⟨known, hrecord, hknown, hall⟩ := h.record
  have hfresh : ∀ e ∈ s.texts, e.1 ≠ p.slot?.getD 0 := fun e he hslot => by
    obtain ⟨q, hq, hqslot⟩ := h.slots e he
    exact hslots q hq (hqslot.trans hslot)
  refine ⟨⟨known, hrecord, hknown, fun q hq hqtext => ?_⟩, fun e he => ?_, fun q hq hqtext => ?_, fun e he => ?_⟩
  · rcases List.mem_append.1 hq with hq | hq
    · exact hall q hq hqtext
    · exact absurd htext (List.mem_singleton.1 hq ▸ hqtext)
  · rcases Assoc.mem_insert he with rfl | he
    · exact ⟨hp, hvalue⟩
    · exact h.texts e he
  · rcases List.mem_append.1 hq with hq | hq
    · refine (h.text q hq hqtext).imp_right fun ⟨e, he, heq⟩ => ⟨e, ?_, heq⟩
      exact Assoc.mem_insert_of_ne (hfresh e he) he
    · exact .inr ⟨_, Assoc.mem_of_find? (Assoc.find?_insert_self ..), (List.mem_singleton.1 hq).symm⟩
  · rcases Assoc.mem_insert he with rfl | he
    · exact ⟨p, by simp, rfl⟩
    · obtain ⟨q, hq, hslot⟩ := h.slots e he
      exact ⟨q, List.mem_append_left _ hq, hslot⟩

end Gathered

/-- The node holds these values. -/
structure Shows (schema : SchemaLayout) (t : TypeLayout) (n : StoredNode) (told : PropDef EdgeLayout → Value) : Prop where
  main : ∀ p ∈ t.plainProps, p.isMain = true → p.decodeFixed (p.slice n.main) = .ok (told p)
  separate : ∀ p ∈ t.plainProps, ∀ slot, p.slot? = some slot → Tells schema p (n.field? slot) (told p)

section

variable {schema : SchemaLayout} {t : TypeLayout} {n : StoredNode} {told : PropDef EdgeLayout → Value}
  {ps : List (PropDef EdgeLayout)} {s : Partial} {c : Context}

/-- The record of a node is no longer than the node. -/
theorem length_recordInstrs_le_of_shows (ht : t.Placed) (hk : t.Packed) (hn : n.main.length = t.mainLen)
    (hsorted : Assoc.Sorted n.fields) (h : Shows schema t n told) :
    ((recordInstrs schema t n).flatMap Instr.encode).length ≤ 5 + t.mainLen + n.size := by
  refine Engine.length_recordInstrs_le ht hk hn hsorted fun p hp => ?_
  obtain ⟨-, -, slot, hslot⟩ := Engine.mem_everythingFields hp
  exact length_payloadInstrs_le hslot (h.separate p (List.mem_filter.1 hp).1 slot hslot)

/-! ### Main properties -/

/-- The parts of the main block are read to their values. -/
theorem decodeParts_slices (ht : t.Placed) {block : Bytes} (hblock : block.length = t.mainLen) {qs : List (PropDef EdgeLayout)}
    (hqs : ∀ q ∈ qs, q ∈ t.props ∧ q.isMain = true ∧ q.decodeFixed (q.slice block) = .ok (told q))
    (h : Gathered schema t told ps s) :
    ∃ s', decodeParts s qs (qs.flatMap (·.slice block)) = .ok s' ∧ Gathered schema t told (ps ++ qs) s' := by
  induction qs generalizing ps s with
  | nil => exact ⟨s, rfl, by rwa [List.append_nil]⟩
  | cons q qs ih =>
    obtain ⟨hq, hmain, hdecode⟩ := hqs q List.mem_cons_self
    obtain ⟨a, ha⟩ := PropDef.offset?_of_isMain hmain
    have hlen : (q.slice block).length = q.len := length_slice ha (hblock ▸ ht.inside q hq a ha)
    have htext : q.type ≠ .text := fun he => by
      rw [(ht.measured q hq).separate (by rw [he]; rfl)] at hmain
      cases hmain
    obtain ⟨s', hs', hgathered⟩ := ih (fun q' hq' => hqs q' (List.mem_cons_of_mem _ hq')) (h.put hq htext)
    refine ⟨s', ?_, by simpa using hgathered⟩
    rw [List.flatMap_cons, decodeParts, if_neg (by rw [List.length_append]; omega), List.take_left' hlen, List.drop_left' hlen,
      hdecode]
    exact hs'

theorem isMain_of_mem_plainProps (ht : t.Placed) {p : PropDef EdgeLayout} (hp : p ∈ t.props) (hmain : p.isMain = true) :
    p ∈ t.plainProps := by
  refine List.mem_filter.2 ⟨hp, ?_⟩
  cases href : p.type.isReference with
  | false => rfl
  | true =>
    obtain ⟨slot, hslot⟩ := (ht.measured p hp).slot_of_reference href
    rw [PropDef.isMain_of_slot? hslot] at hmain
    cases hmain

/-- The main block is read to the values of the main properties. -/
theorem foldlM_mainInstrs (ht : t.Placed) (hn : n.main.length = t.mainLen) (hshows : Shows schema t n told)
    (hlayout : c.layout = t) (hplan : c.main = everythingMain t) :
    ∃ s, (mainInstrs n.main (everythingMain t)).foldlM c.step .empty = .ok s ∧
      Gathered schema t told (mainProps t (everythingMain t)) s := by
  rcases Engine.everythingMain_cases t with ⟨hmain, hnil⟩ | ⟨hmain, -⟩ | ⟨ps, hmain, hps, -⟩
  · have hnone : t.mainProps = [] := List.filter_eq_nil_iff.2 fun p hp hmain => by
      have := isMain_of_mem_plainProps ht hp hmain
      rw [hnil] at this
      cases this
    refine ⟨.empty, ?_, by rw [hmain, mainProps, hnone]; exact .empty⟩
    rw [hmain, mainInstrs, List.foldlM_cons, Context.step, hlayout, hplan, hmain, decodeMain, if_neg (not_not_intro hn), hnone]
    rfl
  · exact ⟨.empty, by rw [hmain]; rfl, by rw [hmain]; exact .empty⟩
  · have hqs : ∀ p ∈ ps, p ∈ t.props ∧ p.isMain = true ∧ p.decodeFixed (p.slice n.main) = .ok (told p) := fun p hp => by
      rw [hps] at hp
      obtain ⟨hp, hmain⟩ := List.mem_filter.1 hp
      exact ⟨(List.mem_filter.1 hp).1, hmain, hshows.main p hp hmain⟩
    have hempty : Gathered schema t told [] .empty := .empty
    obtain ⟨s, hs, hgathered⟩ := decodeParts_slices ht hn hqs hempty
    refine ⟨s, ?_, by rw [hmain]; exact hgathered⟩
    rw [hmain, mainInstrs, List.foldlM_cons, Context.step, hlayout, hplan, hmain, decodeMain, hs]
    rfl

/-! ### Separate properties -/

theorem step_field (hlayout : c.layout = t) (ht : t.Placed) {p : PropDef EdgeLayout} (hp : p ∈ t.props) {slot : UInt8}
    (hslot : p.slot? = some slot) (s : Partial) (payload : Bytes) :
    c.step s (.field slot payload) =
      if p.type = .text then do
        let (locale, text) ← Payload.text payload
        return s.putText slot p locale text
      else do return s.put p (← p.decodeSeparate payload) := by
  rw [Context.step, hlayout, propAt, ht.propBySlot? hp hslot]
  rfl

theorem step_localized (hlayout : c.layout = t) (ht : t.Placed) {p : PropDef EdgeLayout} (hp : p ∈ t.props) {slot : UInt8}
    (hslot : p.slot? = some slot) (htext : p.type = .text) (s : Partial) (locale : UInt8) (text : String) :
    c.step s (.field slot (Payload.localized locale text)) = .ok (s.putText slot p locale text) := by
  rw [step_field hlayout ht hp hslot, if_pos htext, Payload.text_localized]
  rfl

/-- Texts are taken in one after the other. -/
theorem foldlM_texts (hlayout : c.layout = t) (ht : t.Placed) {p : PropDef EdgeLayout} (hp : p ∈ t.props) {slot : UInt8}
    (hslot : p.slot? = some slot) (htext : p.type = .text) {entries : List (UInt8 × String)} (hsorted : Assoc.Sorted entries)
    (hne : entries ≠ []) (hfresh : Assoc.find? slot s.texts = none) :
    (entries.map fun e => Instr.field slot (Payload.localized e.1 e.2)).foldlM c.step s =
      .ok { s with texts := Assoc.insert slot (p, entries) s.texts } := by
  obtain ⟨e, es, rfl⟩ := List.exists_cons_of_ne_nil hne
  have hfirst : s.putText slot p e.1 e.2 = { s with texts := Assoc.insert slot (p, [e]) s.texts } := by
    simp [Partial.putText, hfresh, Assoc.insert]
  rw [List.map_cons, List.foldlM_cons, step_localized hlayout ht hp hslot htext, hfirst]
  -- Behind the first one the texts before the next are known.
  suffices hgo : ∀ front : List (UInt8 × String), Assoc.Sorted (front ++ es) →
      (es.map fun e => Instr.field slot (Payload.localized e.1 e.2)).foldlM c.step
          { s with texts := Assoc.insert slot (p, front) s.texts } =
        .ok { s with texts := Assoc.insert slot (p, front ++ es) s.texts } from hgo [e] hsorted
  clear hsorted hfirst hne
  induction es with
  | nil =>
    intro front _
    rw [List.append_nil]
    rfl
  | cons e' es ih =>
    intro front hfront
    have hlt : ∀ x ∈ front, x.1 < e'.1 := fun x hx =>
      (List.pairwise_append.1 (List.pairwise_map.1 hfront)).2.2 x hx e' List.mem_cons_self
    have hnext : Partial.putText { s with texts := Assoc.insert slot (p, front) s.texts } slot p e'.1 e'.2 =
        { s with texts := Assoc.insert slot (p, front ++ [e']) s.texts } := by
      simp [Partial.putText, Assoc.insert_insert, Assoc.insert_of_lt hlt]
    rw [List.map_cons, List.foldlM_cons, step_localized hlayout ht hp hslot htext, hnext]
    refine (ih (front ++ [e']) (by simpa using hfront)).trans ?_
    rw [List.append_assoc, List.singleton_append]

/-- The payloads of a field are read to its value. -/
theorem foldlM_payloadInstrs (hlayout : c.layout = t) (ht : t.Placed) {p : PropDef EdgeLayout} (hp : p ∈ t.props) {slot : UInt8}
    (hslot : p.slot? = some slot) (htells : Tells schema p (n.field? slot) (told p))
    (hslots : ∀ q ∈ ps, q.slot?.getD 0 ≠ p.slot?.getD 0) (h : Gathered schema t told ps s) :
    ∃ s', (payloadInstrs schema n p).foldlM c.step s = .ok s' ∧ Gathered schema t told (ps ++ [p]) s' := by
  rw [payloadInstrs, hslot, Option.getD_some]
  generalize hcontent : n.field? slot = content at htells
  generalize htold : told p = v at htells
  cases htells with
  | nothing hnone =>
    rw [hnone]
    exact ⟨s, rfl, h.skip htold⟩
  | value htext hone _ hdecode =>
    rw [hone, List.map_cons, List.map_nil, List.foldlM_cons, step_field hlayout ht hp hslot, if_neg htext, hdecode]
    exact ⟨s.put p v, rfl, htold ▸ h.put hp htext⟩
  | @texts entries texts htext hentries hne hspelled =>
    have hfresh : Assoc.find? slot s.texts = none := by
      refine Assoc.find?_eq_none_of_notMem fun hmem => ?_
      obtain ⟨e, he, heq⟩ := List.mem_map.1 hmem
      obtain ⟨q, hq, hqslot⟩ := h.slots e he
      exact hslots q hq (by rw [hqslot, heq, hslot, Option.getD_some])
    rw [hentries, Write.payloads_texts hspelled.sorted, List.map_map]
    refine ⟨_, foldlM_texts hlayout ht hp hslot htext hspelled.sorted hne hfresh, ?_⟩
    have hgathered := h.addTexts hp htext hslots ((textValue_of_spelled hspelled).trans (htold ▸ rfl))
    rwa [hslot, Option.getD_some] at hgathered

/-- The separate fields of a record are read to their values. -/
theorem foldlM_fields (hlayout : c.layout = t) (ht : t.Placed) (hshows : Shows schema t n told)
    {qs : List (PropDef EdgeLayout)} (hqs : ∀ q ∈ qs, q ∈ t.plainProps ∧ ∃ slot, q.slot? = some slot)
    (hnodup : (qs.map fun q => q.slot?.getD 0).Nodup)
    (hslots : ∀ p ∈ ps, ∀ q ∈ qs, p.slot?.getD 0 ≠ q.slot?.getD 0) (h : Gathered schema t told ps s) :
    ∃ s', (qs.flatMap (payloadInstrs schema n)).foldlM c.step s = .ok s' ∧ Gathered schema t told (ps ++ qs) s' := by
  induction qs generalizing ps s with
  | nil => exact ⟨s, rfl, by rwa [List.append_nil]⟩
  | cons q qs ih =>
    obtain ⟨hq, slot, hslot⟩ := hqs q List.mem_cons_self
    obtain ⟨hfirst, hnodup⟩ := List.nodup_cons.1 hnodup
    obtain ⟨s₁, hs₁, hgathered₁⟩ := foldlM_payloadInstrs hlayout ht (List.mem_filter.1 hq).1 hslot
      (hshows.separate q hq slot hslot) (fun p hp => hslots p hp q List.mem_cons_self) h
    have hrest : ∀ p ∈ ps ++ [q], ∀ q' ∈ qs, p.slot?.getD 0 ≠ q'.slot?.getD 0 := fun p hp q' hq' => by
      rcases List.mem_append.1 hp with hp | hp
      · exact hslots p hp q' (List.mem_cons_of_mem _ hq')
      · rw [List.mem_singleton.1 hp]
        exact fun he => hfirst (List.mem_map.2 ⟨q', hq', he.symm⟩)
    obtain ⟨s', hs', hgathered⟩ := ih (fun q' hq' => hqs q' (List.mem_cons_of_mem _ hq')) hnodup hrest hgathered₁
    refine ⟨s', ?_, by simpa using hgathered⟩
    rw [List.flatMap_cons, List.foldlM_append, hs₁]
    exact hs'

/-! ### The whole record -/

/-- The texts are put into the record. -/
theorem putTexts_eq_ok {locale : Option UInt8} {f : UInt8 × PropDef EdgeLayout × List (UInt8 × String) → Value}
    (h : ∀ e ∈ s.texts, textValue c.schema locale e.2.2 = .ok (f e)) :
    putTexts c locale s = .ok (Record.insertAll (s.texts.map fun e => (e.2.1.path, f e)) s.record) := by
  have hgo : ∀ (es : List (UInt8 × PropDef EdgeLayout × List (UInt8 × String))) (r : Record), (∀ e ∈ es, e ∈ s.texts) →
      es.foldlM (fun r e => return Record.insertPath (← textValue c.schema locale e.2.2) e.2.1.path r) r =
        .ok (Record.insertAll (es.map fun e => (e.2.1.path, f e)) r) := by
    intro es
    induction es with
    | nil => exact fun _ _ => rfl
    | cons e es ih =>
      intro r hes
      have hvalue := h e (hes e List.mem_cons_self)
      rw [List.foldlM_cons, hvalue]
      exact ih _ fun e' he' => hes e' (List.mem_cons_of_mem _ he')
  exact hgo s.texts s.record fun _ he => he

/-- Each value that was read is in the record; what is missing is null. -/
theorem Gathered.lookup (h : Gathered schema t told ps s) (ha : t.Addressed) (hc : c.schema = schema) :
    ∃ r, putTexts c none s = .ok r ∧ ∀ q ∈ ps, q ∈ t.props → (r.lookup q.path).getD .null = told q := by
  obtain ⟨entries, hrecord, hentries, hall⟩ := h.record
  refine ⟨_, putTexts_eq_ok (f := fun e => told e.2.1) fun e he => hc ▸ (h.texts e he).2, fun q hq hmem => ?_⟩
  rw [hrecord, ← Record.insertAll_append]
  have hagree : ∀ e ∈ entries ++ s.texts.map (fun e => (e.2.1.path, told e.2.1)),
      e = (q.path, told q) ∨ Path.Apart e.1 q.path := by
    intro e he
    obtain ⟨p, hp, rfl⟩ : ∃ p ∈ t.props, e = (p.path, told p) := by
      rcases List.mem_append.1 he with he | he
      · exact hentries e he
      · obtain ⟨x, hx, rfl⟩ := List.mem_map.1 he
        exact ⟨x.2.1, (h.texts x hx).1, rfl⟩
    exact (ha.eq_or_apart hp hmem).imp (fun heq => by rw [heq]) id
  by_cases hfound : (q.path, told q) ∈ entries ++ s.texts.map (fun e => (e.2.1.path, told e.2.1))
  · rw [Record.lookup_insertAll (ha.path_ne_nil hmem) hagree hfound]
    rfl
  · have hnull : told q = .null := by
      by_cases htext : q.type = .text
      · refine (h.text q hq htext).resolve_right fun ⟨e, he, heq⟩ => hfound (List.mem_append_right _ ?_)
        exact List.mem_map.2 ⟨e, he, by rw [heq]⟩
      · exact (hall q hq htext).resolve_right fun hin => hfound (List.mem_append_left _ hin)
    rw [Record.lookup_insertAll_of_apart fun e he => (hagree e he).resolve_left fun heq => hfound (heq ▸ he), hnull]
    have hempty : Record.lookup .empty q.path = none := by
      unfold Record.lookup
      split <;> rfl
    rw [hempty]
    rfl

theorem lookup_fillProp_self {q : PropDef EdgeLayout} (hne : q.path ≠ []) (r : Record) :
    (fillProp r q).lookup q.path = some ((r.lookup q.path).getD .null) := by
  rw [fillProp, Record.hasPath_eq]
  cases hr : r.lookup q.path with
  | none => exact Record.lookup_insertPath_self .null hne r
  | some v => exact hr

/-- A null is stored for a property without a value; other properties are left alone. -/
theorem lookup_fillProps {q : PropDef EdgeLayout} (hne : q.path ≠ [])
    (hps : ∀ p ∈ ps, p = q ∨ Path.Apart p.path q.path) (r : Record) :
    (∀ v, r.lookup q.path = some v → (ps.foldl fillProp r).lookup q.path = some v) ∧
      (q ∈ ps → (ps.foldl fillProp r).lookup q.path = some ((r.lookup q.path).getD .null)) := by
  induction ps generalizing r with
  | nil => exact ⟨fun _ hv => hv, nofun⟩
  | cons p ps ih =>
    obtain ⟨hkeep, hfill⟩ := ih (fun p' hp' => hps p' (List.mem_cons_of_mem _ hp')) (fillProp r p)
    rw [List.foldl_cons]
    rcases hps p List.mem_cons_self with rfl | hapart
    · have hself := lookup_fillProp_self hne r
      exact ⟨fun v hv => hkeep v (by rw [hself, hv]; rfl), fun _ => hkeep _ hself⟩
    · have hsame : (fillProp r p).lookup q.path = r.lookup q.path := by
        unfold fillProp
        split
        · rfl
        · exact Record.lookup_insertPath_of_apart .null hapart r
      rw [hsame] at hkeep hfill
      refine ⟨hkeep, fun hq => hfill ((List.mem_cons.1 hq).resolve_left fun heq => ?_)⟩
      exact hapart.ne (heq ▸ rfl)

theorem mem_mainProps {q : PropDef EdgeLayout} (hq : q ∈ mainProps t (everythingMain t)) : q ∈ t.props ∧ q.isMain = true := by
  rcases Engine.everythingMain_cases t with ⟨hmain, -⟩ | ⟨hmain, -⟩ | ⟨ps, hmain, hps, -⟩ <;> rw [hmain] at hq
  · exact List.mem_filter.1 hq
  · cases hq
  · rw [mainProps, hps] at hq
    obtain ⟨hq, hmain⟩ := List.mem_filter.1 hq
    exact ⟨(List.mem_filter.1 hq).1, hmain⟩

theorem mem_plan {q : PropDef EdgeLayout} (hq : q ∈ mainProps t (everythingMain t) ++ everythingFields t) : q ∈ t.props :=
  (List.mem_append.1 hq).elim (fun hq => (mem_mainProps hq).1) fun hq => (Engine.mem_everythingFields hq).1

theorem mem_plan_of_mem_plainProps {q : PropDef EdgeLayout} (hq : q ∈ t.plainProps) :
    q ∈ mainProps t (everythingMain t) ++ everythingFields t := by
  cases hmain : q.isMain with
  | false => exact List.mem_append_right _ (List.mem_filter.2 ⟨hq, by simp [hmain]⟩)
  | true =>
    refine List.mem_append_left _ ?_
    rcases Engine.everythingMain_cases t with ⟨-, hnil⟩ | ⟨-, hnone⟩ | ⟨ps, heq, hps, -⟩
    · rw [hnil] at hq
      cases hq
    · rw [hnone q hq] at hmain
      cases hmain
    · rw [heq, mainProps, hps]
      exact List.mem_filter.2 ⟨hq, hmain⟩

/-- The record that the engine writes is read to the values that its node holds. -/
theorem decodeBody_everything (ht : t.Placed) (ha : t.Addressed) (hn : n.main.length = t.mainLen)
    (hshows : Shows schema t n told) (hsize : ((recordInstrs schema t n).flatMap Instr.encode).length < 2 ^ 32) :
    ∃ record, decodeBody schema (everythingPlan t) ((recordInstrs schema t n).flatMap Instr.encode ++ Instr.stop.encode) =
        .ok record ∧ ∀ q ∈ t.plainProps, record.lookup q.path = some (told q) := by
  let c : Context := ⟨schema, t, everythingMain t, [], none⟩
  have hwhole : ∀ i ∈ recordInstrs schema t n, i.Whole := fun i hi => by
    rcases List.mem_append.1 hi with hi | hi
    · obtain ⟨block, rfl⟩ := mem_mainInstrs hi
      trivial
    · obtain ⟨p, -, hi⟩ := List.mem_flatMap.1 hi
      obtain ⟨payload, -, rfl⟩ := List.mem_map.1 hi
      trivial
  have hslots : ∀ p ∈ mainProps t (everythingMain t), ∀ q ∈ everythingFields t, p.slot?.getD 0 ≠ q.slot?.getD 0 := by
    intro p hp q hq
    obtain ⟨hq, -, slot, hslot⟩ := Engine.mem_everythingFields hq
    have hnone := PropDef.slot?_of_isMain (mem_mainProps hp).2
    have hpos := (ht.slot_range q hq slot hslot).1
    rw [hnone, hslot]
    rintro rfl
    exact absurd hpos (by decide)
  obtain ⟨s₁, hs₁, hgathered₁⟩ := foldlM_mainInstrs (c := c) ht hn hshows rfl rfl
  obtain ⟨s, hs, hgathered⟩ := foldlM_fields (c := c) rfl ht hshows
    (fun q hq => ⟨(List.mem_filter.1 hq).1, (Engine.mem_everythingFields hq).2.2⟩) (Engine.nodup_everythingFields ht)
    hslots hgathered₁
  have hrun : c.run .empty (.ofBytes ((recordInstrs schema t n).flatMap Instr.encode ++ Instr.stop.encode)) = .ok s := by
    rw [Wire.Reader.ofBytes, run_instrs c (reads_instrs hwhole hsize), recordInstrs, List.foldlM_append, hs₁]
    exact hs
  obtain ⟨r, hr, hlookup⟩ := hgathered.lookup ha (c := c) rfl
  refine ⟨(mainProps t (everythingMain t) ++ everythingFields t).foldl fillProp r, ?_, fun q hq => ?_⟩
  · rw [everythingPlan, decodeBody]
    refine Except.bind_eq_ok.2 ⟨s, hrun, Except.bind_eq_ok.2 ⟨r, hr, ?_⟩⟩
    simp only [fillMissing, fillEdges, List.map_nil, List.append_nil, List.foldl_nil]
    rfl
  · have hmem := mem_plan_of_mem_plainProps hq
    have hprop := mem_plan hmem
    have hagree := fun p hp => ha.eq_or_apart (mem_plan (q := p) hp) hprop
    rw [(lookup_fillProps (ha.path_ne_nil hprop) hagree r).2 hmem, hlookup q hmem hprop]

/-- A framed record is read back. -/
theorem reads_frame (context : String) (id : NodeId) {body : Bytes} (h : body.length < 2 ^ 32) :
    Reads (readFrame context) (frame id body) (id, body) :=
  (Reads.u32 id _).bind ((Reads.sized h _).bind_pure (.pure _))

/-- Framed records are read back one after the other. -/
theorem allFrames_frames {fs : List (NodeId × Bytes)} (h : ∀ f ∈ fs, f.2.length < 2 ^ 32) (pos : Nat) :
    decodeResult.allFrames ⟨pos, (fs.map fun f => frame f.1 f.2).flatten⟩ = .ok fs := by
  induction fs generalizing pos with
  | nil =>
    rw [decodeResult.allFrames]
    rfl
  | cons f fs ih =>
    obtain ⟨id, body⟩ := f
    have hframe := reads_frame "record" id (h _ List.mem_cons_self) pos (fs.map fun f => frame f.1 f.2).flatten
    have hrest := ih (fun f hf => h f (List.mem_cons_of_mem _ hf)) (pos + (frame id body).length)
    have hne : (frame id body ++ (fs.map fun f => frame f.1 f.2).flatten).isEmpty = false := by
      simp [frame, leBytes]
    rw [List.map_cons, List.flatten_cons, decodeResult.allFrames, Wire.Reader.isEmpty, hne, if_neg Bool.false_ne_true]
    split <;> rename_i hcase <;> rw [hframe] at hcase <;> cases hcase
    rw [hrest]
    rfl

/-- A result is read back: the number of matching nodes, and the records. -/
theorem decodeResult_frames (schema : SchemaLayout) (plan : Query.ReadPlan) {total : Nat} (htotal : total < 2 ^ 32)
    {fs : List (NodeId × Bytes)} (h : ∀ f ∈ fs, f.2.length < 2 ^ 32) :
    decodeResult schema plan (leBytes 4 total ++ (fs.map fun f => frame f.1 f.2).flatten) =
      .ok ⟨total, fs.map (decodeNode (decodeBody schema plan))⟩ := by
  have hread := Reads.nat (show total < 256 ^ 4 from htotal) "result total" 0 (fs.map fun f => frame f.1 f.2).flatten
  unfold decodeResult
  rw [Wire.Reader.ofBytes, hread]
  exact Except.bind_eq_ok.2 ⟨_, allFrames_frames h _, rfl⟩

/-- The answer of one record is read back. -/
theorem decodeResult_frame (schema : SchemaLayout) (plan : Query.ReadPlan) (id : NodeId) (body : Bytes)
    (h : body.length < 2 ^ 32) :
    decodeResult schema plan (leBytes 4 1 ++ frame id body) = .ok ⟨1, [decodeNode (decodeBody schema plan) (id, body)]⟩ := by
  have hone : ∀ f ∈ [(id, body)], f.2.length < 2 ^ 32 := fun f hf => List.mem_singleton.1 hf ▸ h
  simpa using decodeResult_frames schema plan (show 1 < 2 ^ 32 by decide) hone

end

end NodeStore.Result
