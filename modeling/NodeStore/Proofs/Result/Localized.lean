import NodeStore.Proofs.Query.Results
import NodeStore.Proofs.Result.Reading

/-!
# Texts in one locale

A query in a locale reads a text as the one in that locale, or in the first of its fallbacks that has one, and as a null
if there is none. What else the record holds has no part in it.

* `chosenText`: that text.
* `step_cases`: what an instruction does, seen from the path of a text; `foldlM_localeInstrs`: the instructions of the text.
* `ReadsText`: a plan for the records of a type, with a text; `decodeBody_text`: the text in the record that is read.
* `decodeBody_texts`: a record of nothing but texts is read.
-/

namespace NodeStore.Result

open Engine (StoredNode mainInstrs localeInstrs payloads localeChain textsIn EdgeFits)
open Query (MainPlan ReadPlan LinkPlan Includes IncludedLink)
open Query.Includes (sizeInstrs Leads)

variable {schema : SchemaLayout} {t : TypeLayout} {p q : PropDef EdgeLayout} {slot locale : UInt8} {c : Context}
  {s s' : Partial} {i : Instr} {n : StoredNode} {path : List String}

/-! ### The text in a locale -/

/-- The text in the locale, or in the first of its fallbacks that has one. -/
def chosenText (schema : SchemaLayout) (locale : UInt8) (entries : List (UInt8 × String)) : Option String :=
  (localeChain schema locale).findSome? (Assoc.find? · entries)

/-- The value of a text that there may be. -/
def shown : Option String → Value
  | some text => .string text
  | none => .null

theorem textValue_locale (hl : locale ≠ Locale.none) (entries : List (UInt8 × String)) :
    textValue schema (some locale) entries = .ok (shown (chosenText schema locale entries)) := by
  rw [textValue, chosenText, localeChain, if_neg hl]
  split <;> rename_i h <;> rw [h] <;> rfl

/-- Only the texts in the locale and its fallbacks count. -/
theorem chosenText_congr {entries entries' : List (UInt8 × String)}
    (h : ∀ l ∈ localeChain schema locale, Assoc.find? l entries = Assoc.find? l entries') :
    chosenText schema locale entries = chosenText schema locale entries' := by
  unfold chosenText
  generalize localeChain schema locale = ls at h
  induction ls with
  | nil => rfl
  | cons l ls ih =>
    rw [List.findSome?_cons, List.findSome?_cons, h l List.mem_cons_self, ih fun l' hl' => h l' (List.mem_cons_of_mem _ hl')]

/-- The property is a text of the type, with its slot. -/
structure TextAt (t : TypeLayout) (p : PropDef EdgeLayout) (slot : UInt8) : Prop where
  mem : p ∈ t.props
  slot : p.slot? = some slot
  type : p.type = .text

/-! ### Instructions seen from a path -/

/-- Two states of a record are the same at a path and in the texts. -/
structure Partial.Alike (path : List String) (s s' : Partial) : Prop where
  record : s'.record.lookup path = s.record.lookup path
  texts : s'.texts = s.texts

namespace Partial.Alike

theorem refl (path : List String) (s : Partial) : s.Alike path s := ⟨rfl, rfl⟩

theorem trans {s'' : Partial} (h : s.Alike path s') (h' : s'.Alike path s'') : s.Alike path s'' :=
  ⟨h'.record.trans h.record, h'.texts.trans h.texts⟩

theorem put (h : Path.Apart q.path path) (v : Value) : s.Alike path (s.put q v) :=
  ⟨Record.lookup_insertPath_of_apart v h _, rfl⟩

end Partial.Alike

theorem decodeParts_alike {qs : List (PropDef EdgeLayout)} (hqs : ∀ q ∈ qs, Path.Apart q.path path) {bs : Bytes}
    (h : decodeParts s qs bs = .ok s') : s.Alike path s' := by
  induction qs generalizing s bs with
  | nil =>
    cases bs with
    | nil => cases h; exact .refl ..
    | cons b bs => cases h
  | cons q qs ih =>
    rw [decodeParts] at h
    split at h
    · cases h
    · obtain ⟨v, -, h⟩ := Except.bind_eq_ok.1 h
      exact (Partial.Alike.put (hqs q List.mem_cons_self) v).trans (ih (fun q' hq' => hqs q' (List.mem_cons_of_mem _ hq')) h)

theorem decodeMain_alike {plan : MainPlan} (hplan : ∀ q ∈ mainProps t plan, Path.Apart q.path path) {bs : Bytes}
    (h : decodeMain t plan bs s = .ok s') : s.Alike path s' := by
  cases plan with
  | none => cases h
  | props qs => exact decodeParts_alike hplan h
  | all =>
    rw [decodeMain] at h
    split at h
    · cases h
    · refine foldlM_invariant (P := fun s' => s.Alike path s') h (.refl ..) fun q hq s₁ s₂ hs h => ?_
      obtain ⟨v, -, h⟩ := Except.bind_eq_ok.1 h
      cases h
      exact hs.trans (.put (hplan q hq) v)

/-- The context reads the records of a type. -/
structure Context.Of (c : Context) (t : TypeLayout) : Prop where
  layout : c.layout = t
  main : ∀ q ∈ mainProps t c.main, q ∈ t.props ∧ q.isMain = true
  links : ∀ e ∈ c.links, e.2.1 ∈ t.props ∧ e.2.1.type.isReference = true
  edges : c.edges = none

/-- The instruction stores no size on the way to a path. -/
def Instr.Clear (t : TypeLayout) (path : List String) : Instr → Prop
  | .count slot _ _ => ∀ q, t.propBySlot? slot = some q → path.head? ≠ some (countKey q)
  | _ => True

/-- What an instruction does, seen from the path of a text: nothing, or it takes in a text in one locale. -/
theorem step_cases (hc : c.Of t) (ha : t.Addressed) (hp : TextAt t p slot) (hi : i.Clear t p.path) (h : c.step s i = .ok s') :
    s.Alike p.path s' ∨ ∃ slot' payload q l text, i = .field slot' payload ∧ q ∈ t.props ∧ q.slot? = some slot' ∧
      Payload.text payload = .ok (l, text) ∧ s' = s.putText slot' q l text := by
  have hapart : ∀ q ∈ t.props, q ≠ p → Path.Apart q.path p.path := fun q hq hne => (ha.eq_or_apart hq hp.mem).resolve_left hne
  have hlink : ∀ {slot' : UInt8} {e : PropDef EdgeLayout × Decoder}, c.link slot' = .ok e → Path.Apart e.1.path p.path := by
    intro slot' e he
    unfold Context.link at he
    split at he
    · rename_i hfind
      cases he
      obtain ⟨hq, href⟩ := hc.links _ (Assoc.mem_of_find? hfind)
      refine hapart _ hq fun heq => ?_
      rw [heq, hp.type] at href
      cases href
    · cases he
  cases i with
  | stop =>
    cases h
    exact .inl (.refl ..)
  | main block =>
    rw [Context.step, hc.layout] at h
    refine .inl (decodeMain_alike (fun q hq => ?_) h)
    obtain ⟨hq, hmain⟩ := hc.main q hq
    refine hapart q hq fun heq => ?_
    rw [heq, PropDef.isMain_of_slot? hp.slot] at hmain
    cases hmain
  | field slot' payload =>
    rw [Context.step, hc.layout, propAt] at h
    cases hq : t.propBySlot? slot' with
    | none =>
      rw [hq] at h
      cases h
    | some q =>
      obtain ⟨hmem, hqslot⟩ := Layout.mem_of_propBySlot? hq
      simp only [hq, bind, Except.bind] at h
      split at h
      · obtain ⟨⟨l, text⟩, hpayload, h⟩ := Except.bind_eq_ok.1 h
        cases h
        exact .inr ⟨slot', payload, q, l, text, rfl, hmem, hqslot, hpayload, rfl⟩
      · rename_i hqtext
        obtain ⟨v, -, h⟩ := Except.bind_eq_ok.1 h
        cases h
        exact .inl (.put (hapart q hmem fun heq => hqtext (heq ▸ hp.type)) v)
  | link slot' body | links slot' body =>
    rw [Context.step] at h
    obtain ⟨⟨q, decode⟩, hq, h⟩ := Except.bind_eq_ok.1 h
    obtain ⟨v, -, h⟩ := Except.bind_eq_ok.1 h
    cases h
    exact .inl (.put (hlink hq) v)
  | edge body =>
    rw [Context.step, hc.edges] at h
    cases h
  | count slot' kind value =>
    rw [Context.step, hc.layout, propAt] at h
    split at h
    · cases h
    · cases hq : t.propBySlot? slot' with
      | none =>
        rw [hq] at h
        cases h
      | some q =>
        rw [hq] at h
        cases h
        exact .inl ⟨Record.lookup_insert_of_ne (hi q hq) _ _, rfl⟩

/-! ### Texts by slot -/

/-- The texts that are known for a slot. -/
def Partial.known (s : Partial) (slot : UInt8) : List (UInt8 × String) := ((Assoc.find? slot s.texts).map (·.2)).getD []

/-- Nothing is stored at a path yet, and texts wait at the slots of their properties. -/
structure Pending (t : TypeLayout) (path : List String) (s : Partial) : Prop where
  record : s.record.lookup path = none
  sorted : Assoc.Sorted s.texts
  slots : ∀ e ∈ s.texts, e.2.1 ∈ t.props ∧ e.2.1.slot? = some e.1

theorem pending_empty (t : TypeLayout) (path : List String) : Pending t path .empty where
  record := by
    unfold Partial.empty Record.lookup
    split <;> rfl
  sorted := List.Pairwise.nil
  slots _ he := absurd he List.not_mem_nil

theorem Partial.Alike.known (h : s.Alike path s') (slot : UInt8) : s'.known slot = s.known slot := by
  rw [Partial.known, h.texts, Partial.known]

theorem Partial.known_putText (s : Partial) (slot slot' : UInt8) (q : PropDef EdgeLayout) (l : UInt8) (text : String) :
    (s.putText slot' q l text).known slot = if slot = slot' then Assoc.insert l text (s.known slot) else s.known slot := by
  simp only [Partial.known, Partial.putText, Assoc.find?_insert]
  split <;> rename_i h
  · rw [h]
    rfl
  · rfl

theorem Pending.alike (hs : Pending t path s) (h : s.Alike path s') : Pending t path s' where
  record := h.record.trans hs.record
  sorted := by
    rw [h.texts]
    exact hs.sorted
  slots := by
    rw [h.texts]
    exact hs.slots

theorem Pending.putText (hs : Pending t path s) (hq : q ∈ t.props) (hslot : q.slot? = some slot) (l : UInt8) (text : String) :
    Pending t path (s.putText slot q l text) where
  record := hs.record
  sorted := hs.sorted.insert _ _
  slots e he := by
    rcases Assoc.mem_insert he with rfl | he
    exacts [⟨hq, hslot⟩, hs.slots e he]

/-- An instruction keeps a text pending, and adds to it only if it is one of its own. -/
theorem Pending.step (hc : c.Of t) (ha : t.Addressed) (hp : TextAt t p slot) (hi : i.Clear t p.path)
    (hs : Pending t p.path s) (h : c.step s i = .ok s') :
    Pending t p.path s' ∧ ((∀ payload, i ≠ .field slot payload) → s'.known slot = s.known slot) := by
  rcases step_cases hc ha hp hi h with halike | ⟨slot', payload, q, l, text, rfl, hq, hqslot, -, rfl⟩
  · exact ⟨hs.alike halike, fun _ => halike.known slot⟩
  · refine ⟨hs.putText hq hqslot l text, fun hne => ?_⟩
    rw [Partial.known_putText, if_neg fun heq => hne payload (by rw [heq])]

/-- Instructions of other properties leave a text alone. -/
theorem Pending.foldlM (hc : c.Of t) (ha : t.Addressed) (hp : TextAt t p slot) {is : List Instr}
    (hi : ∀ i ∈ is, i.Clear t p.path) (hs : Pending t p.path s) (h : is.foldlM c.step s = .ok s') :
    Pending t p.path s' ∧ ((∀ i ∈ is, ∀ payload, i ≠ .field slot payload) → s'.known slot = s.known slot) := by
  induction is generalizing s with
  | nil =>
    cases h
    exact ⟨hs, fun _ => rfl⟩
  | cons i is ih =>
    rw [List.foldlM_cons] at h
    obtain ⟨s₁, h₁, h⟩ := Except.bind_eq_ok.1 h
    obtain ⟨hs₁, hknown₁⟩ := hs.step hc ha hp (hi i List.mem_cons_self) h₁
    obtain ⟨hs', hknown'⟩ := ih (fun j hj => hi j (List.mem_cons_of_mem _ hj)) hs₁ h
    refine ⟨hs', fun hne => ?_⟩
    rw [hknown' fun j hj => hne j (List.mem_cons_of_mem _ hj), hknown₁ (hne i List.mem_cons_self)]

/-! ### The instructions of the text -/

/-- The payloads of a text in a locale are its texts in the locale and in its fallbacks. -/
theorem localeInstrs_text (ht : t.Placed) (hp : TextAt t p slot) (hl : locale ≠ Locale.none) (hn : n.Fits EdgeFits t) :
    localeInstrs schema locale n p = (localeChain schema locale).filterMap fun l =>
      (Assoc.find? l (textsIn (n.field? slot))).map fun text => .field slot (Payload.localized l text) := by
  have hpayloads : payloads schema p locale (n.field? slot) = (localeChain schema locale).filterMap fun l =>
      (Assoc.find? l (textsIn (n.field? slot))).map (Payload.localized l) := by
    cases hcontent : n.field? slot with
    | none => simp [payloads, textsIn]
    | some content =>
      have hfits := hn.content ht hp.mem hp.slot hcontent
      cases content with
      | text entries => simp only [payloads, if_neg hl, textsIn]
      | bytes bs => simp [Engine.Content.Fits, hp.type] at hfits
      | sketch hashes => simp [Engine.Content.Fits, hp.type] at hfits
      | ref l => simp [Engine.Content.Fits, hp.type] at hfits
      | refs ls => simp [Engine.Content.Fits, hp.type] at hfits
  rw [localeInstrs, hp.slot, Option.getD_some, hpayloads, List.map_filterMap]
  simp only [Option.map_map, Function.comp_def]

/-- The texts in some locales are taken in. -/
theorem foldlM_localeInstrs (hlayout : c.layout = t) (ht : t.Placed) (hp : TextAt t p slot) (entries : List (UInt8 × String))
    (ls : List UInt8)
    (hs : ∀ l text, Assoc.find? l (s.known slot) = some text → Assoc.find? l entries = some text) :
    ∃ s', (ls.filterMap fun l => (Assoc.find? l entries).map fun text => Instr.field slot (Payload.localized l text)).foldlM
        c.step s = .ok s' ∧
      (∀ l text, Assoc.find? l (s'.known slot) = some text → Assoc.find? l entries = some text) ∧
      ∀ l, (l ∈ ls ∨ Assoc.find? l (s.known slot) = Assoc.find? l entries) →
        Assoc.find? l (s'.known slot) = Assoc.find? l entries := by
  induction ls generalizing s with
  | nil => exact ⟨s, rfl, hs, fun l hl => hl.resolve_left List.not_mem_nil⟩
  | cons l ls ih =>
    cases hfind : Assoc.find? l entries with
    | none =>
      obtain ⟨s', hs', hsome, heq⟩ := ih hs
      refine ⟨s', ?_, hsome, fun l' hl' => heq l' ?_⟩
      · rw [List.filterMap_cons_none (by rw [hfind]; rfl)]
        exact hs'
      · rcases hl' with hmem | hknown
        · rcases List.mem_cons.1 hmem with rfl | hmem
          · refine .inr ?_
            rw [hfind]
            exact Option.eq_none_iff_forall_ne_some.2 fun text htext => by
              rw [hs _ _ htext] at hfind
              cases hfind
          · exact .inl hmem
        · exact .inr hknown
    | some text =>
      have hknown : (s.putText slot p l text).known slot = Assoc.insert l text (s.known slot) := by
        rw [Partial.known_putText, if_pos rfl]
      have hstep : ∀ l' text', Assoc.find? l' ((s.putText slot p l text).known slot) = some text' →
          Assoc.find? l' entries = some text' := fun l' text' h => by
        rw [hknown, Assoc.find?_insert] at h
        split at h
        · rename_i heq
          cases h
          rw [heq, hfind]
        · exact hs l' text' h
      obtain ⟨s', hs', hsome, heq⟩ := ih hstep
      refine ⟨s', ?_, hsome, fun l' hl' => heq l' ?_⟩
      · rw [List.filterMap_cons_some (by rw [hfind]; rfl), List.foldlM_cons, step_localized hlayout ht hp.mem hp.slot hp.type]
        exact hs'
      · rw [hknown, Assoc.find?_insert]
        split
        · rename_i heq
          exact .inr (by rw [heq, hfind])
        · rename_i hne
          exact hl'.imp_left fun hmem => (List.mem_cons.1 hmem).resolve_left hne

/-! ### The whole record -/

/-- The plan is one for the records of a type. -/
structure PlanFor (t : TypeLayout) (plan : ReadPlan) : Prop where
  layout : plan.layout = t
  main : ∀ q ∈ mainProps t plan.main, q ∈ t.props ∧ q.isMain = true
  fields : plan.fields.Sublist t.props
  separate : ∀ q ∈ plan.fields, q.isMain = false
  links : ∀ l ∈ plan.links, l.prop ∈ t.props ∧ l.prop.type.isReference = true
  edges : plan.edges = none
  counts : ∀ q ∈ plan.counts, q ∈ t.props

theorem mem_linkPlans {requested : Option UInt8} {links : List (Nat × IncludedLink Includes)} {l : LinkPlan ReadPlan}
    (h : l ∈ Includes.linkPlans requested links) : ∃ e ∈ links, e.2.prop = l.prop := by
  induction links with
  | nil => cases h
  | cons e links ih =>
    rcases List.mem_cons.1 h with rfl | h
    · exact ⟨e, List.mem_cons_self, rfl⟩
    · obtain ⟨e', he', heq⟩ := ih h
      exact ⟨e', List.mem_cons_of_mem _ he', heq⟩

/-- The plan of the fields that a query includes is one for the records of its type. -/
theorem planFor_plan {included : Includes} (h : Includes.Over (.ofType schema t) included) (requested : Option UInt8) :
    PlanFor t (included.plan (.ofType schema t) requested) := by
  obtain ⟨hchosen, hlinks, -⟩ := Includes.over_iff.1 h
  obtain ⟨chosen, links, edges, counts⟩ := included
  have hsub : (Includes.propsAt (.ofType schema t) chosen).Sublist t.props := Includes.propsAt_sublist hchosen
  refine ⟨rfl, fun q hq => ?_, List.filter_sublist.trans hsub, fun q hq => ?_, fun l hl => ?_, ?_, fun q hq => ?_⟩
  · change q ∈ mainProps t (Includes.mainPlan _ _) at hq
    unfold Includes.mainPlan at hq
    split at hq
    · exact List.mem_filter.1 hq
    · split at hq
      · cases hq
      · obtain ⟨hq, hmain⟩ := List.mem_filter.1 hq
        exact ⟨hsub.subset hq, hmain⟩
  · simpa using (List.mem_filter.1 hq).2
  · obtain ⟨e, he, heq⟩ := mem_linkPlans hl
    exact heq ▸ ⟨(hlinks e he).mem, (hlinks e he).reference⟩
  · cases edges <;> rfl
  · obtain ⟨k, -, hk⟩ := List.mem_filterMap.1 hq
    exact List.mem_of_getElem? hk

/-- The plan is one for the records of a type, with a text in a locale. -/
structure ReadsText (t : TypeLayout) (plan : ReadPlan) (locale : UInt8) (p : PropDef EdgeLayout) (slot : UInt8) : Prop
    extends PlanFor t plan where
  requested : plan.locale = some locale
  locale : locale ≠ Locale.none
  included : p ∈ plan.fields
  text : TextAt t p slot
  /-- The size of no collection is stored on the way to the text. -/
  spared : ∀ q ∈ plan.counts, p.path.head? ≠ some (countKey q)

/-- What the instructions of a record are read in. -/
def ReadContext (schema : SchemaLayout) (plan : ReadPlan) : Context :=
  ⟨schema, plan.layout, plan.main, linkDecoders schema plan.links, edgeDecoder schema plan.edges⟩

theorem mem_linkDecoders {links : List (LinkPlan ReadPlan)} {e : UInt8 × PropDef EdgeLayout × Decoder}
    (h : e ∈ linkDecoders schema links) : ∃ l ∈ links, l.prop = e.2.1 := by
  induction links with
  | nil => cases h
  | cons l links ih =>
    rcases List.mem_cons.1 h with rfl | h
    · exact ⟨l, List.mem_cons_self, rfl⟩
    · obtain ⟨l', hl', heq⟩ := ih h
      exact ⟨l', List.mem_cons_of_mem _ hl', heq⟩

theorem PlanFor.context {plan : ReadPlan} (h : PlanFor t plan) : (ReadContext schema plan).Of t where
  layout := h.layout
  main := h.main
  links e he := by
    obtain ⟨l, hl, heq⟩ := mem_linkDecoders he
    exact heq ▸ h.links l hl
  edges := by
    rw [ReadContext, h.edges]
    rfl

/-- The instructions of a record by a plan, with those of what its links lead to. -/
def planInstrs (schema : SchemaLayout) (locale : UInt8) (n : StoredNode) (plan : ReadPlan) (linked : List Instr) : List Instr :=
  mainInstrs n.main plan.main ++ plan.fields.flatMap (localeInstrs schema locale n) ++ linked ++ sizeInstrs n plan.counts

theorem planInstrs_whole (hn : n.Fits EdgeFits t) (plan : ReadPlan) {linked : List Instr} (hlinked : ∀ i ∈ linked, Leads i) :
    ∀ i ∈ planInstrs schema locale n plan linked, i.Whole := fun i hi => by
  simp only [planInstrs, List.mem_append] at hi
  rcases hi with ((hi | hi) | hi) | hi
  · obtain ⟨block, rfl⟩ := mem_mainInstrs hi
    trivial
  · obtain ⟨q, -, hi⟩ := List.mem_flatMap.1 hi
    obtain ⟨payload, -, rfl⟩ := List.mem_map.1 hi
    trivial
  · have hleads := hlinked i hi
    cases i with
    | link | links | edge => trivial
    | main | field | count | stop => exact hleads.elim
  · obtain ⟨q, -, rfl⟩ := List.mem_map.1 hi
    exact Nat.lt_of_le_of_lt (hn.length_links_le _) (by decide)

theorem planInstrs_clear (schema : SchemaLayout) (locale : UInt8) (n : StoredNode) (ht : t.Placed) {plan : ReadPlan} (hplan : PlanFor t plan)
    (hcounts : ∀ q ∈ plan.counts, path.head? ≠ some (countKey q)) {linked : List Instr} (hlinked : ∀ i ∈ linked, Leads i) :
    ∀ i ∈ planInstrs schema locale n plan linked, i.Clear t path := fun i hi => by
  simp only [planInstrs, List.mem_append] at hi
  rcases hi with ((hi | hi) | hi) | hi
  · obtain ⟨block, rfl⟩ := mem_mainInstrs hi
    trivial
  · obtain ⟨q, -, hi⟩ := List.mem_flatMap.1 hi
    obtain ⟨payload, -, rfl⟩ := List.mem_map.1 hi
    trivial
  · have hleads := hlinked i hi
    cases i with
    | count => exact hleads.elim
    | link | links | edge | main | field | stop => trivial
  · obtain ⟨q, hq, rfl⟩ := List.mem_map.1 hi
    intro q' hq'
    obtain ⟨hmem', hslot'⟩ := Layout.mem_of_propBySlot? hq'
    cases hslot : q.slot? with
    | none =>
      rw [hslot] at hslot'
      exact absurd (ht.slot_range q' hmem' _ hslot').1 (by decide)
    | some slot =>
      rw [hslot, Option.getD_some] at hslot'
      exact ht.slot_unique (hplan.counts q hq) hmem' hslot hslot' ▸ hcounts q hq

/-- The instructions of a record are taken in one after the other, and what did not come is filled in. -/
theorem decodeBody_instrs {plan : ReadPlan} {is : List Instr} (hwhole : ∀ i ∈ is, i.Whole)
    (hsize : (is.flatMap Instr.encode).length < 2 ^ 32) :
    decodeBody schema plan (is.flatMap Instr.encode ++ Instr.stop.encode) = do
      let s ← is.foldlM (ReadContext schema plan).step .empty
      return fillMissing plan (← putTexts (ReadContext schema plan) plan.locale s) := by
  obtain ⟨layout, main, fields, links, edges, counts, locale⟩ := plan
  rw [decodeBody, Wire.Reader.ofBytes, run_instrs _ (reads_instrs hwhole hsize)]
  rfl

/-- The text that was read is put into the record. -/
theorem Pending.lookup (ht : t.Placed) (ha : t.Addressed) (hp : TextAt t p slot) (hs : Pending t p.path s) :
    ((Record.insertAll (s.texts.map fun e => (e.2.1.path, shown (chosenText schema locale e.2.2))) s.record).lookup
      p.path).getD .null = shown (chosenText schema locale (s.known slot)) := by
  have hagree : ∀ e ∈ s.texts, e = (slot, p, s.known slot) ∨ Path.Apart e.2.1.path p.path := fun e he => by
    obtain ⟨hq, hqslot⟩ := hs.slots e he
    refine (ha.eq_or_apart hq hp.mem).imp_left fun heq => ?_
    obtain ⟨slot', q, entries⟩ := e
    obtain rfl : q = p := heq
    obtain rfl : slot' = slot := Option.some.inj (hqslot.symm.trans hp.slot)
    rw [Partial.known, hs.sorted.find?_of_mem he]
    rfl
  have hpath := ha.path_ne_nil hp.mem
  cases hfind : Assoc.find? slot s.texts with
  | some e =>
    obtain ⟨q, entries⟩ := e
    have hmem := Assoc.mem_of_find? hfind
    obtain ⟨hq, hqslot⟩ := hs.slots _ hmem
    obtain rfl : q = p := ht.slot_unique hq hp.mem hqslot hp.slot
    have hentries : ∀ e ∈ s.texts.map fun e => (e.2.1.path, shown (chosenText schema locale e.2.2)),
        e = (q.path, shown (chosenText schema locale (s.known slot))) ∨ Path.Apart e.1 q.path := fun e he => by
      obtain ⟨e', he', rfl⟩ := List.mem_map.1 he
      exact (hagree e' he').imp_left fun heq => by rw [heq]
    have hin : (q.path, shown (chosenText schema locale (s.known slot))) ∈
        s.texts.map fun e => (e.2.1.path, shown (chosenText schema locale e.2.2)) :=
      List.mem_map.2 ⟨_, hmem, by rw [Partial.known, hfind]; rfl⟩
    rw [Record.lookup_insertAll hpath hentries hin]
    rfl
  | none =>
    have hnone : ∀ e ∈ s.texts, Path.Apart e.2.1.path p.path := fun e he => (hagree e he).resolve_left fun heq => by
      rw [heq] at he
      rw [hs.sorted.find?_of_mem he] at hfind
      cases hfind
    rw [Record.lookup_insertAll_of_apart (fun e he => ?_), hs.record, Partial.known, hfind]
    · have hempty : chosenText schema locale [] = none := by simp [chosenText, Assoc.find?]
      exact (congrArg shown hempty).symm
    · obtain ⟨e', he', rfl⟩ := List.mem_map.1 he
      exact hnone e' he'

/-- Sizes that are filled in elsewhere are not seen. -/
theorem lookup_fillCounts {qs : List (PropDef EdgeLayout)} (hqs : ∀ q ∈ qs, path.head? ≠ some (countKey q)) (r : Record) :
    ((qs.map countKey).foldl (fillKey (.int 0)) r).lookup path = r.lookup path := by
  induction qs generalizing r with
  | nil => rfl
  | cons q qs ih =>
    rw [List.map_cons, List.foldl_cons, ih fun q' hq' => hqs q' (List.mem_cons_of_mem _ hq'), fillKey]
    split
    · rfl
    · exact Record.lookup_insert_of_ne (hqs q List.mem_cons_self) _ _

/-- A field that was asked for is in the record, as a null if it did not come. -/
theorem lookup_fillMissing (ha : t.Addressed) {plan : ReadPlan} (hplan : ReadsText t plan locale p slot) (r : Record) :
    (fillMissing plan r).lookup p.path = some ((r.lookup p.path).getD .null) := by
  obtain ⟨layout, main, fields, links, edges, counts, requested⟩ := plan
  obtain rfl : layout = t := hplan.layout
  obtain rfl : edges = none := hplan.edges
  have hmem := hplan.text.mem
  have hprops : ∀ q ∈ mainProps layout main ++ fields ++ links.map (·.prop), q ∈ layout.props := fun q hq => by
    rcases List.mem_append.1 hq with hq | hq
    · exact (List.mem_append.1 hq).elim (fun hq => (hplan.main q hq).1) fun hq => hplan.fields.subset hq
    · obtain ⟨l, hl, rfl⟩ := List.mem_map.1 hq
      exact (hplan.links l hl).1
  have hfill := (lookup_fillProps (ha.path_ne_nil hmem) (fun q hq => ha.eq_or_apart (hprops q hq) hmem) r).2
    (List.mem_append_left _ (List.mem_append_right _ hplan.included))
  rw [fillMissing, fillEdges, lookup_fillCounts hplan.spared, hfill]

/-- The instructions of a text stand together in those of the record, and the others are about other slots. -/
theorem planInstrs_split (schema : SchemaLayout) (n : StoredNode) (ht : t.Placed) {plan : ReadPlan}
    (hplan : ReadsText t plan locale p slot) {linked : List Instr} (hlinked : ∀ i ∈ linked, Leads i) :
    ∃ front back, planInstrs schema locale n plan linked = front ++ (localeInstrs schema locale n p ++ back) ∧
      (∀ i ∈ front, ∀ payload, i ≠ .field slot payload) ∧ ∀ i ∈ back, ∀ payload, i ≠ .field slot payload := by
  obtain ⟨before, behind, hfields⟩ := List.append_of_mem hplan.included
  have hnodup := Engine.nodup_slots ht hplan.fields hplan.separate
  rw [hfields, List.map_append, List.map_cons, List.nodup_middle, List.nodup_cons, ← List.map_append, hplan.text.slot] at hnodup
  have hother : ∀ q ∈ before ++ behind, ∀ i ∈ localeInstrs schema locale n q, ∀ payload, i ≠ .field slot payload :=
    fun q hq i hi payload heq => by
      obtain ⟨payload', -, rfl⟩ := List.mem_map.1 hi
      cases heq
      exact hnodup.1 (List.mem_map_of_mem (f := fun q : PropDef EdgeLayout => q.slot?.getD 0) hq)
  refine ⟨mainInstrs n.main plan.main ++ before.flatMap (localeInstrs schema locale n),
    behind.flatMap (localeInstrs schema locale n) ++ linked ++ sizeInstrs n plan.counts, ?_, fun i hi payload => ?_,
    fun i hi payload => ?_⟩
  · simp only [planInstrs, hfields, List.flatMap_append, List.flatMap_cons, List.append_assoc]
  · rcases List.mem_append.1 hi with hi | hi
    · obtain ⟨block, rfl⟩ := mem_mainInstrs hi
      intro heq
      cases heq
    · obtain ⟨q, hq, hi⟩ := List.mem_flatMap.1 hi
      exact hother q (List.mem_append_left _ hq) i hi payload
  · simp only [List.mem_append] at hi
    rcases hi with (hi | hi) | hi
    · obtain ⟨q, hq, hi⟩ := List.mem_flatMap.1 hi
      exact hother q (List.mem_append_right _ hq) i hi payload
    · rintro rfl
      exact hlinked _ hi
    · obtain ⟨q, -, rfl⟩ := List.mem_map.1 hi
      intro heq
      cases heq

/-- The instructions of a record leave the path of a text alone, and its texts in the locale and in the fallbacks are known
behind them. -/
theorem foldlM_planInstrs (ht : t.Placed) (ha : t.Addressed) {plan : ReadPlan} (hplan : ReadsText t plan locale p slot)
    (hn : n.Fits EdgeFits t) {linked : List Instr} (hlinked : ∀ i ∈ linked, Leads i)
    (hrun : (planInstrs schema locale n plan linked).foldlM (ReadContext schema plan).step .empty = .ok s) :
    Pending t p.path s ∧
      ∀ l ∈ localeChain schema locale, Assoc.find? l (s.known slot) = Assoc.find? l (textsIn (n.field? slot)) := by
  have hp := hplan.text
  have hc : (ReadContext schema plan).Of t := hplan.context
  have hclear := planInstrs_clear schema locale n ht hplan.toPlanFor hplan.spared hlinked
  refine ⟨((pending_empty t p.path).foldlM hc ha hp hclear hrun).1, ?_⟩
  obtain ⟨front, back, hsplit, hfront, hback⟩ := planInstrs_split schema n ht hplan hlinked
  rw [hsplit] at hrun hclear
  obtain ⟨hclear₁, hclear⟩ := List.forall_mem_append.1 hclear
  obtain ⟨hclear₂, hclear₃⟩ := List.forall_mem_append.1 hclear
  rw [List.foldlM_append] at hrun
  obtain ⟨s₁, h₁, hrun⟩ := Except.bind_eq_ok.1 hrun
  rw [List.foldlM_append] at hrun
  obtain ⟨s₂, h₂, h₃⟩ := Except.bind_eq_ok.1 hrun
  -- Nothing is known in front of the texts, and behind them nothing is added.
  obtain ⟨hs₁, hknown₁⟩ := (pending_empty t p.path).foldlM hc ha hp hclear₁ h₁
  obtain ⟨hs₂, -⟩ := hs₁.foldlM hc ha hp hclear₂ h₂
  obtain ⟨-, hknown₃⟩ := hs₂.foldlM hc ha hp hclear₃ h₃
  have hnone : s₁.known slot = [] := hknown₁ hfront
  rw [localeInstrs_text ht hp hplan.locale hn] at h₂
  obtain ⟨s', hs', -, hfind⟩ := foldlM_localeInstrs hc.layout ht hp (textsIn (n.field? slot))
    (localeChain schema locale) (s := s₁) fun l text h => by rw [hnone] at h; cases h
  obtain rfl : s' = s₂ := Except.ok.inj (hs'.symm.trans h₂)
  exact fun l hl => hknown₃ hback ▸ hfind l (.inl hl)

/-- The record that is read shows the text in the locale, or in the first of its fallbacks that has one. -/
theorem decodeBody_text (ht : t.Placed) (ha : t.Addressed) {plan : ReadPlan} (hplan : ReadsText t plan locale p slot)
    (hn : n.Fits EdgeFits t) {linked : List Instr} (hlinked : ∀ i ∈ linked, Leads i)
    (hsize : ((planInstrs schema locale n plan linked).flatMap Instr.encode).length < 2 ^ 32) {record : Record}
    (h : decodeBody schema plan ((planInstrs schema locale n plan linked).flatMap Instr.encode ++ Instr.stop.encode) =
      .ok record) :
    record.lookup p.path = some (shown (chosenText schema locale (textsIn (n.field? slot)))) := by
  rw [decodeBody_instrs (planInstrs_whole hn plan hlinked) hsize, hplan.requested] at h
  obtain ⟨s, hrun, h⟩ := Except.bind_eq_ok.1 h
  rw [putTexts_eq_ok (f := fun e => shown (chosenText schema locale e.2.2)) fun e _ =>
    textValue_locale hplan.locale e.2.2] at h
  cases h
  obtain ⟨hpending, hfind⟩ := foldlM_planInstrs ht ha hplan hn hlinked hrun
  rw [lookup_fillMissing ha hplan, hpending.lookup ht ha hplan.text, chosenText_congr hfind]

/-- A record of nothing but texts is read. -/
theorem decodeBody_texts (ht : t.Placed) {plan : ReadPlan} (hplan : PlanFor t plan) (hlocale : plan.locale = some locale)
    (hl : locale ≠ Locale.none) (hmain : plan.main = .none) (htexts : ∀ q ∈ plan.fields, q.type = .text)
    (hcounts : plan.counts = []) (hn : n.Fits EdgeFits t)
    (hsize : ((planInstrs schema locale n plan []).flatMap Instr.encode).length < 2 ^ 32) :
    ∃ record, decodeBody schema plan ((planInstrs schema locale n plan []).flatMap Instr.encode ++ Instr.stop.encode) =
      .ok record := by
  have hsteps : ∀ i ∈ planInstrs schema locale n plan [], ∀ s, ∃ s', (ReadContext schema plan).step s i = .ok s' := by
    intro i hi s
    rw [planInstrs, hmain, hcounts, mainInstrs, List.nil_append, List.append_nil, sizeInstrs, List.map_nil, List.append_nil] at hi
    obtain ⟨q, hq, hi⟩ := List.mem_flatMap.1 hi
    have hmem := hplan.fields.subset hq
    obtain ⟨slot, hslot⟩ := PropDef.isMain_eq_false_iff.1 (hplan.separate q hq)
    rw [localeInstrs_text ht ⟨hmem, hslot, htexts q hq⟩ hl hn] at hi
    obtain ⟨l, -, hi⟩ := List.mem_filterMap.1 hi
    obtain ⟨text, -, rfl⟩ := Option.map_eq_some_iff.1 hi
    exact ⟨_, step_localized hplan.context.layout ht hmem hslot (htexts q hq) s l text⟩
  obtain ⟨s, hs⟩ := exists_foldlM hsteps .empty
  rw [decodeBody_instrs (planInstrs_whole hn plan fun i hi => absurd hi List.not_mem_nil) hsize, hs, hlocale]
  exact ⟨_, Except.bind_eq_ok.2 ⟨_, rfl, Except.bind_eq_ok.2 ⟨_,
    putTexts_eq_ok (f := fun e => shown (chosenText schema locale e.2.2)) fun e _ => textValue_locale hl e.2.2, rfl⟩⟩⟩

end NodeStore.Result
