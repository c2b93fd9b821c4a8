import NodeStore.Proofs.Engine.MainBlocks
import NodeStore.Proofs.Engine.Selectors
import NodeStore.Proofs.Write.Canonical

/-!
# Stored values

A batch of canonical instructions leaves canonical nodes behind: what they hold in a field is always written in the same
way, so that fields agree in their bytes exactly if they agree in their values.

* `Node.Canonical`: the main block and the strings of a node.
* `runInstr_canonical`: one instruction; `applyBatch_canonical`: a batch.
-/

namespace NodeStore.Engine

open Write (Instr RefEntry Selection CanonicalAll encodeAll encodeAll_cons encodeAll_append)

/-! ### Nodes -/

/-- The main block holds canonical bytes, and each string one that is encoded and has a length of four bytes. -/
structure Node.Canonical (t : TypeLayout) (n : StoredNode) : Prop where
  length : n.main.length = t.mainLen
  main : t.Canonical n.main
  strings : ∀ p ∈ t.props, p.type = .string ∨ p.type = .alias → ∀ slot, p.slot? = some slot →
    ∀ bs, (slot, Content.bytes bs) ∈ n.fields → bs.length < 2 ^ 32 ∧ ∃ str, bs = Utf8.encode str

namespace Node

variable {t : TypeLayout} {n m : StoredNode} {p : PropDef EdgeLayout} {slot : UInt8}

theorem canonical_fresh (ht : t.Placed) (hk : t.Packed) : Canonical t (.fresh t) :=
  ⟨ht.defaults, hk.canonical ht, fun _ _ _ _ _ _ h => absurd h List.not_mem_nil⟩

namespace Canonical

theorem withMain (h : Canonical t n) {main : Bytes} (hlen : main.length = t.mainLen) (hmain : t.Canonical main) :
    Canonical t { n with main } := ⟨hlen, hmain, h.strings⟩

theorem setField (h : Canonical t n) {c : Content EdgeNode} (hc : ∀ p ∈ t.props, p.type = .string ∨ p.type = .alias →
    p.slot? = some slot → ∀ bs, c = .bytes bs → bs.length < 2 ^ 32 ∧ ∃ str, bs = Utf8.encode str) :
    Canonical t (n.setField slot c) := by
  refine ⟨h.length, h.main, fun p hp ht slot' hslot bs hbs => ?_⟩
  rcases Assoc.mem_insert hbs with heq | hbs
  · obtain ⟨rfl, rfl⟩ := Prod.mk.inj heq
    exact hc p hp ht hslot bs rfl
  · exact h.strings p hp ht slot' hslot bs hbs

theorem setOther (h : Canonical t n) {c : Content EdgeNode} (hc : ∀ bs, c ≠ .bytes bs) : Canonical t (n.setField slot c) :=
  h.setField fun _ _ _ _ bs hbs => absurd hbs (hc bs)

theorem dropField (h : Canonical t n) : Canonical t (n.dropField slot) :=
  ⟨h.length, h.main, fun p hp ht slot' hslot bs hbs => h.strings p hp ht slot' hslot bs ((Assoc.erase_sublist ..).subset hbs)⟩

theorem dropText (h : Canonical t n) (locale : UInt8) : Canonical t (n.dropText slot locale) := by
  unfold Node.dropText
  split
  · split
    · exact h.dropField
    · exact h.setOther nofun
  · exact h

theorem putLink (h : Canonical t n) (l : Link EdgeNode) : Canonical t (n.putLink p slot l) := by
  unfold Node.putLink
  split
  · split <;> exact h.setOther nofun
  · split
    · exact h.setOther nofun
    · exact h.setOther nofun
    · exact h

theorem removeLink (h : Canonical t n) (target : NodeId) : Canonical t (n.removeLink slot target) := by
  unfold Node.removeLink
  split
  · split
    · exact h.dropField
    · exact h
  · split
    · exact h.dropField
    · exact h.setOther nofun
  · exact h

/-- What is written to a string is one. -/
theorem writePayload (h : Canonical t n) (ht : t.Placed) (hp : p ∈ t.props) (hslot : p.slot? = some slot) {payload : Bytes}
    (hlen : payload.length < 2 ^ 32)
    (hpayload : p.type = .string ∨ p.type = .alias → ∃ str, payload = Payload.plain (Utf8.encode str))
    (hm : n.writePayload p slot payload = .ok m) : Canonical t m := by
  obtain ⟨c, hc, hm⟩ := Except.bind_eq_ok.1 hm
  cases hm
  refine h.setField fun q hq hstring hqslot bs hbs => ?_
  obtain rfl := ht.slot_unique hp hq hslot hqslot
  obtain ⟨str, rfl⟩ := hpayload hstring
  rw [Payload.plain, List.length_cons] at hlen
  unfold PropDef.store at hc
  rcases hstring with hstring | hstring <;>
  · simp only [hstring, Payload.string_plain] at hc
    cases hc
    cases hbs
    exact ⟨by omega, str, rfl⟩

end Canonical

end Node

theorem Store.Each.relinks_canonical {schema : SchemaLayout} {s s' : Store} (h : s.Each schema Node.Canonical)
    (hs : s.Relinks s') :
    s'.Each schema Node.Canonical :=
  h.relinks (fun _ _ _ _ l hn => hn.putLink l) (fun _ _ _ target hn => hn.removeLink target) hs

/-! ### Instructions -/

variable {schema : SchemaLayout} {s s' : Run} {pos : Nat} {rest : Bytes} {sel : Selection} {t : TypeLayout}

theorem Run.Agrees.layout (h : s.Agrees schema sel) (ht : sel.layout? schema = some t) : s.type = some t := by
  obtain ⟨type, htype, ht⟩ := Option.bind_eq_some_iff.1 ht
  obtain ⟨u, hu, hs⟩ := h.type type htype
  rw [hs, ← ht, hu]

/-- A node of the selected type becomes another one. -/
def Run.Changes (s s' : Run) (R : TypeLayout → StoredNode → StoredNode → Prop) : Prop :=
  ∃ t id n m, s.type = some t ∧ s.store.node? t.id id = some n ∧ s'.store = s.store.setNode t.id id m ∧ R t n m

theorem Run.Changes.canonical {R : TypeLayout → StoredNode → StoredNode → Prop} (h : s.Changes s' R)
    (hs : s.store.Each schema Node.Canonical) (hp : schema.Placed) (ht : s.type = some t) (hmem : t ∈ schema.types)
    (hR : ∀ n m, R t n m → Node.Canonical t n → Node.Canonical t m) : s'.store.Each schema Node.Canonical := by
  obtain ⟨u, id, n, m, hu, hn, hstore, hnode⟩ := h
  cases ht.symm.trans hu
  have htype := hp.ids t hmem
  rw [hstore]
  refine hs.setNode (fun u hu => ?_) id
  cases htype.symm.trans hu
  exact hR n m hnode (hs.node htype hn)

theorem changes_of_onNode {id : NodeId} {f : StoredNode → Except Fault StoredNode} {u : Unit} (ht : s.type = some t)
    (h : onNode t.id id f (s.at pos rest) = .ok (u, s')) : s.Changes s' fun _ n m => f n = .ok m := by
  obtain ⟨n, m, hn, hm, rfl⟩ := onNode_spec h
  exact ⟨t, id, n, m, ht, hn, rfl, hm⟩

theorem setMain_changes {block : Bytes} (hb : block.length < 2 ^ 32)
    (h : setMain (s.at pos (Wire.sized block ++ rest)) = .ok ((), s')) :
    s.Changes s' fun t n m => block.length = t.mainLen ∧ m = { n with main := block } := by
  unfold setMain at h
  simp only [StateT.bind_eq_ok] at h
  obtain ⟨_, _, hblock, ⟨t, id⟩, _, hc, h⟩ := h
  obtain ⟨rfl, rfl⟩ := RunM.reads (.sized hb _) hblock
  obtain ⟨rfl, ht, -⟩ := current_spec hc
  split at h
  · cases h
  · rename_i hlen
    obtain ⟨n, m, hn, hm, rfl⟩ := onNode_spec h
    cases hm
    exact ⟨t, id, n, _, ht, hn, rfl, not_not.1 hlen, rfl⟩

theorem setMainPart_changes {offset : Nat} {bytes : Bytes} (ho : offset < 2 ^ 32) (hb : bytes.length < 2 ^ 16)
    (h : setMainPart (s.at pos (leBytes 4 offset ++ (leBytes 2 bytes.length ++ (bytes ++ rest)))) = .ok ((), s')) :
    s.Changes s' fun _ n m => changeMain offset bytes.length (fun _ => bytes) .mainWrite n = .ok m := by
  unfold setMainPart at h
  simp only [StateT.bind_eq_ok] at h
  obtain ⟨_, _, h₁, _, _, h₂, _, _, h₃, ⟨t, id⟩, _, hc, h⟩ := h
  obtain ⟨rfl, rfl⟩ := RunM.reads (.nat ho _) h₁
  obtain ⟨rfl, rfl⟩ := RunM.reads (.nat hb _) h₂
  obtain ⟨rfl, rfl⟩ := RunM.reads (.bytes rfl _) h₃
  obtain ⟨rfl, ht, -⟩ := current_spec hc
  exact changes_of_onNode ht h

theorem count_changes {decrement : Bool} {type : PropType} (hnumeric : type.isNumeric = true) {offset : Nat} {amount : Bytes}
    (ho : offset < 2 ^ 32) (ha : amount.length = type.fixedWidth.getD 0)
    (h : count decrement (s.at pos ([type.tag] ++ (leBytes 4 offset ++ (amount ++ rest)))) = .ok ((), s')) :
    s.Changes s' fun _ n m => changeMain offset amount.length (addDelta type decrement amount) .counterPlace n = .ok m := by
  unfold count at h
  simp only [StateT.bind_eq_ok, RunM.lift_eq_ok] at h
  obtain ⟨_, _, h₁, _, _, h₂, type', _, ⟨htype, rfl⟩, _, _, h₃, ⟨t, id⟩, _, hc, h⟩ := h
  obtain ⟨rfl, rfl⟩ := RunM.reads (.byte _ type.tag) h₁
  obtain ⟨rfl, rfl⟩ := RunM.reads (.nat ho _) h₂
  rw [PropType.ofTag?_tag, Option.filter_some, if_pos hnumeric] at htype
  cases htype
  obtain ⟨rfl, rfl⟩ := RunM.reads (.bytes ha _) h₃
  obtain ⟨rfl, ht, -⟩ := current_spec hc
  rw [← ha] at h
  exact changes_of_onNode ht h

theorem updateField_changes {p : PropDef EdgeLayout} (hfield : s.field = some p) {payload : Bytes} (hb : payload.length < 2 ^ 32)
    (h : updateField (s.at pos (Wire.sized payload ++ rest)) = .ok ((), s')) :
    s.Changes s' fun _ n m => n.writePayload p (slotOf p) payload = .ok m := by
  unfold updateField at h
  simp only [StateT.bind_eq_ok] at h
  obtain ⟨_, _, hpayload, ⟨t, id, q⟩, _, hc, h⟩ := h
  obtain ⟨rfl, rfl⟩ := RunM.reads (.sized hb _) hpayload
  obtain ⟨rfl, ht, -, hq⟩ := currentField_spec hc
  cases hfield.symm.trans hq
  exact changes_of_onNode ht h

theorem deleteText_changes {locale : UInt8} (h : deleteText (s.at pos ([locale] ++ rest)) = .ok ((), s')) :
    s.Changes s' fun _ n m => ∃ slot, m = n.dropText slot locale := by
  unfold deleteText at h
  simp only [StateT.bind_eq_ok] at h
  obtain ⟨_, _, hlocale, ⟨t, id, p⟩, _, hc, h⟩ := h
  obtain ⟨rfl, rfl⟩ := RunM.reads (.byte _ locale) hlocale
  obtain ⟨rfl, ht, -, -⟩ := currentField_spec hc
  obtain ⟨n, m, hn, hm, rfl⟩ := onNode_spec h
  cases hm
  exact ⟨t, id, n, _, ht, hn, rfl, slotOf p, rfl⟩

/-- A field is deleted with its links, or without having any. -/
theorem deleteField_changes (h : deleteField schema (s.at pos rest) = .ok ((), s')) :
    s.store.Relinks s'.store ∨ s.Changes s' fun _ n m => ∃ slot, m = n.dropField slot := by
  unfold deleteField at h
  obtain ⟨⟨t, id, p⟩, _, hc, h⟩ := StateT.bind_eq_ok.1 h
  obtain ⟨rfl, ht, -, -⟩ := currentField_spec hc
  refine RunM.ite_elim (fun h => .inl ?_) (fun h => .inr ?_) h
  · obtain ⟨store, hstore, rfl⟩ := onStore_spec h
    exact Store.disconnectField_relinks hstore
  · obtain ⟨n, m, hn, hm, rfl⟩ := onNode_spec h
    cases hm
    exact ⟨t, id, n, _, ht, hn, rfl, slotOf p, rfl⟩

/-- New bytes in the place of a property are put there as a whole. -/
theorem changeMain_canonical (ht : t.Placed) (hk : t.Packed) {p : PropDef EdgeLayout} (hp : p ∈ t.props) {offset : Nat}
    (ha : p.offset? = some offset) {f : Bytes → Bytes} {outside : Fault} {n m : StoredNode}
    (hf : ∀ bs, bs.length = p.len → p.Canonical (f bs)) (hn : Node.Canonical t n)
    (h : changeMain offset p.len f outside n = .ok m) : Node.Canonical t m := by
  obtain ⟨bs, hbs, h⟩ := Except.bind_eq_ok.1 h
  cases h
  unfold changeBytes at hbs
  split at hbs
  · cases hbs
  · rename_i hin
    cases hbs
    have hbytes := hf ((n.main.drop offset).take p.len) (by rw [List.length_take, List.length_drop]; omega)
    refine hn.withMain ?_ (hk.canonical_overwrite ht hn.length hn.main hp ha hbytes)
    rw [Bytes.length_overwrite (by rw [hbytes.length]; omega), hn.length]

/-- One canonical instruction. -/
theorem runInstr_canonical (hp : schema.Placed) (hk : ∀ t ∈ schema.types, t.Packed) {i : Instr} (hi : Instr.Readable i)
    (hc : i.Canonical schema sel) (ha : s.Agrees schema sel) (hr : s.Regular schema) (hs : s.store.Each schema Node.Canonical)
    (h : runInstr schema (s.at pos (i.encode ++ rest)) = .ok ((), s')) : s'.store.Each schema Node.Canonical := by
  have hmem : ∀ {t}, s.type = some t → t ∈ schema.types := fun ht => (hp.found _ _ (hr.type _ ht)).1
  cases i with
  | selectType type =>
    change selectType schema (s.at (pos + 1) (leBytes 2 type.toNat ++ rest)) = _ at h
    obtain ⟨t, -, rfl⟩ := selectType_ok h
    exact hs
  | selectNode n =>
    change selectNode false (s.at (pos + 1) (leBytes 4 n.toNat ++ rest)) = _ at h
    obtain ⟨t, id, -, -, rfl⟩ := selectNode_ok h
    exact hs
  | selectTmp n =>
    change selectNode true (s.at (pos + 1) (leBytes 4 n.toNat ++ rest)) = _ at h
    obtain ⟨t, id, -, -, rfl⟩ := selectNode_ok h
    exact hs
  | createNode n =>
    change createNode (s.at (pos + 1) (leBytes 4 n.toNat ++ rest)) = _ at h
    obtain ⟨t, ht, -, rfl⟩ := createNode_ok h
    exact hs.create (hr.type t ht) (Node.canonical_fresh (hp.types t (hmem ht)) (hk t (hmem ht)))
  | selectField slot tag =>
    change selectField (s.at (pos + 1) ([slot] ++ ([tag] ++ rest))) = _ at h
    obtain ⟨t, id, p, -, -, -, rfl⟩ := selectField_ok h
    exact hs
  | mainBlock block =>
    obtain ⟨t, hlayout, hblock⟩ := hc
    have ht := ha.layout hlayout
    rw [runInstr_mainBlock] at h
    refine (setMain_changes hi h).canonical hs hp ht (hmem ht) ?_
    rintro n _ ⟨hlen, rfl⟩ hn
    exact hn.withMain hlen hblock
  | mainField offset bytes =>
    obtain ⟨t, p, hlayout, hprop, hoffset, hbytes⟩ := hc
    have ht := ha.layout hlayout
    rw [runInstr_mainField] at h
    refine (setMainPart_changes hi.1 hi.2 h).canonical hs hp ht (hmem ht) fun n m hm hn => ?_
    rw [hbytes.length] at hm
    exact changeMain_canonical (hp.types t (hmem ht)) (hk t (hmem ht)) hprop hoffset (fun _ _ => hbytes) hn hm
  | count decrement tag offset amount =>
    obtain ⟨t, p, hlayout, hprop, hoffset, hnumeric, rfl, hamount⟩ := hc
    have ht := ha.layout hlayout
    have hm := (hp.types t (hmem ht)).measured p hprop
    have hwidth := hi.2 p.type (PropType.ofTag?_tag _) hnumeric
    rw [runInstr_count] at h
    refine (count_changes hnumeric hi.1 hwidth h).canonical hs hp ht (hmem ht) fun n m hchange hn => ?_
    rw [hamount] at hchange hwidth
    refine changeMain_canonical (hp.types t (hmem ht)) (hk t (hmem ht)) hprop hoffset (fun bs hbs => ?_) hn hchange
    exact .of_numeric hm hnumeric ((length_addDelta (hbs.trans hwidth)).trans hwidth.symm)
  | updateField payload =>
    obtain ⟨t, p, slot, hlayout, hslot, hprop, hpslot, hpayload⟩ := hc
    have ht := ha.layout hlayout
    have hplaced := hp.types t (hmem ht)
    have hfield : s.field = some p := by
      obtain ⟨u, q, hu, hq, hfield⟩ := ha.slot slot hslot
      cases ht.symm.trans hu
      cases (hplaced.propBySlot? hprop hpslot).symm.trans hq
      exact hfield
    rw [runInstr_updateField] at h
    refine (updateField_changes hfield hi h).canonical hs hp ht (hmem ht) fun n m hm hn => ?_
    rw [slotOf_eq hpslot] at hm
    exact hn.writePayload hplaced hprop hpslot hi hpayload hm
  | deleteField =>
    rw [runInstr_deleteField] at h
    rcases deleteField_changes h with hrelinks | hchanges
    · exact hs.relinks_canonical hrelinks
    · have ⟨t, _, _, _, ht, _⟩ := hchanges
      refine hchanges.canonical hs hp ht (hmem ht) ?_
      rintro n _ ⟨slot, rfl⟩ hn
      exact hn.dropField
  | deleteText locale =>
    rw [runInstr_deleteText] at h
    have hchanges := deleteText_changes h
    have ⟨t, _, _, _, ht, _⟩ := hchanges
    refine hchanges.canonical hs hp ht (hmem ht) ?_
    rintro n _ ⟨slot, rfl⟩ hn
    exact hn.dropText locale
  | deleteNode =>
    rw [runInstr_deleteNode] at h
    exact hs.relinks_canonical (deleteCurrent_relinks h).1
  | setRef e =>
    rw [runInstr_setRef] at h
    exact hs.relinks_canonical (setRef_relinks h).1
  | setRefs es =>
    rw [runInstr_setRefs] at h
    exact hs.relinks_canonical (linkRefs_relinks h).1
  | addRefs es =>
    rw [runInstr_addRefs] at h
    exact hs.relinks_canonical (linkRefs_relinks h).1
  | removeRefs es =>
    rw [runInstr_removeRefs] at h
    exact hs.relinks_canonical (unlinkRefs_relinks h).1

/-! ### Batches -/

/-- A canonical instruction of a batch that is not too long has lengths that fit. -/
theorem Instr.readable_of_canonical (hp : schema.Placed) {i : Instr} (h : i.Canonical schema sel)
    (hlen : i.encode.length < 2 ^ 32) : Instr.Readable i := by
  have hplace : ∀ {t p offset}, sel.layout? schema = some t → p ∈ t.props → p.offset? = some offset →
      p.Measured ∧ offset < 2 ^ 32 ∧ p.len < 2 ^ 16 := by
    intro t p offset hlayout hprop hoffset
    obtain ⟨type, -, ht⟩ := Option.bind_eq_some_iff.1 hlayout
    have hplaced := hp.types t (hp.found _ _ ht).1
    have hin := hplaced.inside p hprop offset hoffset
    have hroom := hplaced.room
    have hmax : Limits.maxMainLength = 65535 := rfl
    exact ⟨hplaced.measured p hprop, by omega, by omega⟩
  cases i with
  | selectType | selectNode | selectTmp | createNode | selectField | deleteField | deleteNode | deleteText => trivial
  | mainBlock block =>
    rw [Instr.encode, List.length_cons, Wire.length_sized] at hlen
    exact (by omega : block.length < 2 ^ 32)
  | mainField offset bytes =>
    obtain ⟨t, p, hlayout, hprop, hoffset, hbytes⟩ := h
    obtain ⟨-, hstart, hwidth⟩ := hplace hlayout hprop hoffset
    exact ⟨hstart, hbytes.length ▸ hwidth⟩
  | updateField payload =>
    rw [Instr.encode, List.length_cons, Wire.length_sized] at hlen
    exact (by omega : payload.length < 2 ^ 32)
  | count decrement tag offset amount =>
    obtain ⟨t, p, hlayout, hprop, hoffset, hnumeric, rfl, hamount⟩ := h
    obtain ⟨hm, hstart, -⟩ := hplace hlayout hprop hoffset
    refine ⟨hstart, fun type htype _ => ?_⟩
    rw [PropType.ofTag?_tag] at htype
    cases htype
    rw [hamount, (hm.number hnumeric).1, Option.getD_some]
  | setRef e =>
    rw [Instr.encode, List.length_cons] at hlen
    exact RefEntry.readable_of_length (by omega)
  | setRefs es | addRefs es =>
    rw [Instr.encode, List.length_cons] at hlen
    exact Instr.readable_of_items (by omega)
  | removeRefs es =>
    rw [Instr.encode, List.length_cons] at hlen
    exact ⟨(Instr.readable_of_items (by omega)).1, h⟩

/-- Canonical instructions, one after the other. -/
theorem runInstrs_canonical (hp : schema.Placed) (hk : ∀ t ∈ schema.types, t.Packed) {is : List Instr} {n : Nat}
    (hc : CanonicalAll schema sel is) (hlen : (encodeAll is).length < 2 ^ 32) (ha : s.Agrees schema sel) (hr : s.Regular schema)
    (hs : s.store.Each schema Node.Canonical)
    (h : runInstrs schema (is.length + n) (s.at pos (encodeAll is)) = .ok ((), s')) : s'.store.Each schema Node.Canonical := by
  induction is generalizing s pos sel with
  | nil =>
    cases runInstrs_of_isEmpty rfl h
    exact hs
  | cons i is ih =>
    have hstep : ∀ m, runInstrs schema (m + 1) (s.at pos (encodeAll (i :: is))) =
        (runInstr schema >>= fun _ => runInstrs schema m) (s.at pos (i.encode ++ encodeAll is)) := runInstrs_cons s pos i is
    rw [List.length_cons, Nat.add_right_comm, hstep] at h
    obtain ⟨_, s₁, hi, h⟩ := StateT.bind_eq_ok.1 h
    rw [encodeAll_cons, List.length_append] at hlen
    have hreadable := Instr.readable_of_canonical hp hc.1 (by omega)
    obtain ⟨hreader, hkeeps⟩ := runInstr_agrees hreadable hi
    have hat : s₁ = s₁.at (pos + i.encode.length) (encodeAll is) := by rw [Run.at, ← hreader]
    have hs₁ := runInstr_canonical hp hk hreadable hc.1 ha hr hs hi
    rw [hat] at h
    exact ih hc.2 (by omega) (hkeeps sel ha) (runInstr_regular hp (hr.withReader _) hi) hs₁ h

/-- A batch of canonical instructions that is accepted leaves canonical nodes. -/
theorem applyBatch_canonical (hp : schema.Placed) (hk : ∀ t ∈ schema.types, t.Packed) {is : List Instr}
    (hc : CanonicalAll schema .none is) (hlen : (encodeAll is).length < 2 ^ 32) {store store' : Store} {ids : List NodeId}
    (hr : store.Regular schema) (hs : store.Each schema Node.Canonical)
    (h : applyBatch schema store (encodeAll is) = .ok (ids, store')) : store'.Each schema Node.Canonical := by
  obtain ⟨⟨_, s⟩, hrun, h⟩ := Except.bind_eq_ok.1 h
  cases h
  rw [← Nat.add_sub_of_le (length_le_encodeAll is)] at hrun
  have hstart : (Run.start store []).Regular schema := ⟨hr, nofun⟩
  exact runInstrs_canonical (s := .start store []) hp hk hc hlen (.none _) hstart hs hrun

end NodeStore.Engine
