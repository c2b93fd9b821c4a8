import NodeStore.Proofs.Engine.Contents
import NodeStore.Proofs.Engine.Execution
import NodeStore.Proofs.Write.Drafts

/-!
# What a write does to the node

The instructions that a call appends, executed in their order, change the created node as the values ask for.

* `Change`: how the main block and the separate fields of a node change.
* `Creation.Mirrors`: the instructions in the buffer lead to this node.
* `Creation.Acts`: an action on the buffer changes the node; `Acts.bind` and `Acts.forM` put actions together.
* `acts_writeSeparate`: a value of a separate property.
-/

namespace NodeStore.Write

open Engine

/-! ### Changes -/

/-- How the main block and the separate fields of a node change. -/
@[ext] structure Change where
  main : Bytes → Bytes
  field : UInt8 → Option (Content EdgeNode) → Option (Content EdgeNode)

namespace Change

/-- Nothing changes. -/
def same : Change := ⟨id, fun _ => id⟩

def andThen (c c' : Change) : Change := ⟨fun bs => c'.main (c.main bs), fun j x => c'.field j (c.field j x)⟩

/-- The main block changes. -/
def ofMain (f : Bytes → Bytes) : Change := ⟨f, fun _ => id⟩

/-- One field changes. -/
def ofField (slot : UInt8) (f : Option (Content EdgeNode) → Option (Content EdgeNode)) : Change :=
  ⟨id, fun j x => if j = slot then f x else x⟩

/-- The change leads from one node to another. -/
structure Leads (c : Change) (n n' : StoredNode) : Prop where
  main : n'.main = c.main n.main
  field : ∀ j, n'.field? j = c.field j (n.field? j)

theorem Leads.trans {c c' : Change} {n n' n'' : StoredNode} (h : c.Leads n n') (h' : c'.Leads n' n'') :
    (c.andThen c').Leads n n'' :=
  ⟨by rw [h'.main, h.main]; rfl, fun j => by rw [h'.field, h.field]; rfl⟩

/-- The changes of a list, one after the other. -/
def all {α : Type} (f : α → Change) (xs : List α) : Change := xs.foldr (fun x c => (f x).andThen c) same

theorem ofField_id (slot : UInt8) : ofField slot (fun x => x) = same := by
  ext <;> simp [ofField, same]

/-- To change one field over and over is to change it once. -/
theorem all_ofField {α : Type} (slot : UInt8) (f : Option (Content EdgeNode) → α → Option (Content EdgeNode))
    (xs : List α) : all (fun a => ofField slot fun x => f x a) xs = ofField slot fun x => xs.foldl f x := by
  induction xs with
  | nil => exact (ofField_id slot).symm
  | cons a as ih =>
    change (ofField slot fun x => f x a).andThen (all (fun a => ofField slot fun x => f x a) as) = _
    rw [ih]
    ext j x
    · rfl
    · simp only [andThen, ofField, List.foldl_cons]
      split <;> rfl

end Change

/-! ### Actions -/

/-- A node that the first instructions of a batch create. -/
structure Creation where
  schema : SchemaLayout
  store : Store
  type : TypeLayout
  id : NodeId

namespace Creation

/-- The kind of content that a property takes; nothing is asked of links. -/
def Fits (g : Creation) (n : StoredNode) : Prop := n.Fits (fun _ _ => True) g.type

/-- The cursor is on the node. -/
def Selected (g : Creation) (d : Draft) : Prop := d.encoder.cursor.node? = some (g.type.id, .tmp 0)

/-- The instructions in the buffer lead to this node, which takes no more than twice their space in an answer. -/
structure Mirrors (g : Creation) (d : Draft) (n : StoredNode) : Prop where
  run : ∃ is s, d.encoder.buffer.bytes = encodeAll is ∧ ExecutesAll g.schema is (.start g.store []) s ∧
    s.On g.type g.id n ∧ s.created = [(g.type.id, g.id)] ∧
    ∀ slot, d.encoder.cursor.slot? = some slot → s.field = g.type.propBySlot? slot
  fits : g.Fits n
  size : n.size ≤ 2 * d.length

/-- An action on the buffer changes the node, as long as four bytes hold the lengths. -/
def Acts (g : Creation) (x : EncodeM Unit) (c : Change) : Prop :=
  ∀ d d', g.Selected d → x d = .ok () d' →
    g.Selected d' ∧ d.length ≤ d'.length ∧ d'.placeholders = d.placeholders ∧
      ∀ n, g.Mirrors d n → d'.length < 2 ^ 32 → ∃ n', g.Mirrors d' n' ∧ c.Leads n n'

namespace Acts

variable {g : Creation} {x y : EncodeM Unit} {c c' : Change}

theorem pure : g.Acts (Pure.pure ()) .same := by
  intro d d' hd h
  cases h
  exact ⟨hd, Nat.le_refl _, rfl, fun n hm _ => ⟨n, hm, rfl, fun _ => rfl⟩⟩

theorem throw (e : Error) (c : Change) : g.Acts (throw e) c := nofun

theorem congr (h : g.Acts x c) (hc : c = c') : g.Acts x c' := hc ▸ h

theorem bind (hx : g.Acts x c) (hy : g.Acts y c') : g.Acts (x >>= fun _ => y) (c.andThen c') := by
  intro d d'' hd h
  obtain ⟨_, d', hx', hy'⟩ := EStateM.bind_eq_ok.1 h
  obtain ⟨hd', hle, hnoted, hlead⟩ := hx d d' hd hx'
  obtain ⟨hd'', hle', hnoted', hlead'⟩ := hy d' d'' hd' hy'
  refine ⟨hd'', Nat.le_trans hle hle', hnoted'.trans hnoted, fun n hm hsize => ?_⟩
  obtain ⟨n', hm', hc⟩ := hlead n hm (Nat.lt_of_le_of_lt hle' hsize)
  obtain ⟨n'', hm'', hc'⟩ := hlead' n' hm' hsize
  exact ⟨n'', hm'', hc.trans hc'⟩

/-- What comes without the buffer is put to use. -/
theorem lift {α : Type} {a : Except Error α} {f : α → EncodeM Unit} (hf : ∀ b, a = .ok b → g.Acts (f b) c) :
    g.Acts ((liftM a : EncodeM α) >>= f) c := by
  intro d d' hd h
  obtain ⟨b, d₁, hl, hrest⟩ := EStateM.bind_eq_ok.1 h
  obtain ⟨hb, rfl⟩ := liftExcept_eq_ok.1 hl
  exact hf b hb _ d' hd hrest

theorem forM {α : Type} {xs : List α} {f : α → EncodeM PUnit} {k : α → Change} (hf : ∀ x ∈ xs, g.Acts (f x) (k x)) :
    g.Acts (xs.forM f) (.all k xs) := by
  induction xs with
  | nil => exact pure
  | cons x xs ih =>
    change g.Acts (f x >>= fun _ => xs.forM f) _
    exact (hf x List.mem_cons_self).bind (ih fun y hy => hf y (List.mem_cons_of_mem _ hy))

end Acts

/-! ### Instructions -/

variable {g : Creation} {p : PropDef EdgeLayout} {slot : UInt8} {i : Instr} {c : Change}

/-- What an instruction does to the node wherever a run has the field of a property selected. -/
def Does (g : Creation) (field : Option (PropDef EdgeLayout)) (i : Instr) (c : Change) : Prop :=
  i.encode.length < 2 ^ 32 → ∀ s n, s.On g.type g.id n → (field.isSome → s.field = field) → g.Fits n →
    ∃ n', Executes g.schema i s (s.setNode g.type g.id n') ∧ g.Fits n' ∧ n'.size ≤ n.size + 2 * i.encode.length ∧
      c.Leads n n'

theorem acts_nodeInstr (hi : g.Does none i c) : g.Acts (nodeInstr i) c := by
  intro d d' hd h
  obtain ⟨-, rfl⟩ := nodeInstr_spec h
  have hlength : (d.append [i]).length = d.length + i.encode.length := by simp [Draft.append, Draft.length, encodeAll]
  refine ⟨hd, by omega, rfl, fun n hm hsize => ?_⟩
  obtain ⟨is, s, hbytes, hexec, hon, hcreated, hslot⟩ := hm.run
  obtain ⟨n', hinstr, hfits, hgrown, hlead⟩ := hi (by omega) s n hon (fun h => by cases h) hm.fits
  refine ⟨n', ⟨⟨is ++ [i], _, ?_, hexec.append (.single hinstr), hon.setNode n', hcreated, hslot⟩, hfits, ?_⟩, hlead⟩
  · simp [Draft.append, hbytes]
  · have := hm.size
    omega

theorem acts_fieldInstr (ht : g.type.Placed) (hp : p ∈ g.type.props) (hi : g.Does (some p) i c) :
    g.Acts (do let _ ← fieldInstr p i) c := by
  intro d d' hd h
  obtain ⟨start, d₁, hf, hpure⟩ := EStateM.bind_eq_ok.1 h
  cases hpure
  obtain ⟨slot, hslot, -, -, rfl⟩ := (fieldInstr_eq_ok hd).1 hf
  have hfound := ht.propBySlot? hp hslot
  generalize hsel : d.encoder.cursor.selectField slot p.type.tag = selector
  have hlength : ((d.append (selector ++ [i])).at (.separate g.type.id (.tmp 0) slot)).length =
      d.length + (encodeAll selector).length + i.encode.length := by
    simp [Draft.at, Draft.append, Draft.length, encodeAll, Nat.add_assoc]
  refine ⟨rfl, by omega, rfl, fun n hm hsize => ?_⟩
  obtain ⟨is, s, hbytes, hexec, hon, hcreated, hfield⟩ := hm.run
  -- The selector is left out where the field is selected already.
  obtain ⟨s', hselect, hon', hcreated', hfield'⟩ : ∃ s', ExecutesAll g.schema selector s s' ∧ s'.On g.type g.id n ∧
      s'.created = s.created ∧ s'.field = some p := by
    rw [← hsel, Cursor.selectField]
    split
    · rename_i hcursor
      exact ⟨s, .nil s, hon, rfl, (hfield slot hcursor).trans hfound⟩
    · exact ⟨_, .single (executes_selectField hon hfound), ⟨hon.type, hon.node, hon.found⟩, rfl, rfl⟩
  obtain ⟨n', hinstr, hfits, hgrown, hlead⟩ := hi (by omega) s' n hon' (fun _ => hfield') hm.fits
  refine ⟨n', ⟨⟨is ++ (selector ++ [i]), _, ?_, hexec.append (hselect.append (.single hinstr)), hon'.setNode n',
    hcreated'.trans hcreated, fun slot' hslot' => ?_⟩, hfits, ?_⟩, hlead⟩
  · simp [Draft.at, Draft.append, hbytes]
  · cases hslot'
    exact hfield'.trans hfound.symm
  · have := hm.size
    omega

/-! ### What instructions do -/

theorem does_mainBlock {block : Bytes} (hlen : block.length = g.type.mainLen) :
    g.Does none (.mainBlock block) (.ofMain fun _ => block) := by
  intro hsize s n hon _ hfits
  have hblock : block.length < 2 ^ 32 := by
    simp only [Instr.encode, List.length_cons, Wire.length_sized] at hsize
    omega
  exact ⟨_, executes_mainBlock hon hlen hblock, hfits.withMain hlen, Nat.le_add_right .., rfl, fun _ => rfl⟩

theorem does_mainField {offset : Nat} {bytes : Bytes} (hplaced : g.type.Placed)
    (hin : offset + bytes.length ≤ g.type.mainLen) :
    g.Does none (.mainField offset bytes) (.ofMain (Bytes.overwrite offset bytes)) := by
  intro _ s n hon _ hfits
  have hroom : g.type.mainLen ≤ 65535 := hplaced.room
  have hmain : n.main.length = g.type.mainLen := hfits.main
  have hlen : (Bytes.overwrite offset bytes n.main).length = g.type.mainLen := by
    rw [Bytes.length_overwrite (by omega), hmain]
  exact ⟨_, executes_mainField hon (by omega) (by omega) (by omega), hfits.withMain hlen, Nat.le_add_right .., rfl,
    fun _ => rfl⟩

/-- A payload makes a new content of the old one. -/
theorem does_updateField (hp : p ∈ g.type.props) (hslot : p.slot? = some slot) {payload : Bytes}
    {f : Option (Content EdgeNode) → Option (Content EdgeNode)}
    (hstore : payload.length < 2 ^ 32 → ∀ x, ∃ m, p.store payload x = .ok m ∧ f x = some m ∧
      m.size ≤ contentSize x + 2 * (5 + payload.length)) :
    g.Does (some p) (.updateField payload) (.ofField slot f) := by
  intro hsize s n hon hfield hfits
  have hencoded : (Instr.updateField payload).encode.length = 5 + payload.length := by
    simp only [Instr.encode, List.length_cons, Wire.length_sized]
    omega
  have hpayload : payload.length < 2 ^ 32 := by omega
  obtain ⟨m, hm, hf, hgrown⟩ := hstore hpayload (n.field? slot)
  have hslotOf : slotOf p = slot := by rw [slotOf, hslot, Option.getD_some]
  have hwrite : n.writePayload p (slotOf p) payload = .ok (n.setField slot m) := by
    rw [hslotOf, Node.writePayload, hm]
    rfl
  refine ⟨_, executes_updateField hon (hfield rfl) hpayload hwrite, hfits.setField hp hslot (store_fits hm), ?_, rfl,
    fun j => ?_⟩
  · rw [hencoded]
    exact Node.size_setField_le hfits.sorted hgrown
  · rw [Node.field?_setField, Change.ofField]
    dsimp only
    split
    · rename_i hj
      rw [hj, hf]
    · rfl

theorem does_deleteField (hslot : p.slot? = some slot) (href : p.type.isReference = false) :
    g.Does (some p) .deleteField (.ofField slot fun _ => none) := by
  intro _ s n hon hfield hfits
  have hslotOf : slotOf p = slot := by rw [slotOf, hslot, Option.getD_some]
  refine ⟨_, executes_deleteField hon (hfield rfl) href, hfits.dropField _, ?_, rfl, fun j => ?_⟩
  · exact Nat.le_trans (Node.size_dropField ..) (Nat.le_add_right ..)
  · rw [hslotOf, Node.field?_dropField hfits.sorted]
    rfl

theorem does_deleteText (hslot : p.slot? = some slot) (locale : UInt8) :
    g.Does (some p) (.deleteText locale) (.ofField slot (withoutText locale)) := by
  intro _ s n hon hfield hfits
  have hslotOf : slotOf p = slot := by rw [slotOf, hslot, Option.getD_some]
  refine ⟨_, executes_deleteText hon (hfield rfl) locale, hfits.dropText _ locale, ?_, ?_, fun j => ?_⟩
  · exact Nat.le_trans (Node.size_dropText hfits.sorted ..) (Nat.le_add_right ..)
  · exact Node.main_dropText ..
  · rw [hslotOf, Node.field?_dropText_eq hfits.sorted]
    rfl

/-! ### Separate fields -/

variable {c : Context} {edgesOf : EdgeEncoder EdgeLayout}

/-- A text payload is written. -/
theorem acts_localized (ht : g.type.Placed) (hp : p ∈ g.type.props) (hslot : p.slot? = some slot) (htext : p.type = .text)
    (locale : UInt8) (s : String) :
    g.Acts (do let _ ← fieldInstr p (.updateField (Payload.localized locale s))) (.ofField slot (withText locale s)) := by
  refine acts_fieldInstr ht hp (does_updateField hp hslot fun _ x => ⟨_, store_localized htext locale s x, rfl, ?_⟩)
  have hsize := size_withText_le locale s x
  have hlen : (Payload.localized locale s).length = 2 + (Utf8.encode s).length := by
    simp only [Payload.localized, Payload.plain, List.length_cons]
    omega
  omega

theorem acts_writeText (ht : g.type.Placed) (hp : p ∈ g.type.props) (hslot : p.slot? = some slot) (htext : p.type = .text)
    (create : Bool) (v : Value) (entry : String × String) :
    g.Acts (writeText create p v entry) (.ofField slot fun x => assignText create x entry) := by
  unfold writeText
  cases hid : Locale.idOf? entry.1 with
  | none => exact .throw _ _
  | some locale =>
    simp only [assignText, hid]
    split
    · exact acts_localized ht hp hslot htext locale entry.2
    · cases create with
      | true => exact .congr .pure (Change.ofField_id slot).symm
      | false => exact acts_fieldInstr ht hp (does_deleteText hslot locale)

/-- A valid value of a separate property is written. -/
theorem acts_writeSeparate (ht : g.type.Placed) (hd : p.Declared) (hp : p ∈ g.type.props) (hslot : p.slot? = some slot)
    (href : p.type.isReference = false) (create : Bool) {v : Value} (hvalid : p.validateBuiltin v = .ok ()) :
    g.Acts (writeSeparate c edgesOf create p v) (.ofField slot (p.assign c.locale create v)) := by
  unfold writeSeparate
  split
  · cases create with
    | true =>
      refine .congr .pure ((Change.ofField_id slot).symm.trans (congrArg _ (funext fun x => ?_)))
      simp [PropDef.assign]
    | false =>
      refine .congr (acts_fieldInstr ht hp (does_deleteField hslot href)) (congrArg _ (funext fun x => ?_))
      simp [PropDef.assign]
  · rename_i s htext
    split
    · exact .throw _ _
    · rename_i hlocale
      refine .congr (acts_localized ht hp hslot htext c.locale s) (congrArg _ (funext fun x => ?_))
      simp [PropDef.assign, htext, hlocale]
  · rename_i entries htext
    have hforM := Acts.forM fun entry (_ : entry ∈ entries) => acts_writeText ht hp hslot htext create (.text entries) entry
    rw [Change.all_ofField] at hforM
    refine hforM.congr (congrArg _ (funext fun x => ?_))
    simp [PropDef.assign, htext]
  · simp_all [PropType.isReference]
  · simp_all [PropType.isReference]
  · simp_all [PropType.isReference]
  · rename_i v _ _ hne _ _ _ _ _
    have hnull : v.isNull = false := by cases v <;> first | rfl | exact absurd rfl hne
    split
    · rename_i payload hpayload
      refine acts_fieldInstr ht hp (does_updateField hp hslot fun hsize x => ?_)
      exact store_encodeSeparate hd hnull hvalid hpayload hsize c.locale create x
    · exact .throw _ _

end Creation

end NodeStore.Write
