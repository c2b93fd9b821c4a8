import NodeStore.Proofs.Write.ReadBack

/-!
# Nodes made of defaults

A default that a declaration is accepted with can always be written: with enough room in the buffer a node can be created
from an empty record, and it reads as its defaults. The one thing that only the session knows is the locale of a plain
string, so a schema without locales must not give a text such a default.

* `Costs`: an action that succeeds where there is room for it, on the node that it is on.
* `PropDef.valueRoom`, `writeSeparate_costs`: a valid value that is no reference can be written.
* `Layout.defaultsRoom`, `create_empty`: a node of defaults is created.
* `Memory.reads_everything`, `defaults_recalled`: it reads as its defaults.
-/

namespace NodeStore.Write

open Engine

/-! ### Room -/

/-- On a node, the action succeeds where there is room for so many bytes, writes no more than these, and stays there. -/
def Costs (type : TypeId) (node : NodeTarget) (x : EncodeM Unit) (n : Nat) : Prop :=
  ∀ d : Draft, d.encoder.cursor.node? = some (type, node) → d.encoder.buffer.Room n →
    ∃ d', x d = .ok () d' ∧ d'.encoder.cursor.node? = some (type, node) ∧
      d'.encoder.buffer.max = d.encoder.buffer.max ∧ d'.length ≤ d.length + n

section

variable {type : TypeId} {node : NodeTarget} {x y : EncodeM Unit} {n m : Nat}

theorem Costs.pure : Costs type node (Pure.pure ()) 0 := fun d hd _ => ⟨d, rfl, hd, rfl, Nat.le_refl _⟩

theorem Costs.bind (hx : Costs type node x n) (hy : Costs type node y m) : Costs type node (x >>= fun _ => y) (n + m) := by
  intro d hd hroom
  obtain ⟨d₁, h₁, hd₁, hmax₁, hle₁⟩ := hx d hd fun max hmax => by have := hroom max hmax; omega
  obtain ⟨d₂, h₂, hd₂, hmax₂, hle₂⟩ := hy d₁ hd₁ fun max hmax => by
    have := hroom max (hmax₁ ▸ hmax)
    simp only [Draft.length, Buffer.length] at hle₁ this ⊢
    omega
  exact ⟨d₂, (EStateM.bind_of_ok h₁).trans h₂, hd₂, hmax₂.trans hmax₁, by omega⟩

theorem Costs.mono (h : Costs type node x n) (hle : n ≤ m) : Costs type node x m := by
  intro d hd hroom
  obtain ⟨d', hx, hd', hmax, hlen⟩ := h d hd fun max hmax => Nat.le_trans hle (hroom max hmax)
  exact ⟨d', hx, hd', hmax, by omega⟩

theorem Costs.forM {α : Type} {xs : List α} {f : α → EncodeM Unit} {cost : α → Nat}
    (h : ∀ x ∈ xs, Costs type node (f x) (cost x)) : Costs type node (xs.forM f) (xs.map cost).sum := by
  induction xs with
  | nil => exact .pure
  | cons x xs ih =>
    rw [List.map_cons, List.sum_cons]
    exact (h x List.mem_cons_self).bind (ih fun y hy => h y (List.mem_cons_of_mem _ hy))

theorem nodeInstr_costs (type : TypeId) (node : NodeTarget) (i : Instr) :
    Costs type node (nodeInstr i) (encodeAll [i]).length := by
  intro d hd hroom
  refine ⟨d.append [i], ?_, hd, rfl, by simp [Draft.length, Draft.append]⟩
  unfold nodeInstr
  rw [EStateM.bind_of_ok (activeNode_eq_ok.2 ⟨hd, rfl⟩), EStateM.bind_of_ok (emit_of_room hroom)]
  rfl

theorem createNode_of_room (type : TypeId) (tmp : UInt32) (d : Draft)
    (h : d.encoder.buffer.Room (encodeAll (d.encoder.cursor.selectType type ++ [.createNode tmp])).length) :
    createNode type tmp d =
      .ok () ((d.append (d.encoder.cursor.selectType type ++ [.createNode tmp])).at (.main type (.tmp tmp))) := by
  unfold createNode
  rw [EStateM.bind_of_ok (cursor_eq_ok.2 ⟨rfl, rfl⟩), EStateM.bind_of_ok (emit_of_room h)]
  rfl

/-- A payload is written behind eight bytes at most: three for the selector of its field, and five of its own. -/
theorem updateField_costs {E : Type} {p : PropDef E} {slot : UInt8} (hslot : p.slot? = some slot) (payload : Bytes) :
    Costs type node (do let _ ← fieldInstr p (.updateField payload)) (8 + payload.length) := by
  let i : Instr := .updateField payload
  have hi : (encodeAll [i]).length = 5 + payload.length := by
    simp [i, encodeAll, Instr.encode, Wire.length_sized]
    omega
  intro d hd hroom
  have hselector : (encodeAll (d.encoder.cursor.selectField slot p.type.tag ++ [i])).length ≤ 8 + payload.length := by
    have hthree : (encodeAll (d.encoder.cursor.selectField slot p.type.tag)).length ≤ 3 := by
      unfold Cursor.selectField
      split
      · exact Nat.zero_le _
      · exact Nat.le_refl _
    rw [encodeAll_append, List.length_append]
    omega
  have hfit := (fieldInstr_eq_ok (p := p) (i := i) hd).2
    ⟨slot, hslot, fun max hmax => Nat.le_trans hselector (hroom max hmax), rfl, rfl⟩
  refine ⟨_, EStateM.bind_of_ok hfit, rfl, rfl, ?_⟩
  simp only [Draft.length, Draft.at, Draft.append, List.length_append]
  omega

end

/-! ### Valid values -/

section

variable {p : PropDef EdgeLayout} {v : Value} {type : TypeId} {node : NodeTarget} {slot : UInt8}

/-- The bytes that the payload of a text takes, with all that stands in front of it. -/
def textRoom (s : String) : Nat := 10 + (Utf8.encode s).length

/-- The bytes that a valid value of a separate property takes at most, with all that stands in front of its payloads. -/
def PropDef.valueRoom (p : PropDef EdgeLayout) (v : Value) : Nat :=
  match p.type, v with
  | .text, .string s => textRoom s
  | .text, .text entries => (entries.map fun entry => textRoom entry.2).sum
  | _, v =>
    match p.encodeSeparate v with
    | .ok payload => 8 + payload.length
    | .error _ => 0

theorem localized_costs (hslot : p.slot? = some slot) (locale : UInt8) (s : String) :
    Costs type node (do let _ ← fieldInstr p (.updateField (Payload.localized locale s))) (textRoom s) := by
  refine (updateField_costs hslot _).mono ?_
  simp only [Payload.localized, Payload.plain, List.length_cons, textRoom]
  omega

/-- A text in an enabled locale can be written. -/
theorem writeText_costs (hslot : p.slot? = some slot) (v : Value) {entry : String × String}
    (hlocale : p.takesLocale entry.1 = true) : Costs type node (writeText true p v entry) (textRoom entry.2) := by
  unfold PropDef.takesLocale at hlocale
  unfold writeText
  cases hid : Locale.idOf? entry.1 with
  | none =>
    rw [hid] at hlocale
    cases hlocale
  | some locale =>
    dsimp only
    split
    · exact localized_costs hslot locale entry.2
    · exact Costs.pure.mono (Nat.zero_le _)

/-- A valid value that is no reference can be written for a new node, once a plain string has a locale. -/
theorem writeSeparate_costs (c : Context) (edgesOf : EdgeEncoder EdgeLayout) (hm : p.Measured) (hslot : p.slot? = some slot)
    (href : p.type.isReference = false) (hvalid : p.validateBuiltin v = .ok ())
    (hlocale : p.type = .text → ∀ s, v = .string s → c.locale ≠ Locale.none) :
    Costs type node (writeSeparate c edgesOf true p v) (PropDef.valueRoom p v) := by
  have hsep := PropDef.isMain_of_slot? hslot
  unfold writeSeparate
  split
  · exact Costs.pure.mono (Nat.zero_le _)
  · rename_i s htext
    rw [if_neg (hlocale htext s rfl), PropDef.valueRoom]
    · exact localized_costs hslot c.locale s
    · exact htext
  · rename_i entries htext
    obtain ⟨_, hv⟩ | ⟨_, hv, hlocales⟩ := text_of_valid htext rfl hvalid
    · cases hv
    · cases hv
      rw [show PropDef.valueRoom p (.text entries) = _ by rw [PropDef.valueRoom]; exact htext]
      exact Costs.forM fun entry hentry => writeText_costs hslot _ (hlocales entry hentry)
  · simp_all [PropType.isReference]
  · simp_all [PropType.isReference]
  · simp_all [PropType.isReference]
  · rename_i v _ _ hne _ hstring htexts _ _
    have hnull : v.isNull = false := by cases v <;> first | rfl | exact absurd rfl hne
    have htext : p.type ≠ .text := by
      intro htext
      rcases text_of_valid htext hnull hvalid with ⟨s, rfl⟩ | ⟨entries, rfl, -⟩
      · exact hstring s htext rfl
      · exact htexts entries htext rfl
    obtain ⟨payload, hpayload⟩ := encodeSeparate_of_valid hm hsep href htext hnull hvalid
    have hroom : PropDef.valueRoom p v = 8 + payload.length := by
      unfold PropDef.valueRoom
      split
      · exact absurd ‹_› htext
      · exact absurd ‹_› htext
      · rw [hpayload]
    rw [hpayload, hroom]
    exact updateField_costs hslot payload

end

/-! ### Empty records -/

/-- The bytes that the default of a separate property takes. -/
def PropDef.defaultRoom (p : PropDef EdgeLayout) : Nat :=
  if p.isMain then 0 else (p.default.map (PropDef.valueRoom p)).getD 0

/-- The bytes that a new node with nothing but defaults takes at most: its create, its main block, and the defaults of its
separate properties. -/
def Layout.defaultsRoom (t : TypeLayout) : Nat := 8 + (5 + t.mainLen + (t.props.map PropDef.defaultRoom).sum)

/-- Has the property a plain string as the default of a text? -/
def PropDef.PlainText (p : PropDef EdgeLayout) : Prop := p.type = .text ∧ ∃ s, p.default = some (.string s)

theorem sum_missingDefaults (n : Nat) (ps : List (PropDef EdgeLayout)) :
    ((missingDefaults [] n ps).map fun f => PropDef.valueRoom f.prop f.value).sum = (ps.map PropDef.defaultRoom).sum := by
  induction ps generalizing n with
  | nil => rfl
  | cons p ps ih =>
    rw [List.map_cons, List.sum_cons, ← ih (n + 1), missingDefaults, PropDef.defaultRoom]
    cases p.default with
    | none => simp
    | some v => cases p.isMain <;> simp

/-- An empty record gives the defaults of the separate properties to a new node. -/
theorem collectFields_empty {t : TypeLayout} (hk : t.Packed) (lenient : Bool) :
    ∃ fields, collectFields t lenient true [] = .ok fields ∧ fields.Perm (missingDefaults [] 0 t.props) ∧
      ∀ f ∈ fields, f.prop ∈ t.props ∧ f.prop.isMain = false ∧ f.prop.type.isReference = false ∧
        f.prop.default = some f.value ∧ f.prop.validateBuiltin f.value = .ok () := by
  have hperm : (arranged t true ([] : List (Field EdgeLayout))).Perm (missingDefaults [] 0 t.props) := List.mergeSort_perm ..
  have hgiven := fun f (hf : f ∈ arranged t true []) => missingDefaults_mem (hperm.mem_iff.1 hf)
  have hvalid : ∀ f ∈ arranged t true ([] : List (Field EdgeLayout)), f.prop.type.isReference = false ∧
      f.prop.validate f.value = .ok () ∧ f.prop.validateBuiltin f.value = .ok () := by
    intro f hf
    obtain ⟨hmem, -, hdefault⟩ := hgiven f hf
    obtain ⟨href, hvalid⟩ := (hk.declared _ hmem).default _ hdefault
    obtain ⟨⟨⟩, hbuiltin, -⟩ := Except.bind_eq_ok.1 hvalid
    exact ⟨href, hvalid, hbuiltin⟩
  refine ⟨_, collectFields_eq_ok.2 ⟨[], rfl, rfl, fun f hf => ?_⟩, hperm, fun f hf => ?_⟩
  · obtain ⟨-, hall, hbuiltin⟩ := hvalid f hf
    exact checkField_eq_ok.2 ⟨hbuiltin, fun _ => (validate_eq_ok.1 hall).2⟩
  · obtain ⟨hmem, hsep, hdefault⟩ := hgiven f hf
    obtain ⟨href, -, hbuiltin⟩ := hvalid f hf
    exact ⟨hmem, hsep, href, hdefault, hbuiltin⟩

/-- The defaults of a new node can be written. -/
theorem writeCreate_empty_costs {t : TypeLayout} (ht : t.Placed) {fields : List (Field EdgeLayout)}
    (hperm : fields.Perm (missingDefaults [] 0 t.props))
    (hfields : ∀ f ∈ fields, f.prop ∈ t.props ∧ f.prop.isMain = false ∧ f.prop.type.isReference = false ∧
      f.prop.default = some f.value ∧ f.prop.validateBuiltin f.value = .ok ())
    (c : Context) (hlocale : (∃ p ∈ t.props, PropDef.PlainText p) → c.locale ≠ Locale.none) (type : TypeId)
    (node : NodeTarget) :
    Costs type node (writeCreate c t fields) (5 + t.mainLen + (t.props.map PropDef.defaultRoom).sum) := by
  have hblock : mainBlock t fields = .ok t.mainDefaults := by
    have hnone : fields.filter (fun f => f.prop.isMain && !f.value.isNull) = [] :=
      List.filter_eq_nil_iff.2 fun f hf => by simp [(hfields f hf).2.1]
    unfold mainBlock
    rw [hnone]
    rfl
  have hall : fields.filter (fun f => !f.prop.isMain) = fields :=
    List.filter_eq_self.2 fun f hf => by simp [(hfields f hf).2.1]
  have hseparate : Costs type node (fields.forM fun f => writeSeparate c (encodeEdges c) true f.prop f.value)
      (t.props.map PropDef.defaultRoom).sum := by
    rw [← sum_missingDefaults 0, ← (hperm.map _).sum_eq]
    refine Costs.forM fun f hf => ?_
    obtain ⟨hmem, hsep, href, hdefault, hvalid⟩ := hfields f hf
    obtain ⟨slot, hslot⟩ := PropDef.isMain_eq_false_iff.1 hsep
    exact writeSeparate_costs c _ (ht.measured _ hmem) hslot href hvalid fun htext s hs =>
      hlocale ⟨f.prop, hmem, htext, s, hs ▸ hdefault⟩
  have hlength : (encodeAll [.mainBlock t.mainDefaults]).length = 5 + t.mainLen := by
    simp [encodeAll, Instr.encode, Wire.length_sized, ht.defaults]
    omega
  unfold writeCreate writeCreateWith
  rw [hblock, hall]
  split
  · exact (hlength ▸ nodeInstr_costs type node (.mainBlock t.mainDefaults)).bind hseparate
  · exact hseparate.mono (Nat.le_add_left ..)

namespace Session

variable {s : Session}

/-- A session has a locale if its schema has one. -/
theorem start_locale_ne_none {decl : SchemaDecl} {priority : Priority} {schema : SchemaLayout}
    (hschema : decl.compile priority = .ok schema) (hlocales : schema.locales ≠ []) {options : Options}
    (h : start schema options = .ok s) : s.locale ≠ Locale.none := by
  have hids : ∀ l ∈ schema.locales, l.id ≠ Locale.none := fun l hl hzero => by
    have hcode := Locale.codeOf?_of_idOf? (compile_locales hschema l hl)
    exact (Locale.codeOf?_eq_some hcode).1 (by rw [hzero]; rfl)
  unfold start at h
  dsimp only at h
  split at h
  · split at h
    · rename_i l hl
      cases h
      exact hids l (List.mem_of_find?_eq_some hl)
    · cases h
  · cases h
    cases hlist : schema.locales with
    | nil => exact absurd hlist hlocales
    | cons l ls => exact hids l (hlist ▸ List.mem_cons_self)

/-- With enough room, a node is created from an empty record in the open buffer. -/
theorem create_empty {decl : SchemaDecl} {priority : Priority} {schema : SchemaLayout}
    (hschema : decl.compile priority = .ok schema) {type : String} {t : TypeLayout} (ht : schema.typeByName? type = some t)
    (hlocales : schema.locales ≠ [] ∨ ∀ p ∈ t.props, ¬PropDef.PlainText p) {options : Options}
    (hroom : Layout.defaultsRoom t ≤ options.maxBuffer) (hstart : start schema options = .ok s) :
    ∃ p s', create type [] s = .ok p s' ∧ s'.outbox = [] ∧ s'.bufferedLength ≤ Layout.defaultsRoom t := by
  have hmem := List.mem_of_find?_eq_some ht
  obtain ⟨hs, -, -, hencoder, hregistry, hout, -⟩ := started_of_start hstart
  obtain ⟨fields, hfields, hperm, hdefaults⟩ := collectFields_empty (compile_packed hschema t hmem) s.lenient
  have hcosts := writeCreate_empty_costs ((compile_placed hschema).types t hmem) hperm hdefaults s.context
    (fun ⟨p, hp, hplain⟩ => start_locale_ne_none hschema (hlocales.resolve_right fun h => h p hp hplain) hstart)
    t.id (.tmp 0)
  let d : Draft := ⟨.new options.maxBuffer, []⟩
  have hselector : d.encoder.cursor.selectType t.id ++ [.createNode 0] = [.selectType t.id, .createNode 0] := by
    rw [show d.encoder.cursor = .idle from rfl, selectType_idle]
    rfl
  have hlength : (encodeAll [.selectType t.id, .createNode 0]).length = 8 := by simp [encodeAll, Instr.encode]
  unfold Layout.defaultsRoom at hroom ⊢
  have hcreate := createNode_of_room t.id 0 d fun m hm => by
    cases hm
    rw [hselector, hlength]
    exact Nat.le_trans (Nat.le_add_right 8 _) hroom
  rw [hselector] at hcreate
  have hused : ((d.append [.selectType t.id, .createNode 0]).at (.main t.id (.tmp 0))).encoder.buffer.length = 8 := hlength
  obtain ⟨d', hwrite, -, -, hlen⟩ := hcosts ((d.append [.selectType t.id, .createNode 0]).at (.main t.id (.tmp 0))) rfl
    fun m hm => by
      cases hm
      omega
  let call : Context → EncodeM Unit := fun c => do
    createNode t.id c.registry.nextTmp
    writeCreate c t fields
  have hcall : call s.context ⟨s.encoder, []⟩ = .ok () ⟨d'.encoder, d'.placeholders⟩ := by
    have htmp : s.context.registry.nextTmp = 0 := congrArg Registry.nextTmp hregistry
    change (createNode t.id s.context.registry.nextTmp >>= fun _ => writeCreate s.context t fields) _ = .ok () d'
    rw [htmp, hencoder, EStateM.bind_of_ok hcreate]
    exact hwrite
  have hrun : run call s = .ok ((), d'.placeholders) { s with encoder := d'.encoder } :=
    run_of_ok (attempt_eq_ok.2 ⟨d'.encoder, hcall, rfl⟩)
  refine ⟨_, _, (create_of_fields (hs ▸ ht) hfields).trans (EStateM.bind_of_ok hrun), hout, ?_⟩
  exact Nat.le_trans hlen (Nat.add_le_add_right (Nat.le_of_eq hused) _)

end Session

/-! ### Reading -/

/-- The value that the default of a property is read as. -/
def PropDef.readDefault (p : PropDef EdgeLayout) (home : Option String) (v : Value) : Value :=
  if p.isMain then p.stored v
  else
    match p.type with
    | .text => textsValue (writeTexts home true [] v)
    | .cardinality => countValue (sinceNull [v])
    | _ => v

theorem recalled_empty {p : PropDef EdgeLayout} {v : Value} (h : p.default = some v) (locale : UInt8) :
    recalled locale [] [] p = PropDef.readDefault p (Locale.codeOf? locale) v := by
  unfold recalled PropDef.valueAfter PropDef.readDefault givenTo
  cases hmain : p.isMain with
  | true => simp [h, PropDef.initial, Record.writesAt, sinceNull]
  | false => cases htype : p.type <;> simp [h, Record.writesAt]

/-- A stored node reads as what it shows. Its bytes have to leave room for the lengths in the answer, which have four
bytes. -/
theorem Memory.reads_everything {decl : SchemaDecl} {priority : Priority} {m : Memory}
    (hcompile : decl.compile priority = .ok m.schema) {type : String} {t : TypeLayout}
    (htype : m.schema.typeByName? type = some t) {id : NodeId} {n : StoredNode} (hnode : m.store.node? t.id id = some n)
    (hfits : n.Fits (fun _ _ => True) t) (hsize : n.size < 2 ^ 32 - 2 ^ 17) {told : PropDef EdgeLayout → Value}
    (hshows : Result.Shows m.schema t n told) :
    ∃ q bytes r, (Query.everything type id).compile m.schema = .ok q ∧ m.query q.bytes = .ok bytes ∧
      q.decode bytes = .ok ⟨1, [.ok r]⟩ ∧ ∀ prop ∈ t.plainProps, r.lookup prop.path = some (told prop) := by
  have hmem : t ∈ m.schema.types := List.mem_of_find?_eq_some htype
  have hplaced := compile_placed hcompile
  have ht := hplaced.types t hmem
  have hk := compile_packed hcompile t hmem
  have ha := compile_addressed hcompile t hmem
  have hfound := hplaced.ids t hmem
  have hid : t.id ≠ 0 := fun hzero => by
    rw [hzero] at hfound
    cases hfound
  have hlen := Result.length_recordInstrs_le_of_shows ht hk hfits.main hfits.sorted hshows
  have hmax : Limits.maxMainLength = 65535 := rfl
  have hmain := ht.room
  obtain ⟨r, hdecode, hlookup⟩ := Result.decodeBody_everything ht ha hfits.main hshows (by omega)
  have hread := Result.decodeResult_frame m.schema (Query.everythingPlan t) id
    ((recordInstrs m.schema t n).flatMap Result.Instr.encode ++ Result.Instr.stop.encode)
    (by rw [List.length_append]; change _ + 1 < _; omega)
  refine ⟨_, _, r.insert "id" (.int (.ofInt id.toNat)), Query.compile_everything htype hid id,
    query_everything hfound ht hk hnode hfits.main rfl, ?_, fun prop hprop => ?_⟩
  · refine hread.trans ?_
    rw [Result.decodeNode, hdecode]
    rfl
  · obtain ⟨hmem, href⟩ := List.mem_filter.1 hprop
    have hhead : prop.path.head? ≠ some "id" := fun hhead => by
      have hfree := ha.unreserved prop hmem (by simpa using href) "id" (List.mem_of_head? hhead)
      exact absurd hfree (by decide)
    rw [Record.lookup_insert_of_ne hhead, hlookup prop hprop]

namespace Session

variable {s : Session}

end Session

end NodeStore.Write
