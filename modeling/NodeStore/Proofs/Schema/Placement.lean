import NodeStore.Proofs.Schema.Stages

/-!
# What compiled layouts promise

Every compiled property has the width that its type asks for, at a place that it shares with no other.

* `PropDef.Measured`, `Layout.Placed`, `SchemaLayout.Placed`: the promises for a property, a layout and a schema.
* `layoutOf_placed`: placing keeps them apart.
* `compile_placed`: every schema that compiles keeps the promises.
-/

namespace NodeStore

variable {E : Type}

/-- Width and place of a property follow from its type. -/
structure PropDef.Measured (p : PropDef E) : Prop where
  fixed : ∀ w, p.type.fixedWidth = some w → p.isMain = true ∧ p.len = w
  separate : p.type.alwaysSeparate = true → p.isMain = false
  /-- Strings and binaries of the main block have a byte for their length. -/
  short : p.isMain = true → p.type.fixedWidth = none → (p.type = .string ∨ p.type = .binary) ∧ 0 < p.len
  target : p.target.isSome = p.type.isReference
  edges : p.edges.isSome = true → p.type.isReference = true

/-- Each property of a layout has a place of its own. -/
structure Layout.Placed (t : Layout E) : Prop where
  measured : ∀ p ∈ t.props, p.Measured
  slots : (t.props.filterMap (·.slot?)).Nodup
  slot_range : ∀ p ∈ t.props, ∀ slot, p.slot? = some slot → 0 < slot.toNat ∧ slot.toNat ≤ Limits.maxSeparateSlot
  inside : ∀ p ∈ t.props, ∀ offset, p.offset? = some offset → offset + p.len ≤ t.mainLen
  defaults : t.mainDefaults.length = t.mainLen
  room : t.mainLen ≤ Limits.maxMainLength

/-- Every type and every layout of what links store is placed, types are found by their ids, and the two ends of a
relation share one layout. -/
structure SchemaLayout.Placed (s : SchemaLayout) : Prop where
  ids : ∀ t ∈ s.types, s.typeById? t.id = some t
  found : ∀ id t, s.typeById? id = some t → t ∈ s.types ∧ t.id = id
  types : ∀ t ∈ s.types, t.Placed
  edges : ∀ t ∈ s.types, ∀ p ∈ t.props, ∀ e, p.edges = some e → e.Placed
  targets : ∀ t ∈ s.types, ∀ p ∈ t.props, ∀ r, p.target = some r → ∃ u, s.typeById? r.id = some u ∧ u.name = r.type
  shared : ∀ t ∈ s.types, ∀ p ∈ t.props, ∀ u ∈ s.types, ∀ q ∈ u.props, ∀ e f, p.edges = some e → q.edges = some f →
    Schema.relationKey t.name p.name p.target = Schema.relationKey u.name q.name q.target → e = f

namespace Layout

/-- A slot belongs to one property. -/
theorem Placed.slot_unique {t : Layout E} (h : t.Placed) {p q : PropDef E} (hp : p ∈ t.props) (hq : q ∈ t.props)
    {slot : UInt8} (hps : p.slot? = some slot) (hqs : q.slot? = some slot) : p = q := by
  obtain ⟨ps, hps'⟩ : ∃ ps, ps = t.props := ⟨_, rfl⟩
  have hn := h.slots
  rw [← hps'] at hp hq hn
  clear hps' h
  induction ps with
  | nil => cases hp
  | cons x xs ih =>
    have hmem : ∀ y ∈ xs, y.slot? = some slot → slot ∈ xs.filterMap (·.slot?) := fun y hy hys =>
      List.mem_filterMap.2 ⟨y, hy, hys⟩
    rcases List.mem_cons.1 hp with hpx | hp'
    · rcases List.mem_cons.1 hq with hqx | hq'
      · rw [hpx, hqx]
      · subst hpx
        rw [List.filterMap_cons_some hps] at hn
        exact absurd (hmem q hq' hqs) (List.nodup_cons.1 hn).1
    · rcases List.mem_cons.1 hq with hqx | hq'
      · subst hqx
        rw [List.filterMap_cons_some hqs] at hn
        exact absurd (hmem p hp' hps) (List.nodup_cons.1 hn).1
      · refine ih hq' hp' ?_
        cases hx : x.slot? with
        | none => rwa [List.filterMap_cons_none hx] at hn
        | some s => exact (List.nodup_cons.1 (by rwa [List.filterMap_cons_some hx] at hn)).2

theorem mem_of_propBySlot? {t : Layout E} {slot : UInt8} {p : PropDef E} (h : t.propBySlot? slot = some p) :
    p ∈ t.props ∧ p.slot? = some slot :=
  ⟨List.mem_of_find?_eq_some h, by simpa using List.find?_some h⟩

theorem mem_of_prop? {t : Layout E} {name : String} {p : PropDef E} (h : t.prop? name = some p) :
    p ∈ t.props ∧ p.name = name :=
  ⟨List.mem_of_find?_eq_some h, by simpa using List.find?_some h⟩

theorem mem_of_longestProp? {t : Layout E} {segments : List String} {p : PropDef E} {n : Nat}
    (h : t.longestProp? segments = some (p, n)) : p ∈ t.props := by
  unfold longestProp? at h
  generalize segments.length = k at h
  induction k with
  | zero => cases h
  | succ k ih =>
    rw [longestPropWithin] at h
    split at h
    · rename_i hp
      cases h
      exact (mem_of_prop? hp).1
    · exact ih h

/-- The property of a slot is found. -/
theorem Placed.propBySlot? {t : Layout E} (h : t.Placed) {p : PropDef E} (hp : p ∈ t.props) {slot : UInt8}
    (hs : p.slot? = some slot) : t.propBySlot? slot = some p := by
  cases hf : t.propBySlot? slot with
  | none =>
    have := List.find?_eq_none.1 hf p hp
    simp [hs] at this
  | some q =>
    obtain ⟨hq, hqs⟩ := mem_of_propBySlot? hf
    rw [h.slot_unique hq hp hqs hs]

end Layout

theorem PropDef.isMain_eq_false_iff {p : PropDef E} : p.isMain = false ↔ ∃ slot, p.slot? = some slot := by
  cases h : p.location <;> simp [isMain, slot?, h]

/-- A reference has a slot. -/
theorem PropDef.Measured.slot_of_reference {p : PropDef E} (h : p.Measured) (hr : p.type.isReference = true) :
    ∃ slot, p.slot? = some slot := by
  refine PropDef.isMain_eq_false_iff.1 (h.separate ?_)
  cases ht : p.type <;> simp_all [PropType.isReference, PropType.alwaysSeparate]

/-- A property at a place of the kind that its type asks for is measured as before. -/
theorem PropDef.Measured.placed {d : PropDef E} (hd : d.Measured) {place : Location}
    (hp : PropDef.isMain { d with location := place } = d.isMain) :
    PropDef.Measured { d with location := place } where
  fixed w hw := ⟨hp.trans (hd.fixed w hw).1, (hd.fixed w hw).2⟩
  separate hs := hp.trans (hd.separate hs)
  short hm := hd.short (hp.symm.trans hm)
  target := hd.target
  edges := hd.edges

namespace Schema

/-! ## Properties -/

theorem measure_spec {type : String} {p : FlatProp} {len : Nat} {main : Bool} (h : measure type p = .ok (len, main)) :
    (∀ w, p.type.fixedWidth = some w → main = true ∧ len = w) ∧ (p.type.alwaysSeparate = true → main = false) ∧
      (main = true → p.type.fixedWidth = none → (p.type = .string ∨ p.type = .binary) ∧ 0 < len) := by
  unfold measure at h
  cases ht : p.type <;> simp only [ht] at h <;> repeat' split at h
  all_goals simp_all [PropType.fixedWidth, PropType.alwaysSeparate]
  all_goals omega

/-- A target has the number of its type. -/
theorem resolveTarget_spec {c : Context} {inverses : Bool} {type : String} {p : FlatProp} {target : Option RefTarget}
    (h : resolveTarget c inverses type p = .ok target) :
    target.isSome = p.type.isReference ∧
      ∀ r, target = some r → ∃ i, c.typeNames[i]? = some r.type ∧ r.id = UInt16.ofNat (i + 1) := by
  unfold resolveTarget at h
  split at h
  · rename_i hr
    cases h
    exact ⟨by simpa using hr, nofun⟩
  · rename_i hr
    split at h
    · cases h
    · split at h
      · cases h
      · rename_i target _ i hi
        cases h
        refine ⟨by simpa using hr, ?_⟩
        rintro r ⟨⟩
        obtain ⟨hlt, hname, -⟩ := List.findIdx?_eq_some_iff_getElem.1 hi
        exact ⟨i, by simpa [List.getElem?_eq_getElem hlt] using hname, rfl⟩

/-- What the compilation of a property makes of it, before it has a place. -/
theorem compileProp_spec {E : Type} {c : Context} {inverses : Bool} {edgesOf : EdgeCompiler E} {type : String}
    {p : FlatProp} {cache cache' : EdgeCache} {d : PropDef E}
    (h : compileProp c inverses edgesOf type p cache = .ok (d, cache')) :
    d.Measured ∧ (∀ r, d.target = some r → ∃ i, c.typeNames[i]? = some r.type ∧ r.id = UInt16.ofNat (i + 1)) ∧
      (d.edges = none ∧ cache' = cache ∨
        ∃ e, d.edges = some e ∧ edgesOf type d.name d.target p.edges cache = .ok (e, cache')) := by
  obtain ⟨⟨len, main⟩, target, edges, hm, hc, ht, he, rfl, -⟩ := compileProp_eq_ok.1 h
  obtain ⟨hfixed, hsep, hshort⟩ := measure_spec hm
  obtain ⟨hsome, hname⟩ := resolveTarget_spec ht
  have hmain : (unplaced c p len main target edges).isMain = main := by
    cases main <;> rfl
  have hmeasured (href : edges.isSome = true → p.type.isReference = true) : (unplaced c p len main target edges).Measured :=
    ⟨fun w hw => ⟨hmain.trans (hfixed w hw).1, (hfixed w hw).2⟩, fun hs => hmain.trans (hsep hs),
      fun hm => hshort (hmain.symm.trans hm), hsome, href⟩
  rcases compileEdges_eq_ok.1 he with ⟨-, rfl, rfl⟩ | ⟨hedges, e, rfl, hmade⟩
  · exact ⟨hmeasured fun hsome => absurd hsome Bool.false_ne_true, hname, .inl ⟨rfl, rfl⟩⟩
  · exact ⟨hmeasured fun _ => checkProp_edges hc hedges, hname, .inr ⟨e, rfl, hmade⟩⟩

/-! ## Places -/

section

variable {E : Type}

theorem length_encodeShort {width : Nat} {bs out : Bytes} (h : encodeShort width bs = .ok out) :
    out.length = width := by
  unfold encodeShort at h
  split at h
  · cases h
  · cases h
    simp
    omega

/-- A value of the main block fills the width of its property. -/
theorem length_encodeFixed {p : PropDef E} (hp : p.Measured) {v : Value} {bs : Bytes}
    (h : p.encodeFixed p.len v = .ok bs) : bs.length = p.len := by
  have hw := hp.fixed
  unfold PropDef.encodeFixed at h
  rw [if_neg (by simp)] at h
  cases ht : p.type <;> simp only [ht] at h hw <;> repeat' split at h
  all_goals first
    | cases h
    | exact length_encodeShort h
  all_goals simp_all [PropType.fixedWidth, Binary64.toBytes]

theorem length_defaultBytes {type : String} {d : PropDef E} (hd : d.Measured) {bs : Bytes}
    (h : defaultBytes type d = .ok bs) : bs.length = d.len := by
  unfold defaultBytes at h
  split at h
  · cases h
    simp
  · split at h
    · rename_i h'
      cases h
      exact length_encodeFixed hd h'
    · cases h

theorem mem_placeMain {q : PropDef E} {ds : List (PropDef E)} {offset : Nat} (h : q ∈ placeMain offset ds) :
    ∃ d ∈ ds, ∃ n, q = { d with location := .main n } ∧ n + d.len ≤ offset + mainLength ds := by
  induction ds generalizing offset with
  | nil => cases h
  | cons d ds ih =>
    rw [placeMain, List.mem_cons] at h
    rcases h with rfl | h
    · refine ⟨d, List.mem_cons_self, offset, rfl, ?_⟩
      simp [mainLength]
    · obtain ⟨d', hd', n, rfl, hn⟩ := ih h
      refine ⟨d', List.mem_cons_of_mem _ hd', n, rfl, ?_⟩
      simp only [mainLength, List.foldr_cons] at hn ⊢
      omega

theorem mem_placeSeparate {q : PropDef E} {ds : List (PropDef E)} {slot : Nat} (h : q ∈ placeSeparate slot ds) :
    ∃ d ∈ ds, ∃ n, q = { d with location := .separate (UInt8.ofNat n) } ∧ slot ≤ n ∧ n < slot + ds.length := by
  induction ds generalizing slot with
  | nil => cases h
  | cons d ds ih =>
    rw [placeSeparate, List.mem_cons] at h
    rcases h with rfl | h
    · exact ⟨d, List.mem_cons_self, slot, rfl, Nat.le_refl _, by simp⟩
    · obtain ⟨d', hd', n, rfl, hn⟩ := ih h
      refine ⟨d', List.mem_cons_of_mem _ hd', n, rfl, ?_⟩
      simp only [List.length_cons]
      omega

theorem slots_placeMain (offset : Nat) (ds : List (PropDef E)) :
    (placeMain offset ds).filterMap (·.slot?) = [] := by
  induction ds generalizing offset with
  | nil => rfl
  | cons d ds ih =>
    rw [placeMain, List.filterMap_cons_none rfl, ih]

theorem slots_placeSeparate (slot : Nat) (ds : List (PropDef E)) :
    (placeSeparate slot ds).filterMap (·.slot?) = (List.range' slot ds.length).map UInt8.ofNat := by
  induction ds generalizing slot with
  | nil => rfl
  | cons d ds ih =>
    change UInt8.ofNat slot :: (placeSeparate (slot + 1) ds).filterMap (·.slot?) = _
    rw [ih, List.length_cons, List.range'_succ, List.map_cons]

theorem length_mainDefaults {type : String} {ds : List (PropDef E)} (hd : ∀ d ∈ ds, d.Measured) {bss : List Bytes}
    (h : ds.mapM (defaultBytes type) = .ok bss) : bss.flatten.length = mainLength ds := by
  induction ds generalizing bss with
  | nil => cases h; rfl
  | cons d ds ih =>
    rw [List.mapM_cons] at h
    obtain ⟨bs, hbs, h⟩ := Except.bind_eq_ok.1 h
    obtain ⟨rest, hrest, h⟩ := Except.bind_eq_ok.1 h
    cases h
    have h1 := length_defaultBytes (hd d List.mem_cons_self) hbs
    have h2 := ih (fun d' hd' => hd d' (List.mem_cons_of_mem _ hd')) hrest
    simp [mainLength] at h2 ⊢
    omega

theorem mainLength_placeMain (offset : Nat) (ds : List (PropDef E)) :
    mainLength (placeMain offset ds) = mainLength ds := by
  induction ds generalizing offset with
  | nil => rfl
  | cons d ds ih =>
    have := ih (offset + d.len)
    simp only [mainLength, placeMain, List.foldr_cons] at this ⊢
    omega

theorem mem_placeAll {priority : Priority} {defs : List (PropDef E)} {q : PropDef E} (h : q ∈ placeAll priority defs) :
    ∃ d ∈ defs, ∃ place, q = { d with location := place } := by
  rcases List.mem_append.1 h with h | h
  · obtain ⟨d, hd, n, rfl, -⟩ := mem_placeMain h
    exact ⟨d, List.mem_of_mem_filter (List.mem_mergeSort.1 hd), _, rfl⟩
  · obtain ⟨d, hd, n, rfl, -⟩ := mem_placeSeparate h
    exact ⟨d, List.mem_of_mem_filter (List.mem_mergeSort.1 hd), _, rfl⟩

/-- The properties of a layout are those of the main block and then those with slots, each at its place. -/
theorem layoutOf_spec {priority : Priority} {name : String} {id : TypeId} {defs : List (PropDef E)} {t : Layout E}
    (h : layoutOf priority name id defs = .ok t) :
    ∃ main separate bss, (∀ d ∈ main, d ∈ defs ∧ d.isMain = true) ∧ (∀ d ∈ separate, d ∈ defs ∧ d.isMain = false) ∧
      separate.length ≤ Limits.maxSeparateSlot ∧ (placeMain 0 main).mapM (defaultBytes name) = .ok bss ∧
      t.name = name ∧ t.id = id ∧ t.mainLen = mainLength main ∧ t.mainLen ≤ Limits.maxMainLength ∧
      t.mainDefaults = bss.flatten ∧ t.props = placeMain 0 main ++ placeSeparate 1 separate := by
  obtain ⟨hroom, hlen, bss, hbss, rfl⟩ := layoutOf_eq_ok.1 h
  refine ⟨mainOf defs, separateOf priority defs, bss, fun d hd => ?_, fun d hd => ?_, hlen, hbss, rfl, rfl, rfl, hroom, rfl,
    rfl⟩
  · rw [mainOf, List.mem_mergeSort] at hd
    simpa using hd
  · rw [separateOf, List.mem_mergeSort] at hd
    simpa using hd

/-- Placing keeps properties apart, and changes nothing of them but their places. -/
theorem layoutOf_placed {priority : Priority} {name : String} {id : TypeId} {defs : List (PropDef E)} {t : Layout E}
    (hd : ∀ d ∈ defs, d.Measured) (h : layoutOf priority name id defs = .ok t) :
    t.Placed ∧ t.name = name ∧ t.id = id ∧ ∀ q ∈ t.props, ∃ d ∈ defs, ∃ place, q = { d with location := place } := by
  obtain ⟨main, separate, bss, hmain, hsep, hlen, hbss, hname, hid, hmainLen, hroom, hdefaults, hprops⟩ :=
    layoutOf_spec h
  have hmax : Limits.maxSeparateSlot = 250 := rfl
  have hplaced : ∀ p ∈ placeMain 0 main, p.Measured := fun p hp => by
    obtain ⟨d, hd', n, rfl, -⟩ := mem_placeMain hp
    exact (hd d (hmain d hd').1).placed (by rw [(hmain d hd').2]; rfl)
  have hcases : ∀ p ∈ t.props, p ∈ placeMain 0 main ∨ p ∈ placeSeparate 1 separate := fun p hp =>
    List.mem_append.1 (hprops ▸ hp)
  refine ⟨⟨fun p hp => ?_, ?_, fun p hp slot hslot => ?_, fun p hp offset ho => ?_, ?_, hroom⟩, hname, hid,
    fun p hp => ?_⟩
  · rcases hcases p hp with hp | hp
    · exact hplaced p hp
    · obtain ⟨d, hd', n, rfl, -⟩ := mem_placeSeparate hp
      exact (hd d (hsep d hd').1).placed (by rw [(hsep d hd').2]; rfl)
  · rw [hprops, List.filterMap_append, slots_placeMain, slots_placeSeparate, List.nil_append, List.Nodup,
      List.pairwise_map]
    refine List.Pairwise.imp_of_mem (fun ha hb hne hab => hne ?_) List.nodup_range'
    rw [List.mem_range'_1] at ha hb
    have := congrArg UInt8.toNat hab
    simp only [UInt8.toNat_ofNat'] at this
    omega
  · rcases hcases p hp with hp | hp
    · obtain ⟨d, -, n, rfl, -⟩ := mem_placeMain hp
      cases hslot
    · obtain ⟨d, -, n, rfl, hn⟩ := mem_placeSeparate hp
      cases hslot
      rw [UInt8.toNat_ofNat']
      omega
  · rcases hcases p hp with hp | hp
    · obtain ⟨d, -, n, rfl, hn⟩ := mem_placeMain hp
      cases ho
      simpa [hmainLen] using hn
    · obtain ⟨d, -, n, rfl, -⟩ := mem_placeSeparate hp
      cases ho
  · rw [hdefaults, length_mainDefaults hplaced hbss, mainLength_placeMain, hmainLen]
  · rcases hcases p hp with hp | hp
    · obtain ⟨d, hd', n, rfl, -⟩ := mem_placeMain hp
      exact ⟨d, (hmain d hd').1, _, rfl⟩
    · obtain ⟨d, hd', n, rfl, -⟩ := mem_placeSeparate hp
      exact ⟨d, (hsep d hd').1, _, rfl⟩

end

/-! ## Layouts of links -/

/-- All layouts made so far are placed. -/
def EdgeCache.Placed (cache : EdgeCache) : Prop := ∀ x ∈ cache, x.2.Placed

theorem EdgeCache.Placed.layout {cache : EdgeCache} (h : cache.Placed) {key : RelationKey} {e : EdgeLayout}
    (he : cache.layout? key = some e) : e.Placed := by
  obtain ⟨x, hx, rfl⟩ := Option.map_eq_some_iff.1 he
  exact h x (List.mem_of_find?_eq_some hx)

/-- One layout is made for each relation, and stays. -/
theorem edgeLayout_spec {c : Context} {type path : String} {target : Option RefTarget}
    {edges : List (String × PropDecl)} {cache cache' : EdgeCache} {e : EdgeLayout} (hc : cache.Placed)
    (h : edgeLayout c type path target edges cache = .ok (e, cache')) :
    cache'.Placed ∧ cache'.layout? (relationKey type path target) = some e ∧
      ∀ key f, cache.layout? key = some f → cache'.layout? key = some f := by
  rcases edgeLayout_eq_ok.1 h with ⟨hfound, rfl⟩ | ⟨hnone, ⟨flat, defs, -, -, hdefs, hl⟩, rfl⟩
  · exact ⟨hc, hfound, fun _ _ h => h⟩
  · have hmeasured : ∀ d ∈ defs, d.Measured := fun d hd => by
      obtain ⟨p, -, hp⟩ := exists_of_forall₂_left hdefs.flip hd
      exact (compileProp_spec hp).1
    refine ⟨fun x hx => ?_, ?_, fun key f hk => ?_⟩
    · rcases List.mem_append.1 hx with hx | hx
      · exact hc x hx
      · rw [List.mem_singleton.1 hx]
        exact (layoutOf_placed hmeasured hl).1
    · rw [layout?_append, hnone, if_pos rfl, Option.none_or]
    · rw [layout?_append, hk, Option.some_or]

/-! ## Types -/

/-- A type whose links have the layouts made for their relations, and whose references name types. -/
structure TypeCompiled (c : Context) (cache : EdgeCache) (t : TypeLayout) : Prop where
  placed : t.Placed
  edges : ∀ p ∈ t.props, ∀ e, p.edges = some e → cache.layout? (relationKey t.name p.name p.target) = some e
  targets : ∀ p ∈ t.props, ∀ r, p.target = some r → ∃ i, c.typeNames[i]? = some r.type ∧ r.id = UInt16.ofNat (i + 1)

theorem TypeCompiled.mono {c : Context} {cache cache' : EdgeCache} {t : TypeLayout} (h : TypeCompiled c cache t)
    (hc : ∀ key f, cache.layout? key = some f → cache'.layout? key = some f) : TypeCompiled c cache' t where
  placed := h.placed
  edges p hp e he := hc _ _ (h.edges p hp e he)
  targets := h.targets

theorem typeLayout_spec {c : Context} {name : String} {id : TypeId} {flat : List FlatProp} {cache cache' : EdgeCache}
    {t : TypeLayout} (hc : cache.Placed) (h : typeLayout c name id flat cache = .ok (t, cache')) :
    TypeCompiled c cache' t ∧ t.name = name ∧ t.id = id ∧ cache'.Placed ∧
      ∀ key f, cache.layout? key = some f → cache'.layout? key = some f := by
  obtain ⟨-, defs, hdefs, hl⟩ := typeLayout_eq_ok.1 h
  let Kept (s : EdgeCache) : Prop := s.Placed ∧ ∀ key f, cache.layout? key = some f → s.layout? key = some f
  let Found (_ : FlatProp) (d : PropDef EdgeLayout) (s : EdgeCache) : Prop :=
    d.Measured ∧ (∀ r, d.target = some r → ∃ i, c.typeNames[i]? = some r.type ∧ r.id = UInt16.ofNat (i + 1)) ∧
      ∀ e, d.edges = some e → s.layout? (relationKey name d.name d.target) = some e
  have hstep : ∀ x s (y : PropDef EdgeLayout) s', s.Placed → compileProp c true (edgeLayout c) name x s = .ok (y, s') →
      s'.Placed ∧ (∀ key f, s.layout? key = some f → s'.layout? key = some f) ∧ Found x y s' := by
    intro x s y s' hs hx
    obtain ⟨hy, htarget, ⟨hnone, rfl⟩ | ⟨e, he, hlayout⟩⟩ := compileProp_spec hx
    · exact ⟨hs, fun _ _ h => h, hy, htarget, fun e he => by rw [hnone] at he; cases he⟩
    · obtain ⟨hs', hfound, hmono⟩ := edgeLayout_spec hs hlayout
      refine ⟨hs', hmono, hy, htarget, fun f hf => ?_⟩
      rw [he] at hf
      cases hf
      exact hfound
  obtain ⟨⟨hs, hmono⟩, hfound'⟩ := mapM_invariant (P := Kept) (Q := Found) hdefs ⟨hc, fun _ _ h => h⟩
    (fun x _ s y s' hs hx => by
      obtain ⟨h1, h2, h3⟩ := hstep x s y s' hs.1 hx
      exact ⟨⟨h1, fun key f hf => h2 _ _ (hs.2 key f hf)⟩, h3⟩)
    (fun x y s x' y' s' hs hq hx => by
      obtain ⟨-, h2, -⟩ := hstep x' s y' s' hs.1 hx
      exact ⟨hq.1, hq.2.1, fun e he => h2 _ _ (hq.2.2 e he)⟩)
  obtain ⟨hplaced, hname, hid, hprops⟩ := layoutOf_placed (fun d hd => (hfound' d hd).choose_spec.2.1) hl
  refine ⟨⟨hplaced, fun p hp e he => ?_, fun p hp => ?_⟩, hname, hid, hs, hmono⟩
  · obtain ⟨d, hd, place, rfl⟩ := hprops p hp
    rw [hname]
    exact (hfound' d hd).choose_spec.2.2.2 e he
  · obtain ⟨d, hd, place, rfl⟩ := hprops p hp
    exact (hfound' d hd).choose_spec.2.2.1

theorem typeLayouts_spec {c : Context} {id : Nat} {flat : FlatTypes} {cache cache' : EdgeCache}
    {ts : List TypeLayout} (hc : cache.Placed) (h : typeLayouts c id flat cache = .ok (ts, cache')) :
    (∀ t ∈ ts, TypeCompiled c cache' t) ∧ ts.map (·.name) = flat.map (·.1) ∧
      ts.map (·.id) = (List.range' id flat.length).map UInt16.ofNat ∧ cache'.Placed ∧
      ∀ key f, cache.layout? key = some f → cache'.layout? key = some f := by
  induction flat generalizing id cache ts with
  | nil =>
    cases h
    exact ⟨nofun, rfl, rfl, hc, fun _ _ h => h⟩
  | cons x rest ih =>
    obtain ⟨t, s, others, ht, hothers, rfl⟩ := typeLayouts_cons_eq_ok.1 h
    obtain ⟨htype, hname, hid, hs, hmono⟩ := typeLayout_spec hc ht
    obtain ⟨htypes, hnames, hids, hs', hmono'⟩ := ih hs hothers
    refine ⟨fun u hu => ?_, by rw [List.map_cons, List.map_cons, hname, hnames], ?_, hs', fun key f hf =>
      hmono' _ _ (hmono _ _ hf)⟩
    · rcases List.mem_cons.1 hu with rfl | hu
      · exact htype.mono hmono'
      · exact htypes u hu
    · rw [List.map_cons, hid, hids, List.length_cons, List.range'_succ, List.map_cons]

/-! ## Schemas -/

theorem names_modifyType (types : FlatTypes) (type : String) (f : List FlatProp → List FlatProp) :
    (types.modifyType type f).map (·.1) = types.map (·.1) := by
  induction types with
  | nil => rfl
  | cons x rest ih =>
    rw [FlatTypes.modifyType]
    split
    · rfl
    · rw [List.map_cons, ih, List.map_cons]

/-- Resolving inverses moves no type. -/
theorem names_resolveInverses {types out : FlatTypes} (h : resolveInverses types = .ok out) :
    out.map (·.1) = types.map (·.1) :=
  resolveInverses_invariant (P := fun ts => ts.map (·.1) = types.map (·.1)) h rfl
    (fun _ _ _ _ hts => (names_modifyType ..).trans hts) fun _ _ _ hts => (names_modifyType ..).trans hts

theorem length_flattenTypes {seen : Std.HashSet String} {decls : List (String × List (String × PropDecl))}
    {types : FlatTypes} (h : flattenTypes seen decls = .ok types) : types.length = decls.length :=
  (flattenTypes_eq_ok.1 h).2.2.length_eq.symm

/-- Types with consecutive ids from 1 on are found by their ids. -/
theorem typeById?_of_ids {s : SchemaLayout} (hlen : s.types.length ≤ Limits.maxTypes)
    (hids : s.types.map (·.id) = (List.range' 1 s.types.length).map UInt16.ofNat) (i : Nat) (hi : i < s.types.length) :
    s.typeById? (UInt16.ofNat (i + 1)) = some s.types[i] ∧ s.types[i].id = UInt16.ofNat (i + 1) := by
  have hmax : Limits.maxTypes = 65534 := rfl
  have hnat : (UInt16.ofNat (i + 1)).toNat = i + 1 := by
    rw [UInt16.toNat_ofNat']
    omega
  refine ⟨?_, ?_⟩
  · rw [SchemaLayout.typeById?, if_neg fun h => ?_, hnat, Nat.add_sub_cancel, List.getElem?_eq_getElem hi]
    have := congrArg UInt16.toNat h
    rw [hnat] at this
    exact absurd this (Nat.succ_ne_zero _)
  · have := congrArg (fun l => l[i]?) hids
    simpa [List.getElem?_eq_getElem, hi, Nat.add_comm] using this

end Schema

/-- Every schema that compiles is placed. -/
theorem compile_placed {decl : SchemaDecl} {priority : Priority} {schema : SchemaLayout}
    (h : decl.compile priority = .ok schema) : schema.Placed := by
  obtain ⟨locales, flat, resolved, types, cache, -, hlen, hflat, hresolved, htypes, rfl⟩ := SchemaDecl.compile_eq_ok.1 h
  obtain ⟨hall, hnames, hids, hcache, -⟩ := Schema.typeLayouts_spec (fun _ h => absurd h List.not_mem_nil) htypes
  have hsorted := Schema.names_resolveInverses hresolved
  have hcount : types.length = resolved.length := by simpa using congrArg List.length hnames
  have hmax : types.length ≤ Limits.maxTypes := by
    have h1 := congrArg List.length hsorted
    have h2 := Schema.length_flattenTypes hflat
    rw [List.length_map, List.length_map, Schema.sortTypes, List.length_mergeSort] at h1
    omega
  have hfound : ∀ i (hi : i < types.length), _ := Schema.typeById?_of_ids
    (s := ⟨types, locales, Sha256.digest (describeSchema types locales)⟩) hmax (by rw [hids, hcount])
  refine ⟨fun t ht => ?_, fun id t ht => ?_, fun t ht => (hall t ht).placed, fun t ht p hp e he =>
    hcache.layout ((hall t ht).edges p hp e he), fun t ht p hp r hr => ?_, fun t ht p hp u hu q hq e f he hf hk => ?_⟩
  · obtain ⟨i, hi, rfl⟩ := List.mem_iff_getElem.1 ht
    obtain ⟨h1, h2⟩ := hfound i hi
    rw [← h1, ← h2]
  · unfold SchemaLayout.typeById? at ht
    split at ht
    · cases ht
    · rename_i hid
      have hpos : id.toNat ≠ 0 := fun h => hid (UInt16.toNat.inj h)
      obtain ⟨hi, rfl⟩ := List.getElem?_eq_some_iff.1 ht
      refine ⟨List.getElem_mem hi, ?_⟩
      rw [(hfound _ hi).2, Nat.sub_add_cancel (Nat.pos_of_ne_zero hpos), UInt16.ofNat_toNat]
  · obtain ⟨i, hi, hid⟩ := (hall t ht).targets p hp r hr
    have hlt : i < types.length := by
      rw [hcount]
      simpa using (List.getElem?_eq_some_iff.1 hi).1
    refine ⟨types[i], hid ▸ (hfound i hlt).1, ?_⟩
    have := congrArg (fun l => l[i]?) hnames
    simpa [List.getElem?_eq_getElem, hlt] using this.trans hi
  · have h1 := (hall t ht).edges p hp e he
    have h2 := (hall u hu).edges q hq f hf
    rw [hk] at h1
    exact Option.some.inj (h1.symm.trans h2)

end NodeStore
