import NodeStore.Proofs.Schema.Addresses

/-!
# The main block of compiled layouts

Main properties stand one behind the other, and the defaults of the block are those of the properties.

* `PropDef.Declared`: what compiling has checked of a property.
* `Layout.Packed`: the places of the main properties and the contents of a fresh block.
* `compile_packed`, `compile_edges_packed`: so it is for every type of a schema that compiles, and for what its links store.
* `SchemaLayout.HasLayout`: the layouts of a schema, and what `compile_hasLayout` says of all of them.
* `compile_locales`: the ids of the locales are those of their codes; `compile_textLocales`: texts take all of them.
-/

namespace NodeStore

variable {E : Type}

/-- What compiling has checked of a property. -/
structure PropDef.Declared (p : PropDef E) : Prop where
  labels : p.type = .enum → p.enumValues.length ≤ Limits.maxEnumValues
  vector : p.type = .vector ∨ p.type = .colvec → p.len = p.dims.getD 0 * 4
  short : p.isMain = true → p.type = .string ∨ p.type = .binary →
    ∃ max, p.maxBytes = some max ∧ p.len = max + 1 ∧ max ≤ Limits.maxFixedString
  default : ∀ v, p.default = some v → p.type.isReference = false ∧ p.validate v = .ok ()

/-- What was checked of a property does not depend on its place. -/
theorem PropDef.Declared.placed {d : PropDef E} (hd : d.Declared) {place : Location}
    (hp : PropDef.isMain { d with location := place } = d.isMain) : PropDef.Declared { d with location := place } where
  labels := hd.labels
  vector := hd.vector
  short hm := hd.short (hp.symm.trans hm)
  default := hd.default

/-- No two main properties share a byte, and a fresh block holds the default of each. -/
structure Layout.Packed (t : Layout E) : Prop where
  declared : ∀ p ∈ t.props, p.Declared
  apart : t.props.Pairwise fun p q => ∀ a b, p.offset? = some a → q.offset? = some b → a + p.len ≤ b
  defaults : ∀ p ∈ t.props, ∀ offset, p.offset? = some offset →
    Schema.defaultBytes t.name p = .ok ((t.mainDefaults.drop offset).take p.len)

namespace Schema

/-! ### Properties -/

theorem measure_declared {type : String} {p : FlatProp} {len : Nat} {main : Bool} (h : measure type p = .ok (len, main)) :
    (p.type = .enum → p.options.enumValues.length ≤ Limits.maxEnumValues) ∧
      (p.type = .vector ∨ p.type = .colvec → len = p.options.dims.getD 0 * 4) ∧
      (main = true → p.type = .string ∨ p.type = .binary →
        ∃ max, p.options.maxBytes = some max ∧ len = max + 1 ∧ max ≤ Limits.maxFixedString) := by
  unfold measure at h
  cases ht : p.type <;> simp only [ht] at h <;> repeat' split at h
  all_goals simp_all [PropType.fixedWidth]

theorem checkDefault_eq_ok {type : String} {d : PropDef E} (h : checkDefault type d = .ok ()) {v : Value}
    (hv : d.default = some v) : d.type.isReference = false ∧ d.validate v = .ok () := by
  unfold checkDefault at h
  simp only [hv] at h
  split at h
  · cases h
  · rename_i hr
    split at h
    · exact ⟨by simpa using hr, by assumption⟩
    · cases h

theorem compileProp_declared {c : Context} {inverses : Bool} {edgesOf : EdgeCompiler E} {type : String}
    {p : FlatProp} {cache cache' : EdgeCache} {d : PropDef E}
    (h : compileProp c inverses edgesOf type p cache = .ok (d, cache')) : d.Declared := by
  obtain ⟨⟨len, main⟩, target, edges, hm, -, -, -, rfl, hdefault⟩ := compileProp_eq_ok.1 h
  obtain ⟨hlabels, hvector, hshort⟩ := measure_declared hm
  have hmain : (unplaced c p len main target edges).isMain = main := by cases main <;> rfl
  exact ⟨hlabels, hvector, fun hs => hshort (hmain.symm.trans hs), fun v hv => checkDefault_eq_ok hdefault hv⟩

/-! ### Places -/

theorem offset_of_mem_placeMain {q : PropDef E} {ds : List (PropDef E)} {offset a : Nat} (h : q ∈ placeMain offset ds)
    (ha : q.offset? = some a) : offset ≤ a := by
  induction ds generalizing offset with
  | nil => cases h
  | cons d ds ih =>
    rcases List.mem_cons.1 h with rfl | h
    · cases ha
      exact Nat.le_refl _
    · have := ih h
      omega

theorem placeMain_apart (offset : Nat) (ds : List (PropDef E)) :
    (placeMain offset ds).Pairwise fun p q => ∀ a b, p.offset? = some a → q.offset? = some b → a + p.len ≤ b := by
  induction ds generalizing offset with
  | nil => exact .nil
  | cons d ds ih =>
    refine .cons (fun q hq a b ha hb => ?_) (ih _)
    cases ha
    exact offset_of_mem_placeMain hq hb

theorem offset?_placeSeparate {q : PropDef E} {ds : List (PropDef E)} {slot : Nat} (h : q ∈ placeSeparate slot ds) :
    q.offset? = none := by
  obtain ⟨d, -, n, rfl, -⟩ := mem_placeSeparate h
  rfl

/-- Behind `front`, the defaults of properties that follow one another stand at the places of the properties. -/
theorem slice_defaults {type : String} (front : Bytes) {ds : List (PropDef E)} {bss : List Bytes}
    (hmeasured : ∀ d ∈ placeMain front.length ds, d.Measured)
    (h : (placeMain front.length ds).mapM (defaultBytes type) = .ok bss) {q : PropDef E}
    (hq : q ∈ placeMain front.length ds) {a : Nat} (ha : q.offset? = some a) :
    defaultBytes type q = .ok (((front ++ bss.flatten).drop a).take q.len) := by
  induction ds generalizing front bss with
  | nil => cases hq
  | cons d ds ih =>
    rw [placeMain] at h hq hmeasured
    rw [List.mapM_cons] at h
    obtain ⟨bs, hbs, h⟩ := Except.bind_eq_ok.1 h
    obtain ⟨rest, hrest, h⟩ := Except.bind_eq_ok.1 h
    cases h
    have hlen : bs.length = d.len := length_defaultBytes (hmeasured _ List.mem_cons_self) hbs
    rcases List.mem_cons.1 hq with rfl | hq
    · cases ha
      rw [hbs]
      simp [hlen]
    · have hnext : front.length + d.len = (front ++ bs).length := by rw [List.length_append, hlen]
      rw [hnext] at hrest hq hmeasured
      rw [List.flatten_cons, ← List.append_assoc]
      exact ih (front ++ bs) (fun e he => hmeasured e (List.mem_cons_of_mem _ he)) hrest hq

theorem layoutOf_packed {priority : Priority} {name : String} {id : TypeId} {defs : List (PropDef E)} {t : Layout E}
    (hm : ∀ d ∈ defs, d.Measured) (hd : ∀ d ∈ defs, d.Declared) (h : layoutOf priority name id defs = .ok t) :
    t.Packed := by
  obtain ⟨hplaced, -, -, hprops'⟩ := layoutOf_placed hm h
  obtain ⟨main, separate, bss, hmain, hsep, -, hbss, hname, -, -, -, hdefaults, hprops⟩ := layoutOf_spec h
  refine ⟨fun p hp => ?_, ?_, fun p hp offset ho => ?_⟩
  · rw [hprops] at hp
    rcases List.mem_append.1 hp with hp | hp
    · obtain ⟨d, hd', n, rfl, -⟩ := mem_placeMain hp
      exact (hd d (hmain d hd').1).placed (by rw [(hmain d hd').2]; rfl)
    · obtain ⟨d, hd', n, rfl, -⟩ := mem_placeSeparate hp
      exact (hd d (hsep d hd').1).placed (by rw [(hsep d hd').2]; rfl)
  · rw [hprops, List.pairwise_append]
    have hnone : (placeSeparate 1 separate).Pairwise fun p q =>
        ∀ a b, p.offset? = some a → q.offset? = some b → a + p.len ≤ b :=
      (List.pairwise_of_forall (fun _ _ => trivial)).imp_of_mem fun hp _ _ a b ha => by
        rw [offset?_placeSeparate hp] at ha
        cases ha
    refine ⟨placeMain_apart 0 main, hnone, fun p hp q hq a b _ hb => ?_⟩
    · rw [offset?_placeSeparate hq] at hb
      cases hb
  · rw [hprops] at hp
    rcases List.mem_append.1 hp with hp | hp
    · rw [hname, hdefaults]
      exact slice_defaults [] (fun d hd => hplaced.measured d (hprops ▸ List.mem_append_left _ hd)) hbss hp ho
    · rw [offset?_placeSeparate hp] at ho
      cases ho

theorem typeLayout_packed {c : Context} {name : String} {id : TypeId} {flat : List FlatProp}
    {cache cache' : EdgeCache} {t : TypeLayout} (h : typeLayout c name id flat cache = .ok (t, cache')) : t.Packed := by
  obtain ⟨-, defs, hdefs, hl⟩ := typeLayout_eq_ok.1 h
  obtain ⟨-, hall⟩ := mapM_invariant (P := fun _ => True)
    (Q := fun _ (d : PropDef EdgeLayout) _ => d.Measured ∧ d.Declared) hdefs trivial
    (fun _ _ _ _ _ _ hx => ⟨trivial, (compileProp_spec hx).1, compileProp_declared hx⟩) fun _ _ _ _ _ _ _ hq _ => hq
  exact layoutOf_packed (fun d hd => (hall d hd).choose_spec.2.1) (fun d hd => (hall d hd).choose_spec.2.2) hl

/-! ### Layouts of links -/

theorem Made.packed {c : Context} {key : RelationKey} {edges : List (String × PropDecl)} {e : EdgeLayout}
    (h : Made c key edges e) : e.Packed := by
  obtain ⟨flat, defs, -, -, hdefs, hl⟩ := h
  have hfrom : ∀ d ∈ defs, d.Measured ∧ d.Declared := fun d hd => by
    obtain ⟨p, -, hp⟩ := exists_of_forall₂_left hdefs.flip hd
    exact ⟨(compileProp_spec hp).1, compileProp_declared hp⟩
  exact layoutOf_packed (fun d hd => (hfrom d hd).1) (fun d hd => (hfrom d hd).2) hl

/-! ### Locales -/

theorem compileProp_textLocales {c : Context} {inverses : Bool} {edgesOf : EdgeCompiler E} {type : String} {p : FlatProp}
    {cache cache' : EdgeCache} {d : PropDef E} (h : compileProp c inverses edgesOf type p cache = .ok (d, cache'))
    (htext : d.type = .text) : d.locales = c.localeIds := by
  obtain ⟨_, _, _, -, -, -, -, rfl, -⟩ := compileProp_eq_ok.1 h
  exact if_pos htext

theorem mem_dropRepeated {l : Locale} {ls : List Locale} (h : l ∈ dropRepeated ls) : l ∈ ls := by
  induction ls using dropRepeated.induct with
  | case1 => rwa [dropRepeated] at h
  | case2 => rwa [dropRepeated] at h
  | case3 l' m rest heq ih =>
    rw [dropRepeated, if_pos heq] at h
    rcases List.mem_cons.1 (ih h) with rfl | h
    · exact List.mem_cons_self
    · exact List.mem_cons_of_mem _ (List.mem_cons_of_mem _ h)
  | case4 l' m rest hne ih =>
    rw [dropRepeated, if_neg hne] at h
    rcases List.mem_cons.1 h with rfl | h
    · exact List.mem_cons_self
    · exact List.mem_cons_of_mem _ (ih h)

theorem compileLocale_id {declared : List String} {d : LocaleDecl} {l : Locale} (h : compileLocale declared d = .ok l) :
    Locale.idOf? l.code = some l.id := by
  unfold compileLocale at h
  obtain ⟨id, hid, h⟩ := Except.bind_eq_ok.1 h
  obtain ⟨fallback, -, h⟩ := Except.bind_eq_ok.1 h
  cases h
  unfold localeId at hid
  split at hid
  · rename_i hcode
    cases hid
    exact hcode
  · cases hid

theorem compileLocales_id {ds : List LocaleDecl} {ls : List Locale} (h : compileLocales ds = .ok ls) :
    ∀ l ∈ ls, Locale.idOf? l.code = some l.id := by
  unfold compileLocales at h
  obtain ⟨compiled, hc, h⟩ := Except.bind_eq_ok.1 h
  cases h
  intro l hl
  obtain ⟨d, -, hd⟩ := (mapM_eq_ok hc).2.1 l (List.mem_mergeSort.1 (mem_dropRepeated hl))
  exact compileLocale_id hd

/-- A text takes all locales. -/
theorem typeLayout_textLocales {c : Context} {name : String} {id : TypeId} {flat : List FlatProp} {cache cache' : EdgeCache}
    {t : TypeLayout} (h : typeLayout c name id flat cache = .ok (t, cache')) :
    ∀ p ∈ t.props, p.type = .text → p.locales = c.localeIds := by
  obtain ⟨-, defs, hdefs, hl⟩ := typeLayout_eq_ok.1 h
  obtain ⟨-, hall⟩ := mapM_invariant (P := fun _ => True)
    (Q := fun _ (d : PropDef EdgeLayout) _ => d.type = .text → d.locales = c.localeIds) hdefs trivial
    (fun _ _ _ _ _ _ hx => ⟨trivial, compileProp_textLocales hx⟩) fun _ _ _ _ _ _ _ hq _ => hq
  obtain ⟨-, -, bss, -, rfl⟩ := layoutOf_eq_ok.1 hl
  intro p hp htext
  obtain ⟨d, hd, place, rfl⟩ := mem_placeAll hp
  exact (hall d hd).choose_spec.2 htext

end Schema

/-- The main blocks of every schema that compiles are packed. -/
theorem compile_packed {decl : SchemaDecl} {priority : Priority} {schema : SchemaLayout}
    (h : decl.compile priority = .ok schema) : ∀ t ∈ schema.types, t.Packed :=
  compile_all h fun _ _ _ _ _ _ _ _ ht => Schema.typeLayout_packed ht

/-- So are the main blocks of what its links store. -/
theorem compile_edges_packed {decl : SchemaDecl} {priority : Priority} {schema : SchemaLayout}
    (h : decl.compile priority = .ok schema) {t : TypeLayout} (ht : t ∈ schema.types) {p : PropDef EdgeLayout}
    (hp : p ∈ t.props) {e : EdgeLayout} (he : p.edges = some e) : e.Packed :=
  compile_edges_all h (fun _ _ _ _ => Schema.Made.packed) ht hp he

/-- The layouts of a schema: those of its types and of what their links store. -/
inductive SchemaLayout.HasLayout (schema : SchemaLayout) : {E : Type} → Layout E → Prop where
  | ofType {t : TypeLayout} (ht : t ∈ schema.types) : schema.HasLayout t
  | ofLinks {t : TypeLayout} {p : PropDef EdgeLayout} {e : EdgeLayout} (ht : t ∈ schema.types) (hp : p ∈ t.props)
      (he : p.edges = some e) : schema.HasLayout e

/-- All layouts of a schema that compiles are placed, addressed and packed. -/
theorem compile_hasLayout {decl : SchemaDecl} {priority : Priority} {schema : SchemaLayout}
    (h : decl.compile priority = .ok schema) {t : Layout E} (ht : schema.HasLayout t) : t.Placed ∧ t.Addressed ∧ t.Packed := by
  have hplaced := compile_placed h
  cases ht with
  | ofType ht => exact ⟨hplaced.types _ ht, compile_addressed h _ ht, compile_packed h _ ht⟩
  | ofLinks ht hp he =>
    exact ⟨hplaced.edges _ ht _ hp _ he, compile_edges_addressed h ht hp he, compile_edges_packed h ht hp he⟩

/-- The locales of every schema that compiles have the ids of their codes. -/
theorem compile_locales {decl : SchemaDecl} {priority : Priority} {schema : SchemaLayout}
    (h : decl.compile priority = .ok schema) : ∀ l ∈ schema.locales, Locale.idOf? l.code = some l.id := by
  obtain ⟨locales, _, _, _, _, hlocales, -, -, -, -, rfl⟩ := SchemaDecl.compile_eq_ok.1 h
  exact Schema.compileLocales_id hlocales

/-- Its texts take all of its locales. -/
theorem compile_textLocales {decl : SchemaDecl} {priority : Priority} {schema : SchemaLayout}
    (h : decl.compile priority = .ok schema) : ∀ t ∈ schema.types, ∀ p ∈ t.props, p.type = .text →
      p.locales = schema.locales.map (·.id) := by
  obtain ⟨locales, _, _, _, _, -, -, -, -, htypes, rfl⟩ := SchemaDecl.compile_eq_ok.1 h
  exact Schema.typeLayouts_all htypes fun _ _ _ _ _ _ ht => Schema.typeLayout_textLocales ht

end NodeStore
