import NodeStore.Proofs.Schema.LayoutOrder

/-!
# What both ends of a relation store

What the links of a relation store is declared at one of its ends, and both ends are compiled to the one layout that holds it.

* `PropDecl.Leaf`, `SchemaDecl.LinksDeclare`: the leaves of a declaration, and what it says of the links of a property.
* `mem_flattenAll`: flattening lists the leaves and nothing else.
* `PropDef.Renders`, `EdgeLayout.Holds`: a layout of links has the declared leaves as its properties.
* `EdgeCache.Backed`: every layout kept for a relation is made from what one of its ends declares.
* `FlatTypes.Linked.declared`: the edges that are shared are those of one of the ends.
* `compile_edges_declared`: no declared edge property is lost, as long as the two ends do not declare different ones.
-/

namespace NodeStore

variable {E : Type}

/-! ### Leaves -/

/-- The leaves of some declarations, each at its path. -/
inductive PropDecl.Leaf : List (String × PropDecl) → Schema.FlatProp → Prop
  | here {props : List (String × PropDecl)} {name : String} {type : PropType} {options : LeafOptions}
      {edges : List (String × PropDecl)} (h : (name, .leaf type options edges) ∈ props) :
      Leaf props ⟨Path.split name, type, options, edges⟩
  | inside {props inner : List (String × PropDecl)} {name : String} {f : Schema.FlatProp} (h : (name, .object inner) ∈ props)
      (hf : Leaf inner f) : Leaf props { f with path := Path.split name ++ f.path }

/-- A declaration says what the links of the property at a path store. -/
def SchemaDecl.LinksDeclare (decl : SchemaDecl) (type : String) (path : List String)
    (edges : List (String × PropDecl)) : Prop :=
  ∃ props t options, (type, props) ∈ decl.types ∧ PropDecl.Leaf props ⟨path, t, options, edges⟩

/-- A compiled property is what a leaf declares. -/
structure PropDef.Renders (d : PropDef E) (f : Schema.FlatProp) : Prop where
  path : d.path = f.path
  name : d.name = f.name
  type : d.type = f.type
  labels : d.enumValues = f.options.enumValues
  limits : d.maxBytes = f.options.maxBytes ∧ d.dims = f.options.dims ∧ d.min = f.options.min ∧ d.max = f.options.max
  default : d.default = f.options.default
  validator : d.validator = f.options.validator
  target : f.type.isReference = true → d.target.map (·.type) = f.options.reference

/-- The properties of a layout of links are the leaves of some declarations. -/
def EdgeLayout.Holds (e : EdgeLayout) (edges : List (String × PropDecl)) : Prop :=
  (∀ g, PropDecl.Leaf edges g → ∃ d ∈ e.props, d.Renders g) ∧ ∀ d ∈ e.props, ∃ g, PropDecl.Leaf edges g ∧ d.Renders g

namespace Schema

open PropDecl (Leaf)

theorem leaf_nil (f : FlatProp) : ¬Leaf [] f := by
  rintro (⟨h⟩ | ⟨h, -⟩) <;> cases h

theorem leaf_cons {name : String} {decl : PropDecl} (rest : List (String × PropDecl)) {f : FlatProp} :
    Leaf ((name, decl) :: rest) f ↔ Leaf [(name, decl)] f ∨ Leaf rest f := by
  constructor
  · rintro (⟨h⟩ | ⟨h, hf⟩) <;> rcases List.mem_cons.1 h with heq | h
    · exact .inl (.here (List.mem_singleton.2 heq))
    · exact .inr (.here h)
    · exact .inl (.inside (List.mem_singleton.2 heq) hf)
    · exact .inr (.inside h hf)
  · rintro (h | h)
    · rcases h with ⟨h⟩ | ⟨h, hf⟩ <;> rw [List.mem_singleton] at h
      · exact .here (h ▸ List.mem_cons_self)
      · exact .inside (h ▸ List.mem_cons_self) hf
    · rcases h with ⟨h⟩ | ⟨h, hf⟩
      · exact .here (List.mem_cons_of_mem _ h)
      · exact .inside (List.mem_cons_of_mem _ h) hf

theorem leaf_leaf {name : String} {t : PropType} {options : LeafOptions} {edges : List (String × PropDecl)} {f : FlatProp} :
    Leaf [(name, .leaf t options edges)] f ↔ f = ⟨Path.split name, t, options, edges⟩ := by
  constructor
  · rintro (⟨h⟩ | ⟨h, -⟩) <;> cases List.mem_singleton.1 h
    rfl
  · rintro rfl
    exact .here List.mem_cons_self

theorem leaf_object {name : String} {inner : List (String × PropDecl)} {f : FlatProp} :
    Leaf [(name, .object inner)] f ↔ ∃ g, Leaf inner g ∧ f = { g with path := Path.split name ++ g.path } := by
  constructor
  · rintro (⟨h⟩ | ⟨h, hf⟩) <;> cases List.mem_singleton.1 h
    exact ⟨_, hf, rfl⟩
  · rintro ⟨g, hg, rfl⟩
    exact .inside List.mem_cons_self hg

mutual

theorem mem_flatten {type name : String} {above : List String} {g : FlatProp} : ∀ (decl : PropDecl) (fs : List FlatProp),
    flatten type (above ++ Path.split name) decl = .ok fs →
      (g ∈ fs ↔ ∃ f, Leaf [(name, decl)] f ∧ g = { f with path := above ++ f.path })
  | .leaf t options edges, fs, h => by
    rw [flatten] at h
    cases h
    simp [leaf_leaf]
  | .object props, fs, h => by
    rw [flatten] at h
    rw [mem_flattenAll props fs h]
    simp only [leaf_object]
    constructor
    · rintro ⟨f, hf, rfl⟩
      exact ⟨_, ⟨f, hf, rfl⟩, by rw [List.append_assoc]⟩
    · rintro ⟨_, ⟨f, hf, rfl⟩, rfl⟩
      exact ⟨f, hf, by rw [List.append_assoc]⟩

/-- Flattened declarations are their leaves, at their paths. -/
theorem mem_flattenAll {type : String} {above : List String} {g : FlatProp} :
    ∀ (props : List (String × PropDecl)) (fs : List FlatProp), flattenAll type above props = .ok fs →
      (g ∈ fs ↔ ∃ f, Leaf props f ∧ g = { f with path := above ++ f.path })
  | [], fs, h => by
    rw [flattenAll] at h
    cases h
    simp [leaf_nil]
  | (name, decl) :: rest, fs, h => by
    obtain ⟨-, here, others, hhere, hothers, rfl⟩ := flattenAll_cons.1 h
    simp only [List.mem_append, mem_flatten decl here hhere, mem_flattenAll rest others hothers, leaf_cons rest, or_and_right,
      exists_or]

end

/-- The leaves of a type are its properties once it is flattened. -/
theorem mem_flattenAll_nil {type : String} {props : List (String × PropDecl)} {fs : List FlatProp}
    (h : flattenAll type [] props = .ok fs) (f : FlatProp) : f ∈ fs ↔ Leaf props f := by
  rw [mem_flattenAll props fs h]
  constructor
  · rintro ⟨g, hg, rfl⟩
    exact hg
  · exact fun hf => ⟨f, hf, rfl⟩

/-! ### Layouts of links -/

section

variable {c : Context} {key : RelationKey} {edges : List (String × PropDecl)} {e : EdgeLayout}

theorem compileProp_renders {edgesOf : EdgeCompiler E} {inverses : Bool} {type : String} {p : FlatProp} {s t : EdgeCache}
    {d : PropDef E} (h : compileProp c inverses edgesOf type p s = .ok (d, t)) : d.Renders p := by
  obtain ⟨size, target, edges, -, -, htarget, -, rfl, -⟩ := compileProp_eq_ok.1 h
  refine ⟨rfl, rfl, rfl, rfl, ⟨rfl, rfl, rfl, rfl⟩, rfl, rfl, fun hr => ?_⟩
  change target.map (·.type) = _
  unfold resolveTarget at htarget
  rw [hr] at htarget
  simp only [Bool.not_true, Bool.false_eq_true, if_false] at htarget
  split at htarget
  · cases htarget
  · rename_i name href
    split at htarget
    · cases htarget
    · cases htarget
      exact href.symm

theorem Renders.placed {d : PropDef E} {p : FlatProp} (h : d.Renders p) (place : Location) :
    PropDef.Renders { d with location := place } p :=
  ⟨h.path, h.name, h.type, h.labels, h.limits, h.default, h.validator, h.target⟩

/-- Every compiled property is placed. -/
theorem exists_placed (priority : Priority) {defs : List (PropDef E)} {d : PropDef E} (hd : d ∈ defs) :
    ∃ place, { d with location := place } ∈ placeAll priority defs := by
  have hperm := map_placeAll_perm (g := fun d : PropDef E => { d with location := .main 0 }) (fun _ _ => rfl) priority defs
  obtain ⟨q, hq, heq⟩ := List.mem_map.1 (hperm.symm.subset (List.mem_map_of_mem hd))
  refine ⟨q.location, ?_⟩
  have hqd : ({ d with location := q.location } : PropDef E) = q := by
    have h := congrArg (fun r : PropDef E => { r with location := q.location }) heq
    exact h.symm
  rwa [hqd]

/-- The properties of a layout of links are those that are declared for it. -/
theorem Made.holds (h : Made c key edges e) : e.Holds edges := by
  obtain ⟨flat, defs, hflat, -, hdefs, hl⟩ := h
  obtain ⟨-, -, _, -, rfl⟩ := layoutOf_eq_ok.1 hl
  constructor
  · intro g hg
    obtain ⟨d, hd, hcompiled⟩ := exists_of_forall₂_left hdefs ((mem_flattenAll_nil hflat g).2 hg)
    obtain ⟨place, hplaced⟩ := exists_placed c.priority hd
    exact ⟨_, hplaced, Renders.placed (compileProp_renders hcompiled) place⟩
  · intro q hq
    obtain ⟨d, hd, place, rfl⟩ := mem_placeAll hq
    obtain ⟨g, hg, hcompiled⟩ := exists_of_forall₂_left hdefs.flip hd
    exact ⟨g, (mem_flattenAll_nil hflat g).1 hg, Renders.placed (compileProp_renders hcompiled) place⟩

/-! ### Kept layouts -/

variable {types : FlatTypes} {type : String} {ps : List FlatProp} {f : FlatProp} {s t : EdgeCache} {d : PropDef EdgeLayout}

/-- Every layout kept for a relation is made from what one of its ends declares. -/
def EdgeCache.Backed (c : Context) (types : FlatTypes) (cache : EdgeCache) : Prop :=
  ∀ x ∈ cache, ∃ type ps f target, (type, ps) ∈ types ∧ f ∈ ps ∧ f.edges.isEmpty = false ∧
    resolveTarget c true type f = .ok target ∧ x.1 = relationKey type f.name target ∧ Made c x.1 f.edges x.2

theorem compileProp_backed (hps : (type, ps) ∈ types) (hf : f ∈ ps) (hs : s.Backed c types)
    (h : compileProp c true (edgeLayout c) type f s = .ok (d, t)) : t.Backed c types := by
  obtain ⟨_, target, _, -, -, htarget, hedges, -, -⟩ := compileProp_eq_ok.1 h
  rcases compileEdges_eq_ok.1 hedges with ⟨-, -, rfl⟩ | ⟨hsome, e, -, he⟩
  · exact hs
  · rcases edgeLayout_eq_ok.1 he with ⟨-, rfl⟩ | ⟨-, hmade, rfl⟩
    · exact hs
    · refine List.forall_mem_append.2 ⟨hs, fun x hx => ?_⟩
      rw [List.mem_singleton.1 hx]
      exact ⟨type, ps, f, target, hps, hf, hsome, htarget, rfl, hmade⟩

theorem typeLayouts_backed {id : Nat} {flat : FlatTypes} {ls : List TypeLayout} (hsub : ∀ x ∈ flat, x ∈ types)
    (hs : s.Backed c types) (h : typeLayouts c id flat s = .ok (ls, t)) : t.Backed c types := by
  induction flat generalizing id s ls with
  | nil =>
    cases h
    exact hs
  | cons x flat ih =>
    obtain ⟨l, u, others, hl, hothers, rfl⟩ := typeLayouts_cons_eq_ok.1 h
    obtain ⟨-, defs, hdefs, -⟩ := typeLayout_eq_ok.1 hl
    obtain ⟨hx, hsub⟩ := List.forall_mem_cons.1 hsub
    refine ih hsub (mapM_invariant (P := fun s => s.Backed c types) (Q := fun _ _ _ => True) hdefs hs
      (fun f hf _ _ _ hs hd => ⟨compileProp_backed hx hf hs hd, trivial⟩) fun _ _ _ _ _ _ _ _ _ => trivial).1 hothers

/-- A compiled property and the flat one that it comes from; the one stores something on its links if the other declares it. -/
structure FlatProp.Becomes (c : Context) (types : FlatTypes) (type : String) (f : FlatProp) (d : PropDef EdgeLayout) : Prop where
  declared : ∃ ps, (type, ps) ∈ types ∧ f ∈ ps
  compiled : f.Compiled c type d
  path : d.path = f.path
  edges : d.edges.isSome = !f.edges.isEmpty

theorem typeLayout_becomes {id : TypeId} {l : TypeLayout} (hps : (type, ps) ∈ types)
    (h : typeLayout c type id ps s = .ok (l, t)) : ∀ d ∈ l.props, ∃ f : FlatProp, f.Becomes c types type d := by
  obtain ⟨-, defs, hdefs, hl⟩ := typeLayout_eq_ok.1 h
  obtain ⟨-, -, _, -, rfl⟩ := layoutOf_eq_ok.1 hl
  obtain ⟨-, hfrom⟩ := mapM_invariant (P := fun _ => True) (Q := fun f d _ => f.Becomes c types type d) hdefs trivial
    (fun f hf _ d _ _ hd => by
      have hcompiled := compileProp_compiled hd
      obtain ⟨_, _, edges, -, -, -, hedges, rfl, -⟩ := compileProp_eq_ok.1 hd
      refine ⟨trivial, ⟨ps, hps, hf⟩, hcompiled, rfl, ?_⟩
      change edges.isSome = _
      rcases compileEdges_eq_ok.1 hedges with ⟨hempty, rfl, -⟩ | ⟨hsome, e, rfl, -⟩
      · rw [hempty]
        rfl
      · rw [hsome]
        rfl)
    fun _ _ _ _ _ _ _ hq _ => hq
  intro q hq
  obtain ⟨d, hd, place, rfl⟩ := mem_placeAll hq
  obtain ⟨f, -, hf⟩ := hfrom d hd
  exact ⟨f, hf.declared, ⟨hf.compiled.name, hf.compiled.type, hf.compiled.target⟩, hf.path, hf.edges⟩

/-- The properties of compiled types come from flat ones. -/
theorem typeLayouts_becomes {id : Nat} {ls : List TypeLayout} (h : typeLayouts c id types s = .ok (ls, t)) :
    ∀ l ∈ ls, ∀ d ∈ l.props, ∃ f : FlatProp, f.Becomes c types l.name d :=
  typeLayouts_all h fun x hx _ _ l _ hl => by
    rw [show l.name = x.1 from (typeLayout_mirrors hl).name]
    exact typeLayout_becomes hx hl

/-- References that are each other's inverses come from such references. -/
theorem FlatProp.Becomes.linked {schema : SchemaLayout} {l m : TypeLayout} {p q : PropDef EdgeLayout} {f g : FlatProp}
    (hn : types.Named) (hs : schema.Placed) (hpq : Engine.Opposite schema l p m q) (hf : f.Becomes c types l.name p)
    (hg : g.Becomes c types m.name q) : types.Linked l.name f m.name g := by
  have hleads : ∀ {l m : TypeLayout} {p q : PropDef EdgeLayout} {f g : FlatProp}, Engine.Opposite schema l p m q →
      f.Becomes c types l.name p → g.Becomes c types m.name q → types.Has l.name f ∧ f.type.isReference = true ∧
        f.options.reference = some m.name ∧ f.options.inverse = some g.name := by
    intro l m p q f g hpq hf hg
    have hr : f.type.isReference = true := hf.compiled.type ▸ hpq.isReference
    obtain ⟨r, hp, htype, hinverse⟩ := hpq.leads hs
    obtain ⟨r', hp', href, hinv⟩ := resolveTarget_reference hr hf.compiled.target
    cases hp.symm.trans hp'
    exact ⟨(has_iff hn).2 hf.declared, hr, by rw [href, htype], by rw [← hinv, hinverse, hg.compiled.name]⟩
  obtain ⟨hhere, hr, href, hinv⟩ := hleads hpq hf hg
  obtain ⟨hthere, hr', href', hinv'⟩ := hleads hpq.symm hg hf
  exact ⟨hhere, hthere, ⟨hr, hr'⟩, ⟨href, href'⟩, ⟨hinv, hinv'⟩⟩

/-- The layout kept for a relation is made from what one of its ends declares. -/
theorem EdgeCache.Backed.made {schema : SchemaLayout} {l m : TypeLayout} {p q : PropDef EdgeLayout} {f g : FlatProp}
    {e : EdgeLayout} (hn : types.Named) (hlinks : types.OnLinks) (hs : schema.Placed) (hpq : Engine.Opposite schema l p m q)
    (hf : f.Becomes c types l.name p) (hg : g.Becomes c types m.name q) (hb : t.Backed c types)
    (he : t.layout? (relationKey l.name p.name p.target) = some e) :
    ∃ edges, (edges = f.edges ∨ edges = g.edges) ∧ edges ≠ [] ∧ e.Holds edges := by
  obtain ⟨x, hx, rfl⟩ := Option.map_eq_some_iff.1 he
  have hkey := List.find?_some hx
  simp only [decide_eq_true_eq] at hkey
  obtain ⟨type, ps, f', target, hps, hf', hsome, htarget, hkey', hmade⟩ := hb x (List.mem_of_find?_eq_some hx)
  have hhas := (has_iff hn).2 ⟨ps, hps, hf'⟩
  obtain ⟨r', rfl, -, -⟩ := resolveTarget_reference (hlinks type f' hhas hsome) htarget
  obtain ⟨r, hr, htype, hinverse⟩ := hpq.leads hs
  have hlinked := hf.linked hn hs hpq hg
  refine ⟨f'.edges, ?_, fun hnil => ?_, hmade.holds⟩
  · rw [hkey, hr] at hkey'
    rcases eq_or_of_relationKey hkey' with ⟨rfl, hname⟩ | ⟨rfl, hname⟩
    · exact .inl (by rw [hhas.unique hn hlinked.here (hname.symm.trans hf.compiled.name)])
    · rw [hinverse, Option.getD_some] at hname
      exact .inr (by rw [hhas.unique hn (htype ▸ hlinked.there) (hname.symm.trans hg.compiled.name)])
  · rw [hnil] at hsome
    cases hsome

end

/-! ### Declared ends -/

section

variable {types : FlatTypes} {type target : String} {path : List String} {edges edges' : List (String × PropDecl)}
  {p q : FlatProp}

/-- The property at a path of a type is declared with some edges. -/
def FlatTypes.Gives (types : FlatTypes) (type : String) (path : List String) (edges : List (String × PropDecl)) : Prop :=
  ∃ p, types.Has type p ∧ p.path = path ∧ p.edges = edges

theorem FlatTypes.Gives.unique (hn : types.Named) (h : types.Gives type path edges) (h' : types.Gives type path edges') :
    edges = edges' := by
  obtain ⟨p, hp, rfl, rfl⟩ := h
  obtain ⟨q, hq, hpath, rfl⟩ := h'
  rw [hp.unique hn hq (by rw [FlatProp.name, FlatProp.name, hpath])]

/-- One end of a relation is declared with its edges, or it is not declared and has those of the other end. -/
theorem FlatTypes.Linked.declared (hn : types.Named) (hu : types.Unambiguous) (h : (complete types).Linked type p target q) :
    types.Gives type p.path p.edges ∨
      (∀ edges, ¬types.Gives type p.path edges) ∧ p.edges = q.edges ∧ types.Gives target q.path q.edges := by
  have hkept := (settling_settle types).kept
  rcases has_complete.1 h.here with ⟨p, hp, rfl⟩ | ⟨-, hadded⟩
  · exact .inl ⟨p, hp, (hkept type p).1.symm, (hkept type p).2.2.1.symm⟩
  · obtain ⟨l, hl, rfl, hlacking, heq⟩ := mem_addedTo.1 hadded
    obtain ⟨x, hx, q', hq', hlink⟩ := FlatTypes.mem_allLinks.1 hl
    obtain ⟨-, -, hsource, hpath, -⟩ := declaredLink_eq_some.1 hlink
    have hreference : p.options.reference = some l.source := by rw [heq]; rfl
    have hinverse : p.options.inverse = some l.path := by rw [heq]; rfl
    have htarget : x.1 = target := hsource.trans (Option.some.inj (hreference.symm.trans h.targets.1))
    have hhas : types.Has target q' := htarget ▸ (has_iff hn).2 ⟨x.2, hx, hq'⟩
    have hname : q.name = q'.name := (Option.some.inj (h.inverses.1.symm.trans hinverse)).trans hpath.symm
    have hq : q = settle types target q' := by
      refine h.there.unique (named_complete hn hu) (has_complete.2 (.inl ⟨q', hhas, rfl⟩)) ?_
      rw [hname, (settling_settle types).name]
    refine .inr ⟨?_, ?_, q', hhas, ?_, ?_⟩
    · rintro _ ⟨p', hp', hpath', -⟩
      refine hlacking p' hp' ?_
      rw [FlatProp.name, hpath', heq, ← FlatProp.name, name_inverseOf]
    · rw [edges_of_added hn hhas hadded h.targets.1 (h.inverses.1.trans (congrArg some hname)), hq, (hkept target q').2.2.1]
    · rw [hq, (hkept target q').1]
    · rw [hq, (hkept target q').2.2.1]

/-- The edges that the ends of a relation share are declared at one of them, and are none only if neither declares any. -/
theorem FlatTypes.Linked.shared (hn : types.Named) (hu : types.Unambiguous) (hpaired : (complete types).Paired)
    (hlinks : (complete types).OnLinks) (h : (complete types).Linked type p target q) :
    let shared := sharedEdges (complete types) type p
    (types.Gives type p.path shared ∨ types.Gives target q.path shared) ∧
      (shared = [] → ∀ edges, types.Gives type p.path edges ∨ types.Gives target q.path edges → edges = []) := by
  intro shared
  have hshared : shared = if p.edges.isEmpty then q.edges else p.edges :=
    sharedEdges_link (named_complete hn hu) hpaired hlinks h
  have hor : shared = p.edges ∨ shared = q.edges := by
    rw [hshared]
    split
    · exact .inr rfl
    · exact .inl rfl
  have hboth : shared = [] → p.edges = [] ∧ q.edges = [] := by
    intro hempty
    rw [hshared] at hempty
    split at hempty
    · rename_i hp
      exact ⟨List.isEmpty_iff.1 hp, hempty⟩
    · rename_i hp
      exact absurd (List.isEmpty_iff.2 hempty) hp
  have hgives : ∀ {type target : String} {p q : FlatProp}, (complete types).Linked type p target q → ∀ edges,
      types.Gives type p.path edges → edges = p.edges := by
    intro type target p q h edges hedges
    rcases h.declared hn hu with hp | ⟨hnone, -⟩
    · exact hedges.unique hn hp
    · exact absurd hedges (hnone edges)
  constructor
  · rcases h.declared hn hu with hp | ⟨-, hsame, hq⟩
    · rcases h.symm.declared hn hu with hq | ⟨-, hsame, -⟩
      · rcases hor with heq | heq <;> rw [heq]
        · exact .inl hp
        · exact .inr hq
      · rw [hsame, or_self] at hor
        exact .inl (hor ▸ hp)
    · rw [hsame, or_self] at hor
      exact .inr (hor ▸ hq)
  · rintro hempty edges (hedges | hedges)
    · rw [hgives h edges hedges, (hboth hempty).1]
    · rw [hgives h.symm edges hedges, (hboth hempty).2]

end

end Schema

/-! ### Schemas -/

section

variable {decl : SchemaDecl} {priority : Priority} {schema : SchemaLayout} {t u : TypeLayout} {p q : PropDef EdgeLayout}

open Schema (FlatTypes)

/-- What a declaration says of the links of a property stands on its leaf. -/
theorem SchemaDecl.linksDeclare_iff {flat : FlatTypes} (hflat : Schema.flattenTypes ∅ decl.types = .ok flat)
    (hn : (Schema.sortTypes flat).Named) {type : String} {path : List String} {edges : List (String × PropDecl)} :
    decl.LinksDeclare type path edges ↔ (Schema.sortTypes flat).Gives type path edges := by
  obtain ⟨-, -, hall⟩ := Schema.flattenTypes_eq_ok.1 hflat
  constructor
  · rintro ⟨props, t, options, hmem, hleaf⟩
    obtain ⟨x, hx, hname, hprops⟩ := exists_of_forall₂_left hall hmem
    refine ⟨_, (Schema.has_iff hn).2 ⟨x.2, ?_, (Schema.mem_flattenAll_nil hprops _).2 hleaf⟩, rfl, rfl⟩
    rw [show type = x.1 from hname]
    exact List.mem_mergeSort.2 hx
  · rintro ⟨f, hf, rfl, rfl⟩
    obtain ⟨ps, hps, hmem⟩ := (Schema.has_iff hn).1 hf
    obtain ⟨d, hd, hname, hprops⟩ := exists_of_forall₂_left hall.flip (List.mem_mergeSort.1 hps)
    have hdecl : (type, d.2) ∈ decl.types := by
      rw [← show d.1 = type from hname]
      exact hd
    exact ⟨d.2, f.type, f.options, hdecl, (Schema.mem_flattenAll_nil hprops f).1 hmem⟩

/-- The links of a property are declared once. -/
theorem SchemaDecl.LinksDeclare.unique {type : String} {path : List String} {edges edges' : List (String × PropDecl)}
    (hd : decl.LinksDeclare type path edges) (h : decl.compile priority = .ok schema)
    (hd' : decl.LinksDeclare type path edges') : edges = edges' := by
  obtain ⟨locales, flat, resolved, types, cache, -, -, hflat, -⟩ := SchemaDecl.compile_eq_ok.1 h
  have hn := named_of_compile h hflat
  exact ((SchemaDecl.linksDeclare_iff hflat hn).1 hd).unique hn ((SchemaDecl.linksDeclare_iff hflat hn).1 hd')

/-- The references that links store lead to types of the schema, too. -/
theorem compile_edges_targets (h : decl.compile priority = .ok schema) (ht : t ∈ schema.types) (hp : p ∈ t.props)
    {e : EdgeLayout} (he : p.edges = some e) :
    ∀ d ∈ e.props, ∀ r, d.target = some r → ∃ u, schema.typeById? r.id = some u ∧ u.name = r.type := by
  have hplaced := compile_placed h
  obtain ⟨locales, flat, resolved, types, cache, -, -, -, -, htypes, rfl⟩ := SchemaDecl.compile_eq_ok.1 h
  obtain ⟨hcompiled, hnames, hids, -⟩ := Schema.typeLayouts_spec (fun _ h => absurd h List.not_mem_nil) htypes
  have hbacked := Schema.typeLayouts_backed (fun _ hx => hx) (fun _ hx => absurd hx List.not_mem_nil) htypes
  obtain ⟨x, hx, rfl⟩ := Option.map_eq_some_iff.1 ((hcompiled t ht).edges p hp e he)
  obtain ⟨_, _, _, _, -, -, -, -, -, hmade⟩ := hbacked x (List.mem_of_find?_eq_some hx)
  obtain ⟨flat, defs, -, -, hdefs, hl⟩ := hmade
  obtain ⟨-, -, _, -, heq⟩ := Schema.layoutOf_eq_ok.1 hl
  rw [heq]
  intro q hq r hr
  obtain ⟨d, hd, place, rfl⟩ := Schema.mem_placeAll hq
  obtain ⟨f, -, hf⟩ := exists_of_forall₂_left hdefs.flip hd
  obtain ⟨i, hi, hid⟩ := (Schema.compileProp_spec hf).2.1 r hr
  -- The target has the number of its name, and the types are numbered in the order of their names.
  have hname : (types.map (·.name))[i]? = some r.type := (congrArg (·[i]?) hnames).trans hi
  rw [List.getElem?_map] at hname
  obtain ⟨u, hu, hname⟩ := Option.map_eq_some_iff.1 hname
  have hnumber := congrArg (·[i]?) hids
  have hlt := (List.getElem?_eq_some_iff.1 hi).1
  rw [List.length_map] at hlt
  simp only [List.getElem?_map, hu, Option.map_some, List.getElem?_range' hlt, Option.some.injEq] at hnumber
  refine ⟨u, ?_, hname⟩
  rw [hid, Nat.add_comm i 1, ← Nat.one_mul i, ← hnumber]
  exact hplaced.ids u (List.mem_of_getElem? hu)

/-- Both ends of a relation store the same, and that is what one of them declares. -/
theorem compile_edges_of_end (h : decl.compile priority = .ok schema) (hu : decl.Unambiguous)
    (hpq : Engine.Opposite schema t p u q) :
    p.edges = q.edges ∧
      (p.edges = none ∧ (∀ edges, decl.LinksDeclare t.name p.path edges ∨ decl.LinksDeclare u.name q.path edges → edges = []) ∨
        ∃ e edges, p.edges = some e ∧ (decl.LinksDeclare t.name p.path edges ∨ decl.LinksDeclare u.name q.path edges) ∧
          edges ≠ [] ∧ e.Holds edges) := by
  have hplaced := compile_placed h
  obtain ⟨locales, flat, resolved, types, cache, -, -, hflat, hresolved, htypes, rfl⟩ := SchemaDecl.compile_eq_ok.1 h
  have hn := named_of_compile h hflat
  have hnamed := Schema.named_resolved hflat hresolved htypes
  have hlinks : resolved.OnLinks := fun type p hp hedges => by
    obtain ⟨ps, hps, hmem⟩ := (Schema.has_iff hnamed).1 hp
    exact Schema.typeLayouts_links htypes _ hps p hmem hedges
  obtain ⟨f, hf⟩ := Schema.typeLayouts_becomes htypes t hpq.source p hpq.prop
  obtain ⟨g, hg⟩ := Schema.typeLayouts_becomes htypes u hpq.target q hpq.back
  have hbacked := Schema.typeLayouts_backed (fun _ hx => hx) (fun _ hx => absurd hx List.not_mem_nil) htypes
  have hcompiled := (Schema.typeLayouts_spec (fun _ h => absurd h List.not_mem_nil) htypes).1
  have hlinked := hf.linked hnamed hplaced hpq hg
  obtain ⟨htargeted, hanswers, rfl⟩ := (Schema.resolveInverses_eq_ok hn (hu _ hflat)).1 hresolved
  have hcomplete := Schema.named_complete hn (hu _ hflat)
  have hpaired := Schema.complete_paired hn (hu _ hflat) htargeted hanswers
  have hlinks' := Schema.onLinks_of_shareEdges hcomplete hlinks
  obtain ⟨f₀, hf₀, rfl⟩ := (Schema.has_shareEdges hcomplete).1 hlinked.here
  obtain ⟨g₀, hg₀, rfl⟩ := (Schema.has_shareEdges hcomplete).1 hlinked.there
  have hlinked₀ : (Schema.complete (Schema.sortTypes flat)).Linked t.name f₀ u.name g₀ :=
    ⟨hf₀, hg₀, hlinked.types, hlinked.targets, hlinked.inverses⟩
  obtain ⟨hfrom, hnone⟩ := hlinked₀.shared hn (hu _ hflat) hpaired hlinks'
  obtain ⟨hfrom', hnone'⟩ := hlinked₀.symm.shared hn (hu _ hflat) hpaired hlinks'
  have hdeclare : ∀ edges, decl.LinksDeclare t.name p.path edges ∨ decl.LinksDeclare u.name q.path edges ↔
      (Schema.sortTypes flat).Gives t.name f₀.path edges ∨ (Schema.sortTypes flat).Gives u.name g₀.path edges := fun edges => by
    rw [SchemaDecl.linksDeclare_iff hflat hn, SchemaDecl.linksDeclare_iff hflat hn, hf.path, hg.path]
  generalize hshared : Schema.sharedEdges (Schema.complete (Schema.sortTypes flat)) t.name f₀ = shared at *
  generalize hshared' : Schema.sharedEdges (Schema.complete (Schema.sortTypes flat)) u.name g₀ = shared' at *
  have hempty : p.edges.isSome = !shared.isEmpty := hf.edges
  have hempty' : q.edges.isSome = !shared'.isEmpty := hg.edges
  have hsame : shared = [] ↔ shared' = [] :=
    ⟨fun hnil => hnone hnil _ hfrom'.symm, fun hnil => hnone' hnil _ hfrom.symm⟩
  cases hp : p.edges with
  | none =>
    have hnil : shared = [] := by simpa [hp] using hempty
    refine ⟨?_, .inl ⟨rfl, fun edges hedges => hnone hnil edges ((hdeclare edges).1 hedges)⟩⟩
    rw [hsame.1 hnil] at hempty'
    exact (by simpa using hempty' : q.edges = none).symm
  | some e =>
    obtain ⟨edges, hends, hne, hholds⟩ :=
      hbacked.made hnamed hlinks hplaced hpq hf hg ((hcompiled t hpq.source).edges p hpq.prop e hp)
    refine ⟨?_, .inr ⟨e, edges, rfl, (hdeclare edges).2 ?_, hne, hholds⟩⟩
    · cases hq : q.edges with
      | none =>
        have hnil : shared' = [] := by simpa [hq] using hempty'
        rw [hsame.2 hnil, hp] at hempty
        cases hempty
      | some e' =>
        rw [hplaced.shared t hpq.source p hpq.prop u hpq.target q hpq.back e e' hp hq (hpq.relationKey hplaced)]
    · rcases hends with rfl | rfl
      · exact hfrom
      · exact hfrom'.symm

/-- No declared edge property is lost: both ends of a relation are compiled to one layout, which has the properties that are
declared at either of them, as long as the two ends do not declare different ones. -/
theorem compile_edges_declared (h : decl.compile priority = .ok schema) (hu : decl.Unambiguous)
    (hpq : Engine.Opposite schema t p u q)
    (hone : ∀ edges edges', decl.LinksDeclare t.name p.path edges → decl.LinksDeclare u.name q.path edges' →
      edges = [] ∨ edges' = [] ∨ edges = edges') :
    p.edges = q.edges ∧
      (∀ edges, decl.LinksDeclare t.name p.path edges ∨ decl.LinksDeclare u.name q.path edges → edges ≠ [] →
        ∃ e, p.edges = some e ∧ e.Holds edges) ∧
      (p.edges.isSome = true →
        ∃ edges, (decl.LinksDeclare t.name p.path edges ∨ decl.LinksDeclare u.name q.path edges) ∧ edges ≠ []) := by
  obtain ⟨hsame, ⟨hnone, hempty⟩ | ⟨e, edges, hsome, hdeclared, hne, hholds⟩⟩ := compile_edges_of_end h hu hpq
  · refine ⟨hsame, fun edges hedges hne => absurd (hempty edges hedges) hne, fun hsome => ?_⟩
    rw [hnone] at hsome
    cases hsome
  · refine ⟨hsame, fun edges' hedges' hne' => ⟨e, hsome, ?_⟩, fun _ => ⟨edges, hdeclared, hne⟩⟩
    have heq : edges = edges' := by
      rcases hdeclared with hd | hd <;> rcases hedges' with hd' | hd'
      · exact hd.unique h hd'
      · exact ((hone _ _ hd hd').resolve_left hne).resolve_left hne'
      · exact (((hone _ _ hd' hd).resolve_left hne').resolve_left hne).symm
      · exact hd.unique h hd'
    exact heq ▸ hholds

end

open People in
/-- Friendships are declared to store since when they are ones. -/
theorem compile_edges_declared_people :
    let p := { friends with location := .separate 1 }
    decl.compile = .ok layout ∧ decl.Unambiguous ∧ Engine.Opposite layout person p person p ∧
      decl.LinksDeclare "person" ["friends"] edges ∧ ∃ e, p.edges = some e ∧ e.Holds edges := by
  intro p
  have hopp : Engine.Opposite layout person p person p :=
    ⟨List.mem_singleton.2 rfl, by simp [person, p], rfl, rfl, List.mem_singleton.2 rfl, by simp [person, p], rfl, rfl⟩
  have hleaf : decl.LinksDeclare "person" ["friends"] edges := ⟨_, _, _, List.mem_cons_self, .here List.mem_cons_self⟩
  obtain ⟨-, hkept, -⟩ := compile_edges_declared compile_decl unambiguous_decl hopp fun edges edges' h h' =>
    .inr (.inr (h.unique compile_decl h'))
  exact ⟨compile_decl, unambiguous_decl, hopp, hleaf, hkept edges (.inl hleaf) (List.cons_ne_nil _ _)⟩

end NodeStore
