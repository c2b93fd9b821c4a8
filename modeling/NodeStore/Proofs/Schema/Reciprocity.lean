import NodeStore.Proofs.Engine.Relations
import NodeStore.Proofs.Schema.Pairs
import NodeStore.Proofs.Schema.WellFormed

/-!
# References in pairs

A schema that compiles gives every reference its inverse, as long as the declaration leaves no two references the same one.

* `FlatTypes.Extends`: resolving inverses takes no declared property away.
* `Mirrors`: the properties of a compiled type are those of the flat one.
* `SchemaDecl.Unambiguous`: no two declared references claim the same inverse.
* `compile_reciprocal`: the inverse of every reference is a reference back, whose inverse is the first.
-/

namespace NodeStore

namespace Schema

/-! ### Declared properties stay -/

/-- The same types, each with at least the paths it had. -/
def FlatTypes.Extends (types out : FlatTypes) : Prop :=
  List.Forall₂ (fun x y => x.1 = y.1 ∧ x.2.map (·.path) <+: y.2.map (·.path)) types out

namespace FlatTypes.Extends

variable {types mid out : FlatTypes}

theorem refl (types : FlatTypes) : FlatTypes.Extends types types := List.forall₂_same.2 fun _ _ => ⟨rfl, List.prefix_refl _⟩

theorem trans (h : types.Extends mid) (h' : mid.Extends out) : types.Extends out := by
  unfold FlatTypes.Extends at *
  induction h generalizing out with
  | nil => exact h'
  | cons hx _ ih =>
    cases h' with
    | cons hy hrest => exact .cons ⟨hx.1.trans hy.1, hx.2.trans hy.2⟩ (ih hrest)

theorem modifyType (types : FlatTypes) (type : String) {f : List FlatProp → List FlatProp}
    (hf : ∀ ps, ps.map (·.path) <+: (f ps).map (·.path)) : types.Extends (types.modifyType type f) := by
  induction types with
  | nil => exact .nil
  | cons x types ih =>
    rw [FlatTypes.modifyType]
    split
    · exact .cons ⟨rfl, hf _⟩ (refl types)
    · exact .cons ⟨rfl, List.prefix_refl _⟩ ih

theorem modifyProp (types : FlatTypes) (type name : String) {f : FlatProp → FlatProp} (hf : ∀ p, (f p).path = p.path) :
    types.Extends (types.modifyProp type name f) := by
  refine modifyType types type fun ps => ?_
  induction ps with
  | nil => exact List.prefix_refl _
  | cons p ps ih =>
    rw [FlatTypes.modifyFirst]
    split
    · have hpaths : (f p :: ps).map (·.path) = (p :: ps).map (·.path) := by
        rw [List.map_cons, List.map_cons, hf]
      exact hpaths ▸ List.prefix_refl _
    · exact List.cons_prefix_cons.2 ⟨rfl, ih⟩

theorem addProp (types : FlatTypes) (type : String) (p : FlatProp) : types.Extends (Schema.addProp types type p) := by
  refine modifyType types type fun ps => ?_
  split
  · exact List.prefix_refl _
  · rw [List.map_append]
    exact List.prefix_append _ _

theorem names (h : types.Extends out) : types.map (·.1) = out.map (·.1) := by
  unfold FlatTypes.Extends at h
  induction h with
  | nil => rfl
  | cons hx _ ih => rw [List.map_cons, List.map_cons, hx.1, ih]

/-- The names of fewer properties are unique, too. -/
theorem named (h : types.Extends out) (hn : out.Named) : types.Named where
  names := h.names ▸ hn.names
  props x hx := by
    obtain ⟨y, hy, -, hpaths⟩ := exists_of_forall₂_left h hx
    have hnames : ∀ ps : List FlatProp, ps.map (·.name) = (ps.map (·.path)).map Path.join := fun ps => by
      rw [List.map_map]
      rfl
    have hy := hn.props y hy
    rw [hnames] at hy ⊢
    exact (hpaths.map Path.join).sublist.nodup hy

end FlatTypes.Extends

/-- Resolving inverses takes no property away. -/
theorem resolveInverses_extends {types out : FlatTypes} (h : resolveInverses types = .ok out) : types.Extends out :=
  resolveInverses_invariant h (.refl types) (fun type name _ hf hts => hts.trans (.modifyProp _ type name fun p => (hf p).1))
    fun _ _ _ hts => hts.trans (.addProp ..)

/-! ### Compiled properties -/

/-- A compiled property has the name, the type and the target of the flat one. -/
structure FlatProp.Compiled (c : Context) (owner : String) (p : FlatProp) (d : PropDef EdgeLayout) : Prop where
  name : d.name = p.name
  type : d.type = p.type
  target : resolveTarget c true owner p = .ok d.target

/-- The target of a reference is the declared one. -/
theorem resolveTarget_reference {c : Context} {owner : String} {p : FlatProp} {target : Option RefTarget}
    (hr : p.type.isReference = true) (h : resolveTarget c true owner p = .ok target) :
    ∃ r, target = some r ∧ p.options.reference = some r.type ∧ r.inverse = p.options.inverse := by
  unfold resolveTarget at h
  rw [hr] at h
  cases href : p.options.reference with
  | none =>
    rw [href] at h
    cases h
  | some type =>
    rw [href] at h
    simp only [Bool.not_true, Bool.false_eq_true, if_false, if_true] at h
    split at h
    · cases h
    · cases h
      exact ⟨_, rfl, rfl, rfl⟩

theorem FlatProp.Compiled.target_eq {c : Context} {owner target : String} {p : FlatProp} {d : PropDef EdgeLayout}
    (h : p.Compiled c owner d) (hr : p.type.isReference = true) (href : p.options.reference = some target) :
    ∃ id, d.target = some ⟨target, id, p.options.inverse⟩ := by
  obtain ⟨⟨type, id, inverse⟩, hd, href', hinv⟩ := resolveTarget_reference hr h.target
  have htype : type = target := Option.some.inj (href'.symm.trans href)
  have hinverse : inverse = p.options.inverse := hinv
  exact ⟨id, by rw [hd, htype, hinverse]⟩

/-- The properties of a compiled type are those of the flat one. -/
structure Mirrors (c : Context) (x : String × List FlatProp) (t : TypeLayout) : Prop where
  name : t.name = x.1
  paths : checkPaths x.1 x.2 = .ok ()
  forth : ∀ p ∈ x.2, ∃ d ∈ t.props, p.Compiled c x.1 d
  back : ∀ d ∈ t.props, ∃ p ∈ x.2, p.Compiled c x.1 d

theorem compileProp_compiled {c : Context} {edgesOf : EdgeCompiler EdgeLayout} {type : String} {p : FlatProp}
    {cache cache' : EdgeCache} {d : PropDef EdgeLayout} (h : compileProp c true edgesOf type p cache = .ok (d, cache')) :
    p.Compiled c type d := by
  obtain ⟨_, target, _, -, -, htarget, -, rfl, -⟩ := compileProp_eq_ok.1 h
  exact ⟨rfl, rfl, htarget⟩

theorem typeLayout_mirrors {c : Context} {name : String} {id : TypeId} {flat : List FlatProp} {cache cache' : EdgeCache}
    {t : TypeLayout} (h : typeLayout c name id flat cache = .ok (t, cache')) : Mirrors c (name, flat) t := by
  obtain ⟨hpaths, defs, hdefs, hl⟩ := typeLayout_eq_ok.1 h
  obtain ⟨-, -, bss, -, rfl⟩ := layoutOf_eq_ok.1 hl
  let head (d : PropDef EdgeLayout) : String × PropType × Except Error (Option RefTarget) := (d.name, d.type, .ok d.target)
  have hmap : defs.map head = flat.map fun p => (p.name, p.type, resolveTarget c true name p) :=
    mapM_map hdefs fun _ _ _ _ hx => by
      have hc := compileProp_compiled hx
      rw [hc.target, ← hc.name, ← hc.type]
  have hperm : ((placeAll c.priority defs).map head).Perm (flat.map fun p => (p.name, p.type, resolveTarget c true name p)) :=
    hmap ▸ map_placeAll_perm (fun _ _ => rfl) c.priority defs
  refine ⟨rfl, hpaths, fun p hp => ?_, fun d hd => ?_⟩
  · obtain ⟨d, hd, heq⟩ := List.mem_map.1 (hperm.symm.subset (List.mem_map_of_mem hp))
    simp only [head, Prod.mk.injEq] at heq
    exact ⟨d, hd, heq.1, heq.2.1, heq.2.2.symm⟩
  · obtain ⟨p, hp, heq⟩ := List.mem_map.1 (hperm.subset (List.mem_map_of_mem hd))
    simp only [head, Prod.mk.injEq] at heq
    exact ⟨p, hp, heq.1.symm, heq.2.1.symm, heq.2.2⟩

/-- What each type is compiled to. -/
theorem typeLayouts_mirrors {c : Context} {id : Nat} {flat : FlatTypes} {cache cache' : EdgeCache} {ts : List TypeLayout}
    (h : typeLayouts c id flat cache = .ok (ts, cache')) : List.Forall₂ (Mirrors c) flat ts := by
  induction flat generalizing id cache ts with
  | nil =>
    cases h
    exact .nil
  | cons x rest ih =>
    obtain ⟨t, s, others, ht, hothers, rfl⟩ := typeLayouts_cons_eq_ok.1 h
    exact .cons (typeLayout_mirrors ht) (ih hothers)

/-- Names are unique in types that compile. -/
theorem named_of_mirrors {c : Context} {flat : FlatTypes} {ts : List TypeLayout} (hplain : flat.Plain)
    (hn : (flat.map (·.1)).Nodup) (h : List.Forall₂ (Mirrors c) flat ts) : flat.Named where
  names := hn
  props x hx := by
    obtain ⟨t, -, ht⟩ := exists_of_forall₂_left h hx
    exact checkPaths_names (hplain x hx) ht.paths

/-- Names are unique in what is compiled, inverses included. -/
theorem named_resolved {decls : List (String × List (String × PropDecl))} {flat resolved : FlatTypes} {c : Context} {id : Nat}
    {cache cache' : EdgeCache} {ts : List TypeLayout} (hflat : flattenTypes ∅ decls = .ok flat)
    (hresolved : resolveInverses (sortTypes flat) = .ok resolved)
    (htypes : typeLayouts c id resolved cache = .ok (ts, cache')) : resolved.Named := by
  have hplain := resolveInverses_plain (fun x hx => flattenTypes_plain hflat x (List.mem_mergeSort.1 hx)) hresolved
  refine named_of_mirrors hplain ?_ (typeLayouts_mirrors htypes)
  rw [← (resolveInverses_extends hresolved).names]
  exact ((List.mergeSort_perm ..).map _).nodup_iff.2 (names_flattenTypes hflat)

end Schema

open Schema (FlatTypes)

/-- No two declared references claim the same property as their inverse, and no declared property has the name of an
inverse that is added. -/
def SchemaDecl.Unambiguous (decl : SchemaDecl) : Prop :=
  ∀ types, Schema.flattenTypes ∅ decl.types = .ok types → (Schema.sortTypes types).Unambiguous

/-- A property whose target names another one has it as its inverse. -/
theorem inverseOf_of_target {schema : SchemaLayout} (hs : schema.Placed) (ha : ∀ t ∈ schema.types, t.Addressed)
    (hnames : schema.types.Pairwise fun t u => t.name < u.name) {t u : TypeLayout} {p q : PropDef EdgeLayout}
    (ht : t ∈ schema.types) (hp : p ∈ t.props) (hu : u ∈ schema.types) (hq : q ∈ u.props) {id : TypeId}
    (htarget : p.target = some ⟨u.name, id, some q.name⟩) : Engine.inverseOf schema p = .ok (some (u.id, q)) := by
  obtain ⟨v, hv, hname⟩ := hs.targets t ht p hp _ htarget
  obtain ⟨hmem, hid⟩ := hs.found _ _ hv
  have hvu : v = u := by
    have hnodup : (schema.types.map (·.name)).Nodup := List.pairwise_map.2 (hnames.imp Std.ne_of_lt)
    exact List.inj_on_of_nodup_map hnodup hmem hu hname
  subst hvu
  have hlayout : Engine.layoutOf schema id = .ok v := by
    rw [Engine.layoutOf, hv]
  unfold Engine.inverseOf
  rw [htarget]
  simp only [hlayout, Except.bind_eq_ok, Except.ok.injEq, exists_eq_left', (ha v hu).prop?_name hq]
  rw [hid]
  rfl

/-- In a schema that compiles, the inverse of every reference is a reference back, whose inverse is the first, as long as the
declaration leaves no two references the same inverse. -/
theorem compile_reciprocal {decl : SchemaDecl} {priority : Priority} {schema : SchemaLayout}
    (h : decl.compile priority = .ok schema) (hu : decl.Unambiguous) : Engine.Reciprocal schema := by
  have hplaced := compile_placed h
  have haddressed := compile_addressed h
  have hwell := compile_wellFormed h
  obtain ⟨locales, flat, resolved, types, cache, -, -, hflat, hresolved, htypes, rfl⟩ := SchemaDecl.compile_eq_ok.1 h
  have hmirrors := Schema.typeLayouts_mirrors htypes
  have hn := Schema.named_resolved hflat hresolved htypes
  have hpaired :=
    Schema.resolveInverses_paired ((Schema.resolveInverses_extends hresolved).named hn) (hu _ hflat) hresolved
  intro t ht p hp hr
  obtain ⟨⟨name, ps⟩, hx, hmirror⟩ := exists_of_forall₂_left hmirrors.flip ht
  obtain ⟨p₀, hp₀, hcompiled⟩ := hmirror.back p hp
  rw [hcompiled.type] at hr
  obtain ⟨target, qs, q₀, href, hinv, hy, hq₀, hqr, hqref, hqinv⟩ := hpaired name ps hx p₀ hp₀ hr
  obtain ⟨u, hut, hmirror'⟩ := exists_of_forall₂_left hmirrors hy
  obtain ⟨q, hq, hcompiled'⟩ := hmirror'.forth q₀ hq₀
  obtain ⟨id, htarget⟩ := hcompiled.target_eq hr href
  obtain ⟨id', htarget'⟩ := hcompiled'.target_eq hqr hqref
  rw [hinv, ← hcompiled'.name, ← show u.name = target from hmirror'.name] at htarget
  rw [hqinv, ← hcompiled.name, ← show t.name = name from hmirror.name] at htarget'
  exact ⟨u, q, ht, hp, hcompiled.type ▸ hr, inverseOf_of_target hplaced haddressed hwell.names ht hp hut hq htarget, hut, hq,
    hcompiled'.type ▸ hqr, inverseOf_of_target hplaced haddressed hwell.names hut hq ht hp htarget'⟩

namespace Posts

open Schema

/-- Posts name their author, authors do not name their posts. -/
def decl : SchemaDecl where
  locales := []
  types := [("post", [("author", .leaf .reference { reference := some "user" } [])]), ("user", [("age", .leaf .uint8 {} [])])]

def flatAge : FlatProp := ⟨["age"], .uint8, {}, []⟩

def flat : FlatTypes := [("post", [⟨["author"], .reference, { reference := some "user" }, []⟩]), ("user", [flatAge])]

def flatAuthor : FlatProp := ⟨["author"], .reference, { reference := some "user", inverse := some "_post_author" }, []⟩

def flatPosts : FlatProp := ⟨["_post_author"], .references, { reference := some "post", inverse := some "author" }, []⟩

def resolved : FlatTypes := [("post", [flatAuthor]), ("user", [flatAge, flatPosts])]

def context : Context := ⟨["post", "user"], [], fun _ => PropDef.defaultPriority⟩

def author : PropDef EdgeLayout := unplaced context flatAuthor 0 false (some ⟨"user", 2, some "_post_author"⟩) none

def age : PropDef EdgeLayout := unplaced context flatAge 1 true none none

def posts : PropDef EdgeLayout := unplaced context flatPosts 0 false (some ⟨"post", 1, some "author"⟩) none

def post : TypeLayout where
  name := "post"
  id := 1
  mainLen := 0
  props := [{ author with location := .separate 1 }]
  tree := pathTree 0 [] [author]
  mainDefaults := []

def user : TypeLayout where
  name := "user"
  id := 2
  mainLen := 1
  props := [{ age with location := .main 0 }, { posts with location := .separate 1 }]
  tree := pathTree 0 [] [age, posts]
  mainDefaults := [0]

def layout : SchemaLayout := ⟨[post, user], [], Sha256.digest (describeSchema [post, user] [])⟩

theorem flattenTypes_decl : flattenTypes ∅ decl.types = .ok flat := by
  rw [decl, flattenTypes, if_neg (by simp)]
  simp only [Except.bind_eq_ok]
  refine ⟨_, rfl, _, ?_, rfl⟩
  rw [flattenTypes, if_neg (by simp)]
  rfl

theorem sortTypes_flat : sortTypes flat = flat := List.mergeSort_of_pairwise (by decide +kernel)

theorem layoutOf_post : layoutOf context.priority "post" 1 [author] = .ok post := by
  have hmain : mainOf [author] = [] := List.mergeSort_nil
  have hseparate : separateOf context.priority [author] = [author] := List.mergeSort_singleton _
  refine layoutOf_eq_ok.2 ?_
  rw [placeAll, hmain, hseparate]
  exact ⟨by decide, by decide, [], rfl, rfl⟩

theorem layoutOf_user : layoutOf context.priority "user" 2 [age, posts] = .ok user := by
  have hmain : mainOf [age, posts] = [age] := List.mergeSort_singleton _
  have hseparate : separateOf context.priority [age, posts] = [posts] := List.mergeSort_singleton _
  refine layoutOf_eq_ok.2 ?_
  rw [placeAll, hmain, hseparate]
  exact ⟨by decide, by decide, [[0]], rfl, rfl⟩

theorem typeLayouts_resolved : typeLayouts context 1 resolved [] = .ok ([post, user], []) := by
  have hpost : typeLayout context "post" 1 [flatAuthor] [] = .ok (post, []) :=
    typeLayout_eq_ok.2 ⟨rfl, [author], rfl, layoutOf_post⟩
  have huser : typeLayout context "user" 2 [flatAge, flatPosts] [] = .ok (user, []) :=
    typeLayout_eq_ok.2 ⟨rfl, [age, posts], rfl, layoutOf_user⟩
  exact typeLayouts_cons_eq_ok.2
    ⟨post, [], [user], hpost, typeLayouts_cons_eq_ok.2 ⟨user, [], [], huser, rfl, rfl⟩, rfl⟩

theorem compile_decl : decl.compile = .ok layout := by
  have hlocales : compileLocales decl.locales = .ok [] := by
    simp [compileLocales, decl, dropRepeated]
    rfl
  have hresolved : resolveInverses (sortTypes flat) = .ok resolved := by
    rw [sortTypes_flat]
    rfl
  exact SchemaDecl.compile_eq_ok.2 ⟨_, _, _, _, _, hlocales, by decide, flattenTypes_decl, hresolved, typeLayouts_resolved, rfl⟩

theorem unambiguous_decl : decl.Unambiguous := by
  intro types h
  rw [flattenTypes_decl] at h
  cases h
  rw [sortTypes_flat]
  have hlinks : flat.allLinks = [⟨"post", "author", "user", none⟩] := rfl
  refine ⟨fun l hl l' hl' _ _ => ?_, fun l hl _ _ p hp => ?_⟩
  · rw [hlinks, List.mem_singleton] at hl hl'
    rw [hl, hl']
  · rw [hlinks, List.mem_singleton] at hl
    subst hl
    cases List.mem_singleton.1 hp
    decide +kernel

end Posts

open Posts in
theorem compile_reciprocal_posts : decl.compile = .ok layout ∧ decl.Unambiguous ∧ Engine.Reciprocal layout :=
  ⟨compile_decl, unambiguous_decl, compile_reciprocal compile_decl unambiguous_decl⟩

end NodeStore
