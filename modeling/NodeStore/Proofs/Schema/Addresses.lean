import NodeStore.Proofs.Schema.Placement
import NodeStore.Proofs.Schema.Trees

/-!
# The names of properties

In a schema that compiles, the dotted name of a property leads to it through the tree of paths.

* `Layout.Addressed`: every property is found at its path and only there, and its name splits into that path.
* `compile_addressed`, `compile_edges_addressed`: so it is for every type of a schema that compiles, and for what its links
  store.
-/

namespace NodeStore

/-! ### Dotted names -/

namespace Path

theorem splitChars_noDot {cs s : List Char} (h : s ∈ splitChars cs) : '.' ∉ s := by
  induction cs generalizing s with
  | nil =>
    rw [splitChars, List.mem_singleton] at h
    subst h
    simp
  | cons c cs ih =>
    rw [splitChars] at h
    split at h
    · rcases List.mem_cons.1 h with rfl | h
      · simp
      · exact ih h
    · rename_i hc
      cases hs : splitChars cs with
      | nil =>
        rw [hs, List.mem_singleton] at h
        subst h
        simp only [List.mem_singleton]
        exact fun he => hc he.symm
      | cons t ts =>
        rw [hs] at h ih
        rcases List.mem_cons.1 h with rfl | h
        · have := ih List.mem_cons_self
          simp only [List.mem_cons, not_or]
          exact ⟨fun he => hc he.symm, this⟩
        · exact ih (List.mem_cons_of_mem _ h)

/-- Between dots there is no dot. -/
theorem split_noDot {path s : String} (h : s ∈ split path) : '.' ∉ s.toList := by
  obtain ⟨cs, hcs, rfl⟩ := List.mem_map.1 h
  rw [String.toList_ofList]
  exact splitChars_noDot hcs

theorem split_ne_nil (path : String) : split path ≠ [] := by
  simpa [split] using splitChars_ne_nil path.toList

theorem joinChars_splitChars (cs : List Char) : joinChars (splitChars cs) = cs := by
  induction cs with
  | nil => rfl
  | cons c cs ih =>
    obtain ⟨s, ss, hs⟩ := List.exists_cons_of_ne_nil (splitChars_ne_nil cs)
    rw [hs] at ih
    rw [splitChars]
    split
    · rename_i hc
      rw [hs, joinChars, ih, hc, List.nil_append]
    · rw [hs]
      cases ss with
      | nil => exact congrArg (c :: ·) ih
      | cons t ss => exact congrArg (c :: ·) ih

theorem join_split (path : String) : join (split path) = path := by
  have hchars : ((splitChars path.toList).map String.ofList).map String.toList = splitChars path.toList := by
    rw [List.map_map]
    exact (List.map_congr_left fun cs _ => String.toList_ofList).trans (List.map_id _)
  rw [join, split, hchars, joinChars_splitChars, String.ofList_toList]

end Path

/-! ### Apart -/

namespace Schema

open Path (Apart)

section

variable {E : Type}

theorem overlap_of_initial {p q : List String} (h : p <+: q ∨ q <+: p) : overlap p q = true := by
  unfold overlap
  rw [decide_eq_true_eq]
  rcases h with ⟨r, rfl⟩ | ⟨r, rfl⟩ <;> simp

/-- Checked paths are apart. -/
theorem checkPaths_apart {type : String} {flat : List FlatProp} (h : checkPaths type flat = .ok ()) :
    flat.Pairwise fun p q => Apart p.path q.path := by
  have hcount : ∀ p ∈ flat, flat.countP (fun q => overlap p.path q.path) ≤ 1 := by
    intro p hp
    have := forM_eq_ok.1 h p hp
    split at this
    · cases this
    · omega
  clear h
  induction flat with
  | nil => exact .nil
  | cons p flat ih =>
    refine .cons (fun q hq => ?_) (ih fun r hr => ?_)
    · have hp := hcount p List.mem_cons_self
      have hself : overlap p.path p.path = true := overlap_of_initial (.inl (List.prefix_refl _))
      rw [List.countP_cons, hself, if_pos rfl] at hp
      have hnone : ¬overlap p.path q.path = true := fun ho => by
        have := List.countP_pos_iff (p := fun q : FlatProp => overlap p.path q.path).2 ⟨q, hq, ho⟩
        omega
      exact ⟨fun hpq => hnone (overlap_of_initial (.inl hpq)), fun hqp => hnone (overlap_of_initial (.inr hqp))⟩
    · have := hcount r (List.mem_cons_of_mem _ hr)
      have hle := (List.sublist_cons_self p flat).countP_le (p := fun q => overlap r.path q.path)
      omega

section

variable {γ : Type} {g : PropDef E → γ}

/-- Placing changes nothing but the places. -/
theorem map_placeMain (hg : ∀ d place, g { d with location := place } = g d) (offset : Nat) (ds : List (PropDef E)) :
    (placeMain offset ds).map g = ds.map g := by
  induction ds generalizing offset with
  | nil => rfl
  | cons d ds ih => rw [placeMain, List.map_cons, ih, List.map_cons, hg]

theorem map_placeSeparate (hg : ∀ d place, g { d with location := place } = g d) (slot : Nat) (ds : List (PropDef E)) :
    (placeSeparate slot ds).map g = ds.map g := by
  induction ds generalizing slot with
  | nil => rfl
  | cons d ds ih => rw [placeSeparate, List.map_cons, ih, List.map_cons, hg]

/-- The properties of a layout are the compiled ones, each at its place. -/
theorem map_placeAll_perm (hg : ∀ d place, g { d with location := place } = g d) (priority : Priority)
    (defs : List (PropDef E)) : ((placeAll priority defs).map g).Perm (defs.map g) := by
  rw [placeAll, List.map_append, map_placeMain hg, map_placeSeparate hg, ← List.map_append]
  exact (((List.mergeSort_perm ..).append (List.mergeSort_perm ..)).trans (List.filter_append_perm ..)).map g

end

end

end Schema

variable {E : Type}

/-- Every property is found at its path and only there, and its name splits into that path. -/
structure Layout.Addressed (t : Layout E) : Prop where
  name : ∀ p ∈ t.props, Path.split p.name = p.path
  apart : t.props.Pairwise fun p q => Path.Apart p.path q.path
  leaf : ∀ i p, t.props[i]? = some p → PathNode.leafAt? t.tree p.path = some i
  only : ∀ ks i, PathNode.leafAt? t.tree ks = some i → ∃ p, t.props[i]? = some p ∧ p.path = ks
  ordered : PathNode.Ordered (.branch t.tree)
  /-- The names of added inverses may be reserved ones. -/
  unreserved : ∀ p ∈ t.props, p.type.isReference = false → ∀ s ∈ p.path, Schema.reservedSegment s = false

/-- The paths of two properties do not meet. -/
theorem Layout.Addressed.eq_or_apart {t : Layout E} (h : t.Addressed) {p q : PropDef E} (hp : p ∈ t.props) (hq : q ∈ t.props) :
    p = q ∨ Path.Apart p.path q.path := by
  obtain ⟨i, hi, rfl⟩ := List.getElem_of_mem hp
  obtain ⟨j, hj, rfl⟩ := List.getElem_of_mem hq
  have hapart := List.pairwise_iff_getElem.1 h.apart
  rcases Nat.lt_trichotomy i j with hlt | rfl | hlt
  · exact .inr (hapart i j hi hj hlt)
  · exact .inl rfl
  · exact .inr (hapart j i hj hi hlt).symm

theorem Layout.Addressed.path_ne_nil {t : Layout E} (h : t.Addressed) {p : PropDef E} (hp : p ∈ t.props) : p.path ≠ [] := by
  rw [← h.name p hp]
  exact Path.split_ne_nil _

namespace Schema

open Path (Apart)

/-- The properties of a layout can be told apart by their paths if the declared ones can. -/
theorem layoutOf_addressed {priority : Priority} {name : String} {id : TypeId} {defs : List (PropDef E)} {t : Layout E}
    (hname : ∀ d ∈ defs, Path.split d.name = d.path)
    (hplain : ∀ d ∈ defs, d.type.isReference = false → ∀ s ∈ d.path, reservedSegment s = false)
    (hapart : (defs.map (·.path)).Pairwise Apart) (h : layoutOf priority name id defs = .ok t) : t.Addressed := by
  obtain ⟨-, -, bss, -, rfl⟩ := layoutOf_eq_ok.1 h
  have hnames : ∀ q ∈ placeAll priority defs, Path.split q.name = q.path := by
    intro q hq
    obtain ⟨d, hd, place, rfl⟩ := mem_placeAll hq
    exact hname d hd
  have happart : (placeAll priority defs).Pairwise fun p q => Apart p.path q.path := by
    rw [← List.pairwise_map (f := fun d : PropDef E => d.path) (R := Apart)]
    exact ((map_placeAll_perm (fun _ _ => rfl) priority defs).pairwise_iff Apart.symm).2 hapart
  obtain ⟨-, hleaf, honly⟩ := leafAt?_pathTree 0 []
    (fun d hd => by rw [← hnames d hd]; exact Path.split_ne_nil _) happart fun _ _ _ _ => PathNode.leafAt?_nil _
  refine ⟨hnames, happart, fun i p hp => ?_, fun ks i hi => ?_, pathTree_ordered 0 _ .empty, fun q hq => ?_⟩
  · have htree := hleaf i p hp
    rwa [Nat.zero_add] at htree
  · rcases honly ks i hi with h | ⟨m, d, hd, rfl, hpath⟩
    · rw [PathNode.leafAt?_nil] at h
      cases h
    · exact ⟨d, by rwa [Nat.zero_add], hpath⟩
  · obtain ⟨d, hd, place, rfl⟩ := mem_placeAll hq
    exact hplain d hd

/-! ### Declared names -/

/-- The name of a leaf splits into its path, and only an added inverse has reserved names on it. -/
def FlatProp.Plain (p : FlatProp) : Prop :=
  (p.path ≠ [] ∧ ∀ s ∈ p.path, '.' ∉ s.toList) ∧ (p.type.isReference = false → ∀ s ∈ p.path, reservedSegment s = false)

theorem FlatProp.Plain.split_name {p : FlatProp} (h : p.Plain) : Path.split p.name = p.path :=
  Path.split_join h.1.1 h.1.2

/-- Checked properties have different names. -/
theorem checkPaths_names {type : String} {flat : List FlatProp} (hplain : ∀ p ∈ flat, p.Plain)
    (h : checkPaths type flat = .ok ()) : (flat.map (·.name)).Nodup := by
  refine List.pairwise_map.2 ((checkPaths_apart h).imp_of_mem fun hp hq hapart hname => hapart.ne ?_)
  rw [← (hplain _ hp).split_name, ← (hplain _ hq).split_name, hname]

mutual

theorem flatten_segments {type : String} {path : List String} (hne : path ≠ [])
    (hpath : ∀ s ∈ path, '.' ∉ s.toList ∧ reservedSegment s = false) :
    ∀ (decl : PropDecl) (fs : List FlatProp), flatten type path decl = .ok fs →
      ∀ f ∈ fs, f.path ≠ [] ∧ ∀ s ∈ f.path, '.' ∉ s.toList ∧ reservedSegment s = false
  | .leaf t options edges, fs, h, f, hf => by
    rw [flatten] at h
    cases h
    rw [List.mem_singleton.1 hf]
    exact ⟨hne, hpath⟩
  | .object props, fs, h, f, hf => by
    rw [flatten] at h
    exact flattenAll_segments (fun s hs => (hpath s hs).1) props fs h f hf

/-- The segments of declared names hold no dots and are not reserved. -/
theorem flattenAll_segments {type : String} {above : List String} (habove : ∀ s ∈ above, '.' ∉ s.toList) :
    ∀ (props : List (String × PropDecl)) (fs : List FlatProp), flattenAll type above props = .ok fs →
      ∀ f ∈ fs, f.path ≠ [] ∧ ∀ s ∈ f.path, '.' ∉ s.toList ∧ reservedSegment s = false
  | [], fs, h, f, hf => by
    rw [flattenAll] at h
    cases h
    cases hf
  | (name, decl) :: rest, fs, h, f, hf => by
    obtain ⟨hfree, here, others, hhere, hothers, rfl⟩ := flattenAll_cons.1 h
    rcases List.mem_append.1 hf with hf | hf
    · refine flatten_segments ?_ (fun s hs => ⟨?_, ?_⟩) decl here hhere f hf
      · simp [Path.split_ne_nil]
      · rcases List.mem_append.1 hs with hs | hs
        · exact habove s hs
        · exact Path.split_noDot hs
      · simpa using List.any_eq_false.1 hfree s hs
    · exact flattenAll_segments habove rest others hothers f hf

end

theorem flattenAll_plain {type : String} {above : List String} (habove : ∀ s ∈ above, '.' ∉ s.toList)
    (props : List (String × PropDecl)) (fs : List FlatProp) (h : flattenAll type above props = .ok fs) : ∀ f ∈ fs, f.Plain :=
  fun f hf =>
    have hsegments := flattenAll_segments habove props fs h f hf
    ⟨⟨hsegments.1, fun s hs => (hsegments.2 s hs).1⟩, fun _ s hs => (hsegments.2 s hs).2⟩

/-! ### Types and schemas -/

/-- All declared names split into their paths. -/
def FlatTypes.Plain (types : FlatTypes) : Prop := ∀ x ∈ types, ∀ p ∈ x.2, p.Plain

/-- What holds of all properties, and of those that take their places, holds of all properties then. -/
theorem forall_modifyType {Q : FlatProp → Prop} {types : FlatTypes} (h : ∀ x ∈ types, ∀ p ∈ x.2, Q p) (type : String)
    {f : List FlatProp → List FlatProp} (hf : ∀ ps, (∀ p ∈ ps, Q p) → ∀ p ∈ f ps, Q p) :
    ∀ x ∈ types.modifyType type f, ∀ p ∈ x.2, Q p := by
  induction types with
  | nil => exact h
  | cons x rest ih =>
    obtain ⟨hprops, hrest⟩ := List.forall_mem_cons.1 h
    rw [FlatTypes.modifyType]
    split
    · exact List.forall_mem_cons.2 ⟨hf _ hprops, hrest⟩
    · exact List.forall_mem_cons.2 ⟨hprops, ih hrest⟩

theorem forall_modifyFirst {Q : FlatProp → Prop} {test : FlatProp → Bool} {f : FlatProp → FlatProp} (hf : ∀ p, Q p → Q (f p))
    (ps : List FlatProp) (h : ∀ p ∈ ps, Q p) : ∀ p ∈ FlatTypes.modifyFirst test f ps, Q p := by
  induction ps with
  | nil => exact h
  | cons p ps ih =>
    obtain ⟨hp, hps⟩ := List.forall_mem_cons.1 h
    rw [FlatTypes.modifyFirst]
    split
    · exact List.forall_mem_cons.2 ⟨hf p hp, hps⟩
    · exact List.forall_mem_cons.2 ⟨hp, ih hps⟩

/-- What holds of the paths and types of all properties, and of the inverses that are added, holds once inverses are resolved. -/
theorem resolveInverses_forall {Q : FlatProp → Prop} {types out : FlatTypes} (h : resolveInverses types = .ok out)
    (hQ : ∀ x ∈ types, ∀ p ∈ x.2, Q p) (hkept : ∀ p q : FlatProp, q.path = p.path → q.type = p.type → Q p → Q q)
    (hadd : ∀ (ts : FlatTypes) (l : Link), (∀ ls, links types = .ok ls → l ∈ ls) →
      Q (inverseOf ts l (l.inverse.getD (inverseName l)))) : ∀ x ∈ out, ∀ p ∈ x.2, Q p := by
  refine resolveInverses_invariant (P := fun ts => ∀ x ∈ ts, ∀ p ∈ x.2, Q p) h hQ (fun type name f hf hts => ?_)
    fun ts' l hl hts => forall_modifyType hts l.target fun ps hps q hq => ?_
  · exact forall_modifyType hts type (forall_modifyFirst fun p hp => hkept p (f p) (hf p).1 (hf p).2 hp)
  · split at hq
    · exact hps q hq
    · rcases List.mem_append.1 hq with hq | hq
      · exact hps q hq
      · rw [List.mem_singleton.1 hq]
        exact hadd ts' l hl

/-- The names of added inverses split into their paths, too. -/
theorem resolveInverses_plain {types out : FlatTypes} (hplain : types.Plain) (h : resolveInverses types = .ok out) :
    out.Plain :=
  resolveInverses_forall h hplain (fun p q hpath htype hp => by rwa [FlatProp.Plain, hpath, htype])
    fun _ _ _ => ⟨⟨Path.split_ne_nil _, fun _ hs => Path.split_noDot hs⟩, nofun⟩

theorem flattenTypes_plain {seen : Std.HashSet String} {decls : List (String × List (String × PropDecl))}
    {types : FlatTypes} (h : flattenTypes seen decls = .ok types) : types.Plain := fun x hx => by
  obtain ⟨-, -, hall⟩ := flattenTypes_eq_ok.1 h
  obtain ⟨d, -, -, hflat⟩ := exists_of_forall₂_left hall.flip hx
  exact flattenAll_plain (fun _ h => absurd h List.not_mem_nil) _ _ hflat

/-- What is computed for each element of a list has something in common with it. -/
theorem mapM_map {σ ε α β γ : Type} {f : α → StateT σ (Except ε) β} {g : β → γ} {k : α → γ} {xs : List α} {ys : List β}
    {s s' : σ} (h : xs.mapM f s = .ok (ys, s')) (step : ∀ x s y s', f x s = .ok (y, s') → g y = k x) :
    ys.map g = xs.map k := by
  induction xs generalizing s ys with
  | nil =>
    cases h
    rfl
  | cons x xs ih =>
    obtain ⟨y, t, zs, hx, hxs, rfl⟩ := mapM_cons_eq_ok.1 h
    rw [List.map_cons, List.map_cons, step x s y t hx, ih hxs]

theorem compileProp_name {E : Type} {c : Context} {inverses : Bool} {edgesOf : EdgeCompiler E} {type : String}
    {p : FlatProp} {cache cache' : EdgeCache} {d : PropDef E}
    (h : compileProp c inverses edgesOf type p cache = .ok (d, cache')) :
    (d.path, d.name, d.type) = (p.path, p.name, p.type) := by
  obtain ⟨_, _, _, -, -, -, -, rfl, -⟩ := compileProp_eq_ok.1 h
  rfl

/-- Checked properties can be told apart once they are compiled and placed. -/
theorem layoutOf_compiled_addressed {E : Type} {c : Context} {inverses : Bool} {edgesOf : EdgeCompiler E} {name : String}
    {id : TypeId} {flat : List FlatProp} {cache cache' : EdgeCache} {defs : List (PropDef E)} {t : Layout E}
    (hplain : ∀ p ∈ flat, p.Plain) (hpaths : checkPaths name flat = .ok ())
    (hdefs : flat.mapM (compileProp c inverses edgesOf name) cache = .ok (defs, cache'))
    (hl : layoutOf c.priority name id defs = .ok t) : t.Addressed := by
  have hmap := mapM_map (g := fun d => (d.path, d.name, d.type)) (k := fun p => (p.path, p.name, p.type)) hdefs
    fun _ _ _ _ hx => compileProp_name hx
  have hpath : defs.map (·.path) = flat.map (·.path) := by
    have hfst := congrArg (List.map Prod.fst) hmap
    rwa [List.map_map, List.map_map] at hfst
  have hfrom : ∀ d ∈ defs, ∃ p ∈ flat, p.path = d.path ∧ p.name = d.name ∧ p.type = d.type := by
    intro d hd
    have hmem : (d.path, d.name, d.type) ∈ flat.map fun p => (p.path, p.name, p.type) := by
      rw [← hmap]
      exact List.mem_map_of_mem hd
    obtain ⟨p, hp, he⟩ := List.mem_map.1 hmem
    simp only [Prod.mk.injEq] at he
    exact ⟨p, hp, he⟩
  refine layoutOf_addressed (fun d hd => ?_) (fun d hd => ?_) ?_ hl
  · obtain ⟨p, hp, hpath, hname, -⟩ := hfrom d hd
    rw [← hpath, ← hname]
    exact (hplain p hp).split_name
  · obtain ⟨p, hp, hpath, -, htype⟩ := hfrom d hd
    rw [← hpath, ← htype]
    exact (hplain p hp).2
  · rw [hpath, List.pairwise_map]
    exact checkPaths_apart hpaths

theorem typeLayout_addressed {c : Context} {name : String} {id : TypeId} {flat : List FlatProp}
    {cache cache' : EdgeCache} {t : TypeLayout} (hplain : ∀ p ∈ flat, p.Plain)
    (h : typeLayout c name id flat cache = .ok (t, cache')) : t.Addressed := by
  obtain ⟨hpaths, defs, hdefs, hl⟩ := typeLayout_eq_ok.1 h
  exact layoutOf_compiled_addressed hplain hpaths hdefs hl

theorem Made.addressed {c : Context} {key : RelationKey} {edges : List (String × PropDecl)} {e : EdgeLayout}
    (h : Made c key edges e) : e.Addressed := by
  obtain ⟨flat, defs, hflat, hpaths, hdefs, hl⟩ := h
  exact layoutOf_compiled_addressed (flattenAll_plain (fun _ h => absurd h List.not_mem_nil) _ _ hflat) hpaths
    ((mapM_noEdges_eq_ok (s := [])).2 ⟨rfl, hdefs⟩) hl

/-- What holds of every compiled type by itself holds of all of them. -/
theorem typeLayouts_all {P : TypeLayout → Prop} {c : Context} {id : Nat} {flat : FlatTypes} {cache cache' : EdgeCache}
    {ts : List TypeLayout} (h : typeLayouts c id flat cache = .ok (ts, cache'))
    (step : ∀ x ∈ flat, ∀ id s t s', typeLayout c x.1 id x.2 s = .ok (t, s') → P t) : ∀ t ∈ ts, P t := by
  induction flat generalizing id cache ts with
  | nil =>
    cases h
    exact fun _ h => absurd h List.not_mem_nil
  | cons x rest ih =>
    obtain ⟨t, s, others, ht, hothers, rfl⟩ := typeLayouts_cons_eq_ok.1 h
    exact List.forall_mem_cons.2
      ⟨step x List.mem_cons_self _ _ _ _ ht, ih hothers fun y hy => step y (List.mem_cons_of_mem _ hy)⟩

section

variable {P : EdgeLayout → Prop} {c : Context}

/-- What holds of the layout of links when it is made holds of all that were made so far. -/
theorem typeLayouts_edges_all (step : ∀ key edges e, Made c key edges e → P e) {id : Nat} {flat : FlatTypes}
    {cache cache' : EdgeCache} {ts : List TypeLayout} (hc : ∀ x ∈ cache, P x.2)
    (h : typeLayouts c id flat cache = .ok (ts, cache')) : ∀ x ∈ cache', P x.2 := by
  have hedge : ∀ {type path target edges cache cache' e}, (∀ x ∈ cache, P x.2) →
      edgeLayout c type path target edges cache = .ok (e, cache') → ∀ x ∈ cache', P x.2 := by
    intro type path target edges cache cache' e hc h
    rcases edgeLayout_eq_ok.1 h with ⟨-, rfl⟩ | ⟨-, hmade, rfl⟩
    · exact hc
    · refine List.forall_mem_append.2 ⟨hc, fun x hx => ?_⟩
      rw [List.mem_singleton.1 hx]
      exact step _ _ _ hmade
  induction flat generalizing id cache ts with
  | nil =>
    cases h
    exact hc
  | cons x rest ih =>
    obtain ⟨t, s, others, ht, hothers, rfl⟩ := typeLayouts_cons_eq_ok.1 h
    obtain ⟨-, defs, hdefs, -⟩ := typeLayout_eq_ok.1 ht
    refine ih (mapM_invariant (P := fun s : EdgeCache => ∀ x ∈ s, P x.2) (Q := fun _ _ _ => True) hdefs hc
      (fun _ _ _ _ _ hs hx => ?_) fun _ _ _ _ _ _ _ _ _ => trivial).1 hothers
    obtain ⟨-, -, ⟨-, rfl⟩ | ⟨e, -, he⟩⟩ := compileProp_spec hx
    · exact ⟨hs, trivial⟩
    · exact ⟨hedge hs he, trivial⟩

end

end Schema

/-- What holds of every type that is compiled from plain leaves holds of the types of a schema. -/
theorem compile_all {P : TypeLayout → Prop} {decl : SchemaDecl} {priority : Priority} {schema : SchemaLayout}
    (h : decl.compile priority = .ok schema)
    (step : ∀ c name id flat s t s', (∀ p ∈ flat, Schema.FlatProp.Plain p) →
      Schema.typeLayout c name id flat s = .ok (t, s') → P t) : ∀ t ∈ schema.types, P t := by
  obtain ⟨locales, flat, resolved, types, cache, -, -, hflat, hresolved, htypes, rfl⟩ := SchemaDecl.compile_eq_ok.1 h
  have hplain := Schema.resolveInverses_plain
    (fun x hx => Schema.flattenTypes_plain hflat x (List.mem_mergeSort.1 hx)) hresolved
  exact Schema.typeLayouts_all htypes fun x hx id s t s' ht => step _ _ _ _ _ _ _ (hplain x hx) ht

/-- What holds of the layout of what links store when it is made holds of all of them in a schema. -/
theorem compile_edges_all {P : EdgeLayout → Prop} {decl : SchemaDecl} {priority : Priority} {schema : SchemaLayout}
    (h : decl.compile priority = .ok schema) (step : ∀ c key edges e, Schema.Made c key edges e → P e) {t : TypeLayout}
    (ht : t ∈ schema.types) {p : PropDef EdgeLayout} (hp : p ∈ t.props) {e : EdgeLayout} (he : p.edges = some e) : P e := by
  obtain ⟨locales, flat, resolved, types, cache, -, -, -, -, htypes, rfl⟩ := SchemaDecl.compile_eq_ok.1 h
  obtain ⟨hcompiled, -⟩ := Schema.typeLayouts_spec (fun _ h => absurd h List.not_mem_nil) htypes
  obtain ⟨x, hx, rfl⟩ := Option.map_eq_some_iff.1 ((hcompiled t ht).edges p hp e he)
  exact Schema.typeLayouts_edges_all (step _) (fun _ h => absurd h List.not_mem_nil) htypes x (List.mem_of_find?_eq_some hx)

/-- In every schema that compiles, properties are found by their names. -/
theorem compile_addressed {decl : SchemaDecl} {priority : Priority} {schema : SchemaLayout}
    (h : decl.compile priority = .ok schema) : ∀ t ∈ schema.types, t.Addressed :=
  compile_all h fun _ _ _ _ _ _ _ hplain ht => Schema.typeLayout_addressed hplain ht

/-- So are those of what links store. -/
theorem compile_edges_addressed {decl : SchemaDecl} {priority : Priority} {schema : SchemaLayout}
    (h : decl.compile priority = .ok schema) {t : TypeLayout} (ht : t ∈ schema.types) {p : PropDef EdgeLayout}
    (hp : p ∈ t.props) {e : EdgeLayout} (he : p.edges = some e) : e.Addressed :=
  compile_edges_all h (fun _ _ _ _ => Schema.Made.addressed) ht hp he

end NodeStore
