import Mathlib.Data.List.Nodup
import NodeStore.Proofs.Inversion
import NodeStore.Schema.Compile
import Std.Data.HashSet.Lemmas

/-!
# The stages of compiling a schema

What each stage needs to succeed, and what comes out of it then.

* `flattenAll_cons`, `flattenTypes_eq_ok`: declarations are flattened.
* `resolveInverses_invariant`: what is kept while inverses are resolved.
* `compileProp_eq_ok`, `layoutOf_eq_ok`: properties are compiled and placed.
* `Recalls`, `edgeLayout_eq_ok`: the layout of what the links of a relation store is made once.
* `typeLayout_eq_ok`, `typeLayouts_cons_eq_ok`, `SchemaDecl.compile_eq_ok`: types and schemas.
-/

namespace NodeStore

namespace Schema

/-! ### Declarations -/

/-- The leaves of the first declaration stand in front of the others. -/
theorem flattenAll_cons {type name : String} {above : List String} {d : PropDecl} {ds : List (String × PropDecl)}
    {fs : List FlatProp} : flattenAll type above ((name, d) :: ds) = .ok fs ↔
      (above ++ Path.split name).any reservedSegment = false ∧ ∃ here others,
        flatten type (above ++ Path.split name) d = .ok here ∧ flattenAll type above ds = .ok others ∧ fs = here ++ others := by
  rw [flattenAll]
  simp only
  split
  · rename_i hreserved
    rw [hreserved]
    exact ⟨fun h => (by cases h), fun h => absurd h.1 (by simp)⟩
  · rename_i hfree
    rw [Bool.not_eq_true] at hfree
    simp only [hfree, true_and, Except.bind_eq_ok]
    constructor
    · rintro ⟨here, hhere, others, hothers, h⟩
      exact ⟨here, others, hhere, hothers, (Except.ok.inj h).symm⟩
    · rintro ⟨here, others, hhere, hothers, rfl⟩
      exact ⟨here, hhere, others, hothers, rfl⟩

/-- Types are flattened if no two of them have the same name, nor a name met before. -/
theorem flattenTypes_eq_ok {seen : Std.HashSet String} {decls : List (String × List (String × PropDecl))}
    {types : FlatTypes} : flattenTypes seen decls = .ok types ↔
      (decls.map (·.1)).Nodup ∧ (∀ d ∈ decls, seen.contains d.1 = false) ∧
        List.Forall₂ (fun d x => d.1 = x.1 ∧ flattenAll d.1 [] d.2 = .ok x.2) decls types := by
  induction decls generalizing seen types with
  | nil =>
    constructor
    · intro h
      cases h
      exact ⟨.nil, fun _ h => absurd h List.not_mem_nil, .nil⟩
    · rintro ⟨-, -, h⟩
      cases h
      rfl
  | cons d rest ih =>
    rw [flattenTypes, List.map_cons, List.nodup_cons, List.forall_mem_cons]
    simp only
    have hunseen : (∀ e ∈ rest, (seen.insert d.1).contains e.1 = false) ↔
        d.1 ∉ rest.map (·.1) ∧ ∀ e ∈ rest, seen.contains e.1 = false := by
      simp only [Std.HashSet.contains_insert, Bool.or_eq_false_iff, beq_eq_false_iff_ne, List.mem_map, not_exists, not_and]
      exact ⟨fun h => ⟨fun e he hname => (h e he).1 hname.symm, fun e he => (h e he).2⟩,
        fun h e he => ⟨fun hname => h.1 e he hname.symm, h.2 e he⟩⟩
    split
    · rename_i hseen
      exact ⟨fun h => (by cases h), fun h => absurd (h.2.1.1.symm.trans hseen) (by simp)⟩
    · rename_i hnew
      rw [Bool.not_eq_true] at hnew
      constructor
      · intro h
        obtain ⟨flat, hflat, h⟩ := Except.bind_eq_ok.1 h
        obtain ⟨others, hothers, h⟩ := Except.bind_eq_ok.1 h
        cases h
        obtain ⟨hnodup, hfree, hall⟩ := ih.1 hothers
        obtain ⟨hname, hfree⟩ := hunseen.1 hfree
        exact ⟨⟨hname, hnodup⟩, ⟨hnew, hfree⟩, .cons ⟨rfl, hflat⟩ hall⟩
      · rintro ⟨⟨hname, hnodup⟩, ⟨-, hfree⟩, hall⟩
        cases hall with
        | @cons _ x _ xs hx hall =>
          obtain ⟨hx1, hx2⟩ := hx
          refine Except.bind_eq_ok.2 ⟨x.2, hx2, Except.bind_eq_ok.2 ⟨xs, ih.2 ⟨hnodup, hunseen.2 ⟨hname, hfree⟩, hall⟩, ?_⟩⟩
          rw [hx1]
          rfl

/-! ### Inverses -/

/-- The property that is added for a link is an inverse of it, with the name that the link asks for or a new one. -/
theorem chooseInverse_new {types : FlatTypes} {l : Link} {inverse : String} {new : Option FlatProp}
    (h : chooseInverse types l = .ok (inverse, new)) :
    ∀ p, new = some p → p = inverseOf types l (l.inverse.getD (inverseName l)) := by
  intro p hp
  unfold chooseInverse at h
  cases hinverse : l.inverse <;> simp only [hinverse] at h
  all_goals
    repeat' split at h
    all_goals cases h <;> cases hp
    rfl

/-- What the types keep while a property is changed or an inverse is added holds once inverses are resolved. -/
theorem resolveInverses_invariant {P : FlatTypes → Prop} {types out : FlatTypes} (h : resolveInverses types = .ok out)
    (hP : P types)
    (hmodify : ∀ {ts : FlatTypes} (type name : String) {f : FlatProp → FlatProp},
      (∀ p, (f p).path = p.path ∧ (f p).type = p.type) → P ts → P (ts.modifyProp type name f))
    (hadd : ∀ {ts : FlatTypes} (ts' : FlatTypes) (l : Link), (∀ ls, links types = .ok ls → l ∈ ls) → P ts →
      P (addProp ts l.target (inverseOf ts' l (l.inverse.getD (inverseName l))))) : P out := by
  unfold resolveInverses at h
  obtain ⟨ls, hls, h⟩ := Except.bind_eq_ok.1 h
  obtain ⟨r, hr, h⟩ := Except.bind_eq_ok.1 h
  cases h
  obtain ⟨htypes, hadded⟩ := foldlM_invariant
    (P := fun r => P r.types ∧
      ∀ x ∈ r.added, ∃ ts', ∃ l ∈ ls, x = (l.target, inverseOf ts' l (l.inverse.getD (inverseName l)))) hr
    ⟨hP, fun _ h => absurd h List.not_mem_nil⟩ (fun l hmem s s' hs hl => by
      unfold resolveLink at hl
      obtain ⟨⟨inverse, new⟩, hc, hl⟩ := Except.bind_eq_ok.1 hl
      cases hl
      refine ⟨hmodify _ _ (fun _ => ⟨rfl, rfl⟩) hs.1, fun x hx => ?_⟩
      rcases List.mem_append.1 hx with hx | hx
      · exact hs.2 x hx
      · obtain ⟨p, hp, rfl⟩ := Option.map_eq_some_iff.1 (Option.mem_toList.1 hx)
        exact ⟨s.types, l, hmem, by rw [chooseInverse_new hc p hp]⟩)
  refine List.foldlRecOn _ _ (List.foldlRecOn _ _ htypes fun ts hts x hx => ?_) fun ts hts x _ => ?_
  · obtain ⟨ts', l, hl, rfl⟩ := hadded x hx
    exact hadd ts' l (fun ls' hls' => by cases hls.symm.trans hls'; exact hl) hts
  · exact hmodify _ _ (fun _ => ⟨rfl, rfl⟩) hts

/-! ### Properties -/

section

variable {E : Type} {c : Context} {inverses : Bool} {edgesOf : EdgeCompiler E} {type : String} {p : FlatProp}
  {s t : EdgeCache} {d : PropDef E} {target : Option RefTarget} {edges : Option E}

/-- The stages of compiling a property. -/
theorem compileProp_eq_ok : compileProp c inverses edgesOf type p s = .ok (d, t) ↔
    ∃ size target edges, measure type p = .ok size ∧ checkProp type p = .ok () ∧
      resolveTarget c inverses type p = .ok target ∧ compileEdges edgesOf type p target s = .ok (edges, t) ∧
      d = unplaced c p size.1 size.2 target edges ∧ checkDefault type d = .ok () := by
  unfold compileProp
  simp only [StateT.bind_eq_ok, StateT.lift_eq_ok, StateT.pure_eq_ok]
  constructor
  · rintro ⟨size, _, ⟨hsize, rfl⟩, _, _, ⟨hcheck, rfl⟩, target, _, ⟨htarget, rfl⟩, edges, _, hedges, _, _, ⟨hdefault, rfl⟩, h⟩
    cases h
    exact ⟨size, target, edges, hsize, hcheck, htarget, hedges, rfl, hdefault⟩
  · rintro ⟨size, target, edges, hsize, hcheck, htarget, hedges, rfl, hdefault⟩
    exact ⟨size, _, ⟨hsize, rfl⟩, _, _, ⟨hcheck, rfl⟩, target, _, ⟨htarget, rfl⟩, edges, _, hedges, _, _, ⟨hdefault, rfl⟩, rfl⟩

theorem checkProp_edges (h : checkProp type p = .ok ()) (hedges : p.edges.isEmpty = false) : p.type.isReference = true := by
  unfold checkProp at h
  split at h
  · cases h
  · split at h
    · cases h
    · rename_i hvalue
      simpa [hedges] using hvalue

theorem compileEdges_eq_ok : compileEdges edgesOf type p target s = .ok (edges, t) ↔
    p.edges.isEmpty = true ∧ edges = none ∧ t = s ∨
      p.edges.isEmpty = false ∧ ∃ e, edges = some e ∧ edgesOf type p.name target p.edges s = .ok (e, t) := by
  unfold compileEdges
  cases p.edges.isEmpty with
  | true => simp [StateT.pure_eq_ok]
  | false => simp [StateT.map_eq_ok, and_comm]

end

/-! ### Places -/

section

variable {E : Type}

/-- Main properties by falling width, then by name. -/
def mainOf (defs : List (PropDef E)) : List (PropDef E) := (defs.filter (·.isMain)).mergeSort mainOrder

/-- Separate properties by rising priority, then by name. -/
def separateOf (priority : Priority) (defs : List (PropDef E)) : List (PropDef E) :=
  (defs.filter (!·.isMain)).mergeSort (separateOrder priority)

/-- All properties at their places. -/
def placeAll (priority : Priority) (defs : List (PropDef E)) : List (PropDef E) :=
  placeMain 0 (mainOf defs) ++ placeSeparate 1 (separateOf priority defs)

/-- Placing succeeds if there is room and the defaults can be written. -/
theorem layoutOf_eq_ok {priority : Priority} {name : String} {id : TypeId} {defs : List (PropDef E)} {t : Layout E} :
    layoutOf priority name id defs = .ok t ↔
      mainLength (mainOf defs) ≤ Limits.maxMainLength ∧ (separateOf priority defs).length ≤ Limits.maxSeparateSlot ∧
        ∃ bss, (placeMain 0 (mainOf defs)).mapM (defaultBytes name) = .ok bss ∧
          t = ⟨name, id, mainLength (mainOf defs), placeAll priority defs, pathTree 0 [] (placeAll priority defs),
            bss.flatten⟩ := by
  unfold layoutOf
  simp only
  change (if Limits.maxMainLength < mainLength (mainOf defs) then _ else _) = _ ↔ _
  split
  · rename_i h
    exact ⟨nofun, fun ⟨h', _⟩ => absurd h (Nat.not_lt.2 h')⟩
  · rename_i hroom
    change (if Limits.maxSeparateSlot < (separateOf priority defs).length then _ else _) = _ ↔ _
    split
    · rename_i h
      exact ⟨nofun, fun ⟨_, h', _⟩ => absurd h (Nat.not_lt.2 h')⟩
    · rename_i hslots
      rw [Except.bind_eq_ok]
      constructor
      · rintro ⟨bss, hbss, h⟩
        cases h
        exact ⟨Nat.not_lt.1 hroom, Nat.not_lt.1 hslots, bss, hbss, rfl⟩
      · rintro ⟨-, -, bss, hbss, rfl⟩
        exact ⟨bss, hbss, rfl⟩

end

/-! ### Layouts of links -/

section

variable {c : Context} {key key' : RelationKey} {edges : List (String × PropDecl)} {e : EdgeLayout} {s t : EdgeCache}

/-- The layout that was made for a relation. -/
def EdgeCache.layout? (cache : EdgeCache) (key : RelationKey) : Option EdgeLayout :=
  (cache.find? (·.1 = key)).map (·.2)

/-- The layout of what the links of a relation store. -/
def Made (c : Context) (key : RelationKey) (edges : List (String × PropDecl)) (e : EdgeLayout) : Prop :=
  let name := key.1.1 ++ "." ++ key.1.2
  ∃ flat defs, flattenAll name [] edges = .ok flat ∧ checkPaths name flat = .ok () ∧
    List.Forall₂ (fun p d => compileProp c false noEdges name p [] = .ok (d, [])) flat defs ∧
      layoutOf c.priority name 0 defs = .ok e

/-- A layout is found under the key of a relation, or made and kept there. -/
def Recalls (c : Context) (key : RelationKey) (edges : List (String × PropDecl)) (s : EdgeCache) (e : EdgeLayout)
    (t : EdgeCache) : Prop :=
  s.layout? key = some e ∧ t = s ∨ s.layout? key = none ∧ Made c key edges e ∧ t = s ++ [(key, e)]

theorem layout?_append : EdgeCache.layout? (s ++ [(key, e)]) key' =
    (s.layout? key').or (if key = key' then some e else none) := by
  unfold EdgeCache.layout?
  rw [List.find?_append]
  cases s.find? (·.1 = key') with
  | some x => rfl
  | none => by_cases h : key = key' <;> simp [h]

theorem compileEdges_noEdges_eq_ok {type : String} {p : FlatProp} {target : Option RefTarget} {made : Option Empty} :
    compileEdges noEdges type p target s = .ok (made, t) ↔ t = s ∧ p.edges.isEmpty = true ∧ made = none := by
  rw [compileEdges_eq_ok]
  constructor
  · rintro (⟨hempty, rfl, rfl⟩ | ⟨-, e, -⟩)
    · exact ⟨rfl, hempty, rfl⟩
    · cases e
  · rintro ⟨rfl, hempty, rfl⟩
    exact .inl ⟨hempty, rfl, rfl⟩

theorem compileProp_noEdges_eq_ok {type : String} {p : FlatProp} {d : PropDef Empty} :
    compileProp c false noEdges type p s = .ok (d, t) ↔ t = s ∧ compileProp c false noEdges type p [] = .ok (d, []) := by
  simp only [compileProp_eq_ok, compileEdges_noEdges_eq_ok, true_and]
  constructor
  · rintro ⟨size, target, edges, hsize, hcheck, htarget, ⟨rfl, hempty⟩, hd⟩
    exact ⟨rfl, size, target, edges, hsize, hcheck, htarget, hempty, hd⟩
  · rintro ⟨rfl, size, target, edges, hsize, hcheck, htarget, hempty, hd⟩
    exact ⟨size, target, edges, hsize, hcheck, htarget, ⟨rfl, hempty⟩, hd⟩

theorem mapM_noEdges_eq_ok {type : String} {flat : List FlatProp} {defs : List (PropDef Empty)} :
    flat.mapM (compileProp c false noEdges type) s = .ok (defs, t) ↔
      t = s ∧ List.Forall₂ (fun p d => compileProp c false noEdges type p [] = .ok (d, [])) flat defs := by
  induction flat generalizing s defs with
  | nil =>
    constructor
    · intro h
      cases h
      exact ⟨rfl, .nil⟩
    · rintro ⟨rfl, h⟩
      cases h
      rfl
  | cons p flat ih =>
    rw [mapM_cons_eq_ok]
    constructor
    · rintro ⟨d, u, ds, hd, hds, rfl⟩
      obtain ⟨rfl, hfresh⟩ := compileProp_noEdges_eq_ok.1 hd
      obtain ⟨rfl, hrest⟩ := ih.1 hds
      exact ⟨rfl, .cons hfresh hrest⟩
    · rintro ⟨rfl, h⟩
      cases h with
      | cons hd hds => exact ⟨_, _, _, compileProp_noEdges_eq_ok.2 ⟨rfl, hd⟩, ih.2 ⟨rfl, hds⟩, rfl⟩

/-- The layout of a relation is made once. -/
theorem edgeLayout_eq_ok {type path : String} {target : Option RefTarget} :
    edgeLayout c type path target edges s = .ok (e, t) ↔ Recalls c (relationKey type path target) edges s e t := by
  unfold edgeLayout
  rw [StateT.bind_eq_ok]
  unfold Recalls EdgeCache.layout?
  cases hfound : s.find? (·.1 = relationKey type path target) with
  | some x =>
    constructor
    · rintro ⟨_, _, hget, h⟩
      cases hget
      simp only [hfound] at h
      cases h
      exact .inl ⟨rfl, rfl⟩
    · rintro (⟨h, rfl⟩ | ⟨h, -⟩)
      · cases h
        refine ⟨t, t, rfl, ?_⟩
        simp only [hfound]
        rfl
      · cases h
  | none =>
    constructor
    · rintro ⟨_, _, hget, h⟩
      cases hget
      simp only [hfound] at h
      simp only [StateT.bind_eq_ok, StateT.lift_eq_ok, StateT.pure_eq_ok, mapM_noEdges_eq_ok] at h
      obtain ⟨flat, _, ⟨hflat, rfl⟩, _, _, ⟨hpaths, rfl⟩, defs, _, ⟨rfl, hdefs⟩, layout, _, ⟨hl, rfl⟩, _, _, hmodify, h⟩ := h
      cases hmodify
      cases h
      exact .inr ⟨rfl, ⟨flat, defs, hflat, hpaths, hdefs, hl⟩, rfl⟩
    · rintro (⟨h, -⟩ | ⟨-, ⟨flat, defs, hflat, hpaths, hdefs, hl⟩, rfl⟩)
      · cases h
      · refine ⟨s, s, rfl, ?_⟩
        simp only [hfound]
        simp only [StateT.bind_eq_ok, StateT.lift_eq_ok, StateT.pure_eq_ok, mapM_noEdges_eq_ok]
        exact ⟨flat, _, ⟨hflat, rfl⟩, _, _, ⟨hpaths, rfl⟩, defs, _, ⟨rfl, hdefs⟩, e, _, ⟨hl, rfl⟩, _, _, rfl, rfl⟩

end

/-! ### Types -/

variable {c : Context} {name : String} {s t : EdgeCache}

theorem typeLayout_eq_ok {id : TypeId} {flat : List FlatProp} {l : TypeLayout} :
    typeLayout c name id flat s = .ok (l, t) ↔ checkPaths name flat = .ok () ∧
      ∃ defs, flat.mapM (compileProp c true (edgeLayout c) name) s = .ok (defs, t) ∧ layoutOf c.priority name id defs = .ok l := by
  unfold typeLayout
  simp only [StateT.bind_eq_ok, StateT.lift_eq_ok]
  constructor
  · rintro ⟨_, _, ⟨hpaths, rfl⟩, defs, _, hdefs, hl, rfl⟩
    exact ⟨hpaths, defs, hdefs, hl⟩
  · rintro ⟨hpaths, defs, hdefs, hl⟩
    exact ⟨(), s, ⟨hpaths, rfl⟩, defs, t, hdefs, hl, rfl⟩

/-- The first type is compiled first. -/
theorem typeLayouts_cons_eq_ok {id : Nat} {x : String × List FlatProp} {rest : FlatTypes} {ls : List TypeLayout} :
    typeLayouts c id (x :: rest) s = .ok (ls, t) ↔ ∃ l u others, typeLayout c x.1 (UInt16.ofNat id) x.2 s = .ok (l, u) ∧
      typeLayouts c (id + 1) rest u = .ok (others, t) ∧ ls = l :: others := by
  rw [typeLayouts]
  simp only [StateT.bind_eq_ok, StateT.pure_eq_ok]
  constructor
  · rintro ⟨l, u, hl, others, _, hothers, h⟩
    cases h
    exact ⟨l, u, others, hl, hothers, rfl⟩
  · rintro ⟨l, u, others, hl, hothers, rfl⟩
    exact ⟨l, u, hl, others, t, hothers, rfl⟩

end Schema

/-! ### Schemas -/

open Schema in
/-- The stages of compiling a schema. -/
theorem SchemaDecl.compile_eq_ok {decl : SchemaDecl} {priority : Priority} {schema : SchemaLayout} :
    decl.compile priority = .ok schema ↔
      ∃ locales flat resolved types cache, compileLocales decl.locales = .ok locales ∧
        decl.types.length ≤ Limits.maxTypes ∧ flattenTypes ∅ decl.types = .ok flat ∧
        resolveInverses (sortTypes flat) = .ok resolved ∧
        typeLayouts ⟨resolved.map (·.1), locales.map (·.id), priority⟩ 1 resolved [] = .ok (types, cache) ∧
        schema = ⟨types, locales, Sha256.digest (describeSchema types locales)⟩ := by
  unfold SchemaDecl.compile
  rw [Except.bind_eq_ok]
  refine exists_congr fun locales => ?_
  split
  · rename_i hmany
    exact ⟨nofun, fun ⟨_, _, _, _, _, hlen, _⟩ => absurd hmany (Nat.not_lt.2 hlen)⟩
  · rename_i hlen
    constructor
    · rintro ⟨hlocales, h⟩
      obtain ⟨flat, hflat, h⟩ := Except.bind_eq_ok.1 h
      obtain ⟨resolved, hresolved, h⟩ := Except.bind_eq_ok.1 h
      obtain ⟨⟨types, cache⟩, htypes, h⟩ := Except.bind_eq_ok.1 h
      cases h
      exact ⟨flat, resolved, types, cache, hlocales, Nat.not_lt.1 hlen, hflat, hresolved, htypes, rfl⟩
    · rintro ⟨flat, resolved, types, cache, hlocales, -, hflat, hresolved, htypes, rfl⟩
      exact ⟨hlocales, Except.bind_eq_ok.2 ⟨flat, hflat, Except.bind_eq_ok.2 ⟨resolved, hresolved,
        Except.bind_eq_ok.2 ⟨(types, cache), htypes, rfl⟩⟩⟩⟩

end NodeStore
