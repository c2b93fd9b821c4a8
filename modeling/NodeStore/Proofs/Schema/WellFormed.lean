import NodeStore.Proofs.Schema.Packing

/-!
# Well-formed layouts

What everything that reads or writes nodes takes for granted of a compiled schema.

* `Layout.WellFormed`: main properties tile the main block, separate ones are numbered from 1 on, and names, slots and
  the tree of paths each lead back to the property.
* `SchemaLayout.WellFormed`: the types are numbered in the order of their names, and they and the layouts of what links
  store are well formed.
* `layoutOf_wellFormed`, `compile_wellFormed`: so it is once placing or compiling succeeds.
-/

namespace NodeStore

variable {E : Type}

/-! ### Order of placing -/

namespace Schema

theorem mainOrder_trans (a b c : PropDef E) (hab : mainOrder a b = true) (hbc : mainOrder b c = true) :
    mainOrder a c = true := by
  simp only [mainOrder, Bool.or_eq_true, Bool.and_eq_true, decide_eq_true_eq] at *
  rcases hab with h | ⟨h, hn⟩ <;> rcases hbc with h' | ⟨h', hn'⟩
  · exact .inl (by omega)
  · exact .inl (by omega)
  · exact .inl (by omega)
  · exact .inr ⟨by omega, Std.le_trans hn hn'⟩

theorem mainOrder_total (a b : PropDef E) : (mainOrder a b || mainOrder b a) = true := by
  simp only [mainOrder, Bool.or_eq_true, Bool.and_eq_true, decide_eq_true_eq]
  rcases Nat.lt_trichotomy a.len b.len with h | h | h
  · exact .inr (.inl h)
  · rcases Std.le_total (a := a.name) (b := b.name) with hn | hn
    · exact .inl (.inr ⟨h, hn⟩)
    · exact .inr (.inr ⟨h.symm, hn⟩)
  · exact .inl (.inl h)

theorem separateOrder_trans (priority : Priority) (a b d : PropDef E) (hab : separateOrder priority a b = true)
    (hbd : separateOrder priority b d = true) : separateOrder priority a d = true := by
  simp only [separateOrder, Bool.or_eq_true, Bool.and_eq_true, decide_eq_true_eq] at *
  rcases hab with h | ⟨h, hn⟩ <;> rcases hbd with h' | ⟨h', hn'⟩
  · exact .inl (by omega)
  · exact .inl (by omega)
  · exact .inl (by omega)
  · exact .inr ⟨by omega, Std.le_trans hn hn'⟩

theorem separateOrder_total (priority : Priority) (a b : PropDef E) :
    (separateOrder priority a b || separateOrder priority b a) = true := by
  simp only [separateOrder, Bool.or_eq_true, Bool.and_eq_true, decide_eq_true_eq]
  rcases Int.lt_trichotomy (priority E a) (priority E b) with h | h | h
  · exact .inl (.inl h)
  · rcases Std.le_total (a := a.name) (b := b.name) with hn | hn
    · exact .inl (.inr ⟨h, hn⟩)
    · exact .inr (.inr ⟨h.symm, hn⟩)
  · exact .inr (.inl h)

theorem mainOf_sorted (defs : List (PropDef E)) : (mainOf defs).Pairwise fun a b => mainOrder a b = true :=
  List.pairwise_mergeSort mainOrder_trans mainOrder_total _

theorem isMain_of_mem_placeMain {q : PropDef E} {ds : List (PropDef E)} {offset : Nat} (h : q ∈ placeMain offset ds) :
    q.isMain = true := by
  obtain ⟨d, -, n, rfl, -⟩ := mem_placeMain h
  rfl

theorem isMain_of_mem_placeSeparate {q : PropDef E} {ds : List (PropDef E)} {slot : Nat} (h : q ∈ placeSeparate slot ds) :
    q.isMain = false := by
  obtain ⟨d, -, n, rfl, -⟩ := mem_placeSeparate h
  rfl

end Schema

/-! ### Layouts -/

/-- The main properties stand one behind the other from `offset` to `stop`, with nothing in between. -/
def Tiles (offset stop : Nat) : List (PropDef E) → Prop
  | [] => offset = stop
  | p :: ps => p.offset? = some offset ∧ Tiles (offset + p.len) stop ps

/-- What every compiled layout promises, of a type or of what links store. -/
structure Layout.WellFormed (t : Layout E) : Prop where
  /-- The main properties come first. -/
  props : t.props = t.mainProps ++ t.separateProps
  tiles : Tiles 0 t.mainLen t.mainProps
  falling : t.mainProps.Pairwise fun p q => q.len ≤ p.len
  room : t.mainLen ≤ Limits.maxMainLength
  block : t.mainDefaults.length = t.mainLen
  slots : t.separateProps.map (·.slot?) = (List.range' 1 t.separateProps.length).map fun n => some (UInt8.ofNat n)
  count : t.separateProps.length ≤ Limits.maxSeparateSlot
  apart : t.props.Pairwise fun p q => Path.Apart p.path q.path
  named : ∀ i p, t.props[i]? = some p → t.prop? p.name = some p ∧ t.propIndex? p.name = some i
  slotted : ∀ p ∈ t.props, ∀ slot, p.slot? = some slot → t.propBySlot? slot = some p
  leaf : ∀ i p, t.props[i]? = some p → PathNode.leafAt? t.tree p.path = some i
  only : ∀ ks i, PathNode.leafAt? t.tree ks = some i → ∃ p, t.props[i]? = some p ∧ p.path = ks
  /-- No two runs of leading segments name a property. -/
  unambiguous : ∀ segments : List String, (∀ s ∈ segments, '.' ∉ s.toList) → ∀ m n, 0 < m → m ≤ segments.length →
    0 < n → n ≤ segments.length → (t.prop? (Path.join (segments.take m))).isSome →
    (t.prop? (Path.join (segments.take n))).isSome → m = n
  zeros : ∀ p ∈ t.props, ∀ offset, p.offset? = some offset → p.default = none →
    (t.mainDefaults.drop offset).take p.len = List.replicate p.len 0
  defaults : ∀ p ∈ t.props, ∀ offset, p.offset? = some offset → ∀ v, p.default = some v →
    p.encodeFixed p.len v = .ok ((t.mainDefaults.drop offset).take p.len)

/-- What every compiled schema promises. -/
structure SchemaLayout.WellFormed (s : SchemaLayout) : Prop where
  ids : s.types.map (·.id.toNat) = List.range' 1 s.types.length
  /-- No two types have the same name. -/
  names : s.types.Pairwise fun t u => t.name < u.name
  types : ∀ t ∈ s.types, t.WellFormed
  edges : ∀ t ∈ s.types, ∀ p ∈ t.props, ∀ e, p.edges = some e → e.WellFormed

namespace Layout

variable {t : Layout E} {p q : PropDef E}

theorem Addressed.join_path (h : t.Addressed) (hp : p ∈ t.props) {segments : List String} (hne : segments ≠ [])
    (hdot : ∀ s ∈ segments, '.' ∉ s.toList) (hname : p.name = Path.join segments) : p.path = segments := by
  rw [← h.name p hp, hname, Path.split_join hne hdot]

/-- A name belongs to one property. -/
theorem Addressed.name_unique (h : t.Addressed) (hp : p ∈ t.props) (hq : q ∈ t.props) (hn : p.name = q.name) : p = q :=
  (h.eq_or_apart hp hq).resolve_right fun ha => ha.ne (by rw [← h.name p hp, ← h.name q hq, hn])

theorem Addressed.prop?_name (h : t.Addressed) (hp : p ∈ t.props) : t.prop? p.name = some p := by
  cases hf : t.prop? p.name with
  | none =>
    have := List.find?_eq_none.1 hf p hp
    simp at this
  | some q =>
    obtain ⟨hq, hname⟩ := mem_of_prop? hf
    rw [h.name_unique hq hp hname]

/-- The places of two properties of one path are the same. -/
theorem Addressed.index_eq (h : t.Addressed) {i j : Nat} (hi : t.props[i]? = some p) (hj : t.props[j]? = some q)
    (hn : p.name = q.name) : i = j := by
  have hpq := h.name_unique (List.mem_of_getElem? hi) (List.mem_of_getElem? hj) hn
  have hleaf := h.leaf i p hi
  rw [hpq, h.leaf j q hj] at hleaf
  exact (Option.some.inj hleaf).symm

theorem Addressed.propIndex?_name (h : t.Addressed) {i : Nat} (hi : t.props[i]? = some p) : t.propIndex? p.name = some i := by
  obtain ⟨hlt, hget⟩ := List.getElem?_eq_some_iff.1 hi
  refine List.findIdx?_eq_some_iff_getElem.2 ⟨hlt, by simp [hget], fun j hj hname => ?_⟩
  have hne := h.index_eq (List.getElem?_eq_getElem (Nat.lt_trans hj hlt)) hi (by simpa using hname)
  omega

/-- Of two runs of segments that name properties, neither is part of the other. -/
theorem Addressed.take_unique (h : t.Addressed) {segments : List String} (hdot : ∀ s ∈ segments, '.' ∉ s.toList) {m n : Nat}
    (hm : 0 < m) (hlm : m ≤ segments.length) (hn : 0 < n) (hln : n ≤ segments.length)
    (hp : (t.prop? (Path.join (segments.take m))).isSome) (hq : (t.prop? (Path.join (segments.take n))).isSome) :
    m = n := by
  obtain ⟨p, hp⟩ := Option.isSome_iff_exists.1 hp
  obtain ⟨q, hq⟩ := Option.isSome_iff_exists.1 hq
  obtain ⟨hpmem, hpname⟩ := mem_of_prop? hp
  obtain ⟨hqmem, hqname⟩ := mem_of_prop? hq
  have hpath : ∀ k, 0 < k → k ≤ segments.length → ∀ r ∈ t.props, r.name = Path.join (segments.take k) →
      r.path = segments.take k := fun k hk hlk r hr hname =>
    h.join_path hr (fun he => by
      rcases List.take_eq_nil_iff.1 he with rfl | rfl
      · omega
      · simp at hlk
        omega) (fun s hs => hdot s (List.mem_of_mem_take hs)) hname
  have hmp := hpath m hm hlm p hpmem hpname
  have hnq := hpath n hn hln q hqmem hqname
  rcases h.eq_or_apart hpmem hqmem with rfl | hapart
  · have hlen := congrArg List.length (hmp.symm.trans hnq)
    simp only [List.length_take] at hlen
    omega
  · rw [hmp, hnq] at hapart
    rcases Nat.le_total m n with hle | hle
    · exact absurd (List.take_prefix_take_left hle) hapart.1
    · exact absurd (List.take_prefix_take_left hle) hapart.2

end Layout

namespace Schema

theorem tiles_placeMain (offset : Nat) (ds : List (PropDef E)) : Tiles offset (offset + mainLength ds) (placeMain offset ds) := by
  induction ds generalizing offset with
  | nil => rfl
  | cons d ds ih =>
    refine ⟨rfl, ?_⟩
    have h := ih (offset + d.len)
    rwa [Nat.add_assoc] at h

theorem slots_of_placeSeparate (slot : Nat) (ds : List (PropDef E)) :
    (placeSeparate slot ds).map (·.slot?) = (List.range' slot ds.length).map fun n => some (UInt8.ofNat n) := by
  induction ds generalizing slot with
  | nil => rfl
  | cons d ds ih => rw [placeSeparate, List.map_cons, ih, List.length_cons, List.range'_succ, List.map_cons]; rfl

theorem length_placeSeparate (slot : Nat) (ds : List (PropDef E)) : (placeSeparate slot ds).length = ds.length := by
  induction ds generalizing slot with
  | nil => rfl
  | cons d ds ih => rw [placeSeparate, List.length_cons, ih, List.length_cons]

theorem filter_placeAll (priority : Priority) (defs : List (PropDef E)) :
    (placeAll priority defs).filter (·.isMain) = placeMain 0 (mainOf defs) ∧
      (placeAll priority defs).filter (!·.isMain) = placeSeparate 1 (separateOf priority defs) := by
  have hmain : ∀ q ∈ placeMain 0 (mainOf defs), q.isMain = true := fun q hq => isMain_of_mem_placeMain hq
  have hsep : ∀ q ∈ placeSeparate 1 (separateOf priority defs), q.isMain = false := fun q hq => isMain_of_mem_placeSeparate hq
  rw [placeAll, List.filter_append, List.filter_append, List.filter_eq_self.2 hmain,
    List.filter_eq_nil_iff.2 fun q hq => by simp [hsep q hq], List.append_nil,
    List.filter_eq_nil_iff.2 fun q hq => by simp [hmain q hq], List.nil_append,
    List.filter_eq_self.2 fun q hq => by simp [hsep q hq]]
  exact ⟨rfl, rfl⟩

/-- Placing makes a well-formed layout of properties that can be told apart. -/
theorem layoutOf_wellFormed {priority : Priority} {name : String} {id : TypeId} {defs : List (PropDef E)} {t : Layout E}
    (hm : ∀ d ∈ defs, d.Measured) (hd : ∀ d ∈ defs, d.Declared) (ha : t.Addressed)
    (h : layoutOf priority name id defs = .ok t) : t.WellFormed := by
  obtain ⟨hplaced, -⟩ := layoutOf_placed hm h
  have hpacked := layoutOf_packed hm hd h
  obtain ⟨hroom, hcount, bss, -, ht⟩ := layoutOf_eq_ok.1 h
  obtain ⟨hmain, hsep⟩ := filter_placeAll priority defs
  have hmainProps : t.mainProps = placeMain 0 (mainOf defs) := by rw [ht]; exact hmain
  have hsepProps : t.separateProps = placeSeparate 1 (separateOf priority defs) := by rw [ht]; exact hsep
  have hbytes := hpacked.defaults
  refine
    { props := by rw [hmainProps, hsepProps, ht]; rfl
      tiles := ?_
      falling := ?_
      room := hplaced.room
      block := hplaced.defaults
      slots := by rw [hsepProps, length_placeSeparate, slots_of_placeSeparate]
      count := by rw [hsepProps, length_placeSeparate]; exact hcount
      apart := ha.apart
      named := fun i p hp => ⟨ha.prop?_name (List.mem_of_getElem? hp), ha.propIndex?_name hp⟩
      slotted := fun p hp slot hslot => hplaced.propBySlot? hp hslot
      leaf := ha.leaf
      only := ha.only
      unambiguous := fun segments hdot m n hm hlm hn hln hp hq => ha.take_unique hdot hm hlm hn hln hp hq
      zeros := fun p hp offset ho hnone => ?_
      defaults := fun p hp offset ho v hv => ?_ }
  · have hlen : t.mainLen = 0 + mainLength (mainOf defs) := by rw [ht, Nat.zero_add]
    rw [hmainProps, hlen]
    exact tiles_placeMain 0 _
  · rw [hmainProps, ← List.pairwise_map (f := fun p : PropDef E => p.len) (R := fun m n => n ≤ m), map_placeMain fun _ _ => rfl,
      List.pairwise_map]
    refine (mainOf_sorted defs).imp fun {a b} hab => ?_
    simp only [mainOrder, Bool.or_eq_true, Bool.and_eq_true, decide_eq_true_eq] at hab
    omega
  · have hslice := hbytes p hp offset ho
    rw [defaultBytes, hnone] at hslice
    exact (Except.ok.inj hslice).symm
  · have hslice := hbytes p hp offset ho
    rw [defaultBytes, hv] at hslice
    dsimp only at hslice
    split at hslice
    · rename_i hencoded
      rw [hencoded, Except.ok.inj hslice]
    · cases hslice

/-! ### Layouts of links -/

/-- All layouts made so far for what links store are well formed. -/
def EdgeCache.WellFormed (cache : EdgeCache) : Prop := ∀ x ∈ cache, x.2.WellFormed

theorem edgeLayout_wellFormed {c : Context} {type path : String} {target : Option RefTarget}
    {edges : List (String × PropDecl)} {cache cache' : EdgeCache} {e : EdgeLayout} (hc : cache.WellFormed)
    (h : edgeLayout c type path target edges cache = .ok (e, cache')) : cache'.WellFormed := by
  rcases edgeLayout_eq_ok.1 h with ⟨-, rfl⟩ | ⟨-, ⟨flat, defs, hflat, hpaths, hdefs, hl⟩, rfl⟩
  · exact hc
  · have hplain := flattenAll_plain (fun _ h => absurd h List.not_mem_nil) _ _ hflat
    have hfrom : ∀ d ∈ defs, d.Measured ∧ d.Declared := fun d hd => by
      obtain ⟨p, -, hp⟩ := exists_of_forall₂_left hdefs.flip hd
      exact ⟨(compileProp_spec hp).1, compileProp_declared hp⟩
    have hrun := (mapM_noEdges_eq_ok (s := cache)).2 ⟨rfl, hdefs⟩
    intro x hx
    rcases List.mem_append.1 hx with hx | hx
    · exact hc x hx
    · rw [List.mem_singleton.1 hx]
      exact layoutOf_wellFormed (fun d hd => (hfrom d hd).1) (fun d hd => (hfrom d hd).2)
        (layoutOf_compiled_addressed hplain hpaths hrun hl) hl

/-! ### Types -/

theorem typeLayout_wellFormed {c : Context} {name : String} {id : TypeId} {flat : List FlatProp}
    {cache cache' : EdgeCache} {t : TypeLayout} (hplain : ∀ p ∈ flat, p.Plain) (hc : cache.WellFormed)
    (h : typeLayout c name id flat cache = .ok (t, cache')) : t.WellFormed ∧ cache'.WellFormed := by
  obtain ⟨hpaths, defs, hdefs, hl⟩ := typeLayout_eq_ok.1 h
  obtain ⟨hs, hall⟩ := mapM_invariant (P := EdgeCache.WellFormed)
    (Q := fun _ (d : PropDef EdgeLayout) _ => d.Measured ∧ d.Declared) hdefs hc
    (fun _ _ _ _ _ hs hx => by
      obtain ⟨hm, -, ⟨-, rfl⟩ | ⟨e, -, he⟩⟩ := compileProp_spec hx
      · exact ⟨hs, hm, compileProp_declared hx⟩
      · exact ⟨edgeLayout_wellFormed hs he, hm, compileProp_declared hx⟩)
    (fun _ _ _ _ _ _ _ hq _ => hq)
  exact ⟨layoutOf_wellFormed (fun d hd => (hall d hd).choose_spec.2.1) (fun d hd => (hall d hd).choose_spec.2.2)
    (layoutOf_compiled_addressed hplain hpaths hdefs hl) hl, hs⟩

theorem typeLayouts_wellFormed {c : Context} {id : Nat} {flat : FlatTypes} {cache cache' : EdgeCache}
    {ts : List TypeLayout} (hplain : flat.Plain) (hc : cache.WellFormed)
    (h : typeLayouts c id flat cache = .ok (ts, cache')) : (∀ t ∈ ts, t.WellFormed) ∧ cache'.WellFormed := by
  induction flat generalizing id cache ts with
  | nil =>
    cases h
    exact ⟨nofun, hc⟩
  | cons x rest ih =>
    obtain ⟨t, s, others, ht, hothers, rfl⟩ := typeLayouts_cons_eq_ok.1 h
    obtain ⟨htype, hs⟩ := typeLayout_wellFormed (hplain x List.mem_cons_self) hc ht
    obtain ⟨htypes, hs'⟩ := ih (fun y hy => hplain y (List.mem_cons_of_mem _ hy)) hs hothers
    exact ⟨List.forall_mem_cons.2 ⟨htype, htypes⟩, hs'⟩

/-! ### Schemas -/

theorem names_flattenTypes {seen : Std.HashSet String} {decls : List (String × List (String × PropDecl))}
    {types : FlatTypes} (h : flattenTypes seen decls = .ok types) : (types.map (·.1)).Nodup := by
  obtain ⟨hnodup, -, hall⟩ := flattenTypes_eq_ok.1 h
  have hnames : decls.map (·.1) = types.map (·.1) := by
    rw [← List.forall₂_eq_eq_eq, List.forall₂_map_left_iff, List.forall₂_map_right_iff]
    exact hall.imp fun _ _ h => h.1
  exact hnames ▸ hnodup

/-- Sorting puts types with different names in the strict order of their names. -/
theorem sortTypes_sorted {types : FlatTypes} (h : (types.map (·.1)).Nodup) :
    (sortTypes types).Pairwise fun x y => x.1 < y.1 := by
  have hle : (sortTypes types).Pairwise fun x y => x.1 ≤ y.1 := by
    refine (List.pairwise_mergeSort (fun a b c hab hbc => ?_) (fun a b => ?_) types).imp fun {a b} hab => ?_
    · simp only [decide_eq_true_eq] at *
      exact Std.le_trans hab hbc
    · simpa using Std.le_total (a := a.1) (b := b.1)
    · simpa using hab
  have hne : (sortTypes types).Pairwise fun x y => x.1 ≠ y.1 := by
    rw [← List.pairwise_map (f := fun x : String × List FlatProp => x.1) (R := fun a b => a ≠ b)]
    exact ((List.mergeSort_perm types _).map _).nodup_iff.2 h
  refine (hle.and hne).imp fun {a b} hab => ?_
  exact Std.lt_of_le_of_ne hab.1 hab.2

end Schema

/-- Every schema that compiles is well formed. -/
theorem compile_wellFormed {decl : SchemaDecl} {priority : Priority} {schema : SchemaLayout}
    (h : decl.compile priority = .ok schema) : schema.WellFormed := by
  obtain ⟨locales, flat, resolved, types, cache, -, hlen, hflat, hresolved, htypes, rfl⟩ := SchemaDecl.compile_eq_ok.1 h
  have hplain := Schema.resolveInverses_plain
    (fun x hx => Schema.flattenTypes_plain hflat x (List.mem_mergeSort.1 hx)) hresolved
  obtain ⟨hcompiled, hnames, hids, -⟩ := Schema.typeLayouts_spec (fun _ h => absurd h List.not_mem_nil) htypes
  obtain ⟨hwell, hcache⟩ := Schema.typeLayouts_wellFormed hplain (fun _ h => absurd h List.not_mem_nil) htypes
  have hsorted := Schema.names_resolveInverses hresolved
  have hcount : resolved.length = types.length := by simpa using (congrArg List.length hnames).symm
  have hmax : resolved.length ≤ Limits.maxTypes := by
    have h1 := congrArg List.length hsorted
    have h2 := Schema.length_flattenTypes hflat
    rw [List.length_map, List.length_map, Schema.sortTypes, List.length_mergeSort] at h1
    omega
  refine ⟨?_, ?_, hwell, fun t ht p hp e he => ?_⟩
  · -- The number of types is so small that no id wraps around.
    have hnat : ∀ n ∈ List.range' 1 resolved.length, (UInt16.ofNat n).toNat = n := fun n hn => by
      have hlimit : Limits.maxTypes = 65534 := rfl
      rw [List.mem_range'_1] at hn
      rw [UInt16.toNat_ofNat']
      omega
    calc types.map (·.id.toNat) = (types.map (·.id)).map (·.toNat) := by rw [List.map_map]; rfl
      _ = (List.range' 1 resolved.length).map fun n => (UInt16.ofNat n).toNat := by rw [hids, List.map_map]; rfl
      _ = List.range' 1 resolved.length := (List.map_congr_left hnat).trans (List.map_id _)
      _ = List.range' 1 types.length := by rw [hcount]
  · rw [← List.pairwise_map (f := fun t : TypeLayout => t.name) (R := fun a b => a < b), hnames, hsorted, List.pairwise_map]
    exact Schema.sortTypes_sorted (Schema.names_flattenTypes hflat)
  · obtain ⟨x, hx, rfl⟩ := Option.map_eq_some_iff.1 ((hcompiled t ht).edges p hp e he)
    exact hcache x (List.mem_of_find?_eq_some hx)

namespace People

open Schema

def edges : List (String × PropDecl) := [("since", .leaf .uint16 {} [])]

/-- People with an address and an age, and since when they are friends. -/
def decl : SchemaDecl where
  locales := []
  types := [("person", [
    ("friends", .leaf .references { reference := some "person", inverse := some "friends" } edges),
    ("home", .object [("number", .leaf .uint16 {} []), ("street", .leaf .string {} [])]),
    ("age", .leaf .uint8 { default := some (.int 18) } [])])]

def flatFriends : FlatProp := ⟨["friends"], .references, { reference := some "person", inverse := some "friends" }, edges⟩

def flatNumber : FlatProp := ⟨["home", "number"], .uint16, {}, []⟩

def flatStreet : FlatProp := ⟨["home", "street"], .string, {}, []⟩

def flatAge : FlatProp := ⟨["age"], .uint8, { default := some (.int 18) }, []⟩

def flat : FlatTypes := [("person", [flatFriends, flatNumber, flatStreet, flatAge])]

def context : Context := ⟨["person"], [], fun _ => PropDef.defaultPriority⟩

def since : PropDef Empty := unplaced context ⟨["since"], .uint16, {}, []⟩ 2 true none none

/-- What a friendship stores. -/
def friendship : EdgeLayout where
  name := "person.friends"
  id := 0
  mainLen := 2
  props := [{ since with location := .main 0 }]
  tree := [("since", .leaf 0)]
  mainDefaults := [0, 0]

def target : RefTarget := ⟨"person", 1, some "friends"⟩

def cache : EdgeCache := [((("person", "friends"), ("person", "friends")), friendship)]

def friends : PropDef EdgeLayout := unplaced context flatFriends 0 false (some target) (some friendship)

def number : PropDef EdgeLayout := unplaced context flatNumber 2 true none none

def street : PropDef EdgeLayout := unplaced context flatStreet 0 false none none

def age : PropDef EdgeLayout := unplaced context flatAge 1 true none none

def person : TypeLayout where
  name := "person"
  id := 1
  mainLen := 3
  props := [{ number with location := .main 0 }, { age with location := .main 2 },
    { friends with location := .separate 1 }, { street with location := .separate 2 }]
  tree := pathTree 0 [] [number, age, friends, street]
  mainDefaults := [0, 0, 18]

def layout : SchemaLayout := ⟨[person], [], Sha256.digest (describeSchema [person] [])⟩

theorem layoutOf_since : layoutOf context.priority "person.friends" 0 [since] = .ok friendship := by
  have hmain : mainOf [since] = [since] := List.mergeSort_singleton _
  have hseparate : separateOf context.priority [since] = [] := List.mergeSort_nil
  refine layoutOf_eq_ok.2 ?_
  rw [placeAll, hmain, hseparate]
  exact ⟨by decide, by decide, [[0, 0]], rfl, rfl⟩

theorem layoutOf_person : layoutOf context.priority "person" 1 [friends, number, street, age] = .ok person := by
  have hmain : mainOf [friends, number, street, age] = [number, age] := List.mergeSort_of_pairwise (by decide +kernel)
  have hseparate : separateOf context.priority [friends, number, street, age] = [friends, street] :=
    List.mergeSort_of_pairwise (by decide +kernel)
  refine layoutOf_eq_ok.2 ?_
  rw [placeAll, hmain, hseparate]
  exact ⟨by decide, by decide, [[0, 0], [18]], rfl, rfl⟩

theorem edgeLayout_friends : edgeLayout context "person" "friends" (some target) edges [] = .ok (friendship, cache) :=
  edgeLayout_eq_ok.2 (.inr ⟨rfl, ⟨_, [since], rfl, rfl, .cons rfl .nil, layoutOf_since⟩, rfl⟩)

theorem compileProp_friends : compileProp context true (edgeLayout context) "person" flatFriends [] = .ok (friends, cache) :=
  compileProp_eq_ok.2 ⟨(0, false), some target, some friendship, rfl, rfl, rfl,
    compileEdges_eq_ok.2 (.inr ⟨rfl, friendship, rfl, edgeLayout_friends⟩), rfl, rfl⟩

theorem typeLayouts_flat : typeLayouts context 1 flat [] = .ok ([person], cache) := by
  have hdefs : [flatFriends, flatNumber, flatStreet, flatAge].mapM (compileProp context true (edgeLayout context) "person") [] =
      .ok ([friends, number, street, age], cache) :=
    mapM_cons_eq_ok.2 ⟨friends, cache, [number, street, age], compileProp_friends, rfl, rfl⟩
  exact typeLayouts_cons_eq_ok.2 ⟨person, cache, [], typeLayout_eq_ok.2 ⟨rfl, _, hdefs, layoutOf_person⟩, rfl, rfl⟩

theorem flattenTypes_decl : flattenTypes ∅ decl.types = .ok flat := by
  rw [decl, flattenTypes, if_neg (by simp)]
  rfl

theorem sortTypes_flat : sortTypes flat = flat := List.mergeSort_singleton _

theorem compile_decl : decl.compile = .ok layout := by
  have hlocales : compileLocales decl.locales = .ok [] := by
    simp [compileLocales, decl, dropRepeated]
    rfl
  have hresolved : resolveInverses (sortTypes flat) = .ok flat := by
    rw [sortTypes_flat]
    rfl
  exact SchemaDecl.compile_eq_ok.2
    ⟨_, _, _, _, _, hlocales, by decide, flattenTypes_decl, hresolved, typeLayouts_flat, rfl⟩

end People

open People in
theorem compile_wellFormed_people : decl.compile = .ok layout ∧ layout.WellFormed :=
  ⟨compile_decl, compile_wellFormed compile_decl⟩

end NodeStore
