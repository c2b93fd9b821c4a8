import NodeStore.Proofs.Query.Filters
import NodeStore.Proofs.Query.Groups
import NodeStore.Proofs.Record.Paths
import NodeStore.Proofs.Schema.FreeNames
import NodeStore.Result.Record

/-!
# What the name of a property leads to

Filters, orders and includes give the id, the links and the star a meaning of their own before they look at the properties, and
a record holds its id next to their values. A name that is none of these leads to its property everywhere.

* `Scope.Within`: the scopes whose names belong to a schema.
* `Scope.resolve_name`, `Includes.add_name`: the name of a property leads to it.
* `Scope.Addresses`: a property is reached by its name in filters, orders, includes and records.
* `compile_addressable`: so is every property of a schema that compiles, as long as no inverse can be added under a reserved name.
-/

namespace NodeStore

open Query

variable {schema : SchemaLayout} {s : Scope} {p : PropDef EdgeLayout}

/-- What links store is addressed in the place of a type as it was. -/
theorem Layout.Addressed.asType {e : EdgeLayout} (h : e.Addressed) : e.asType.Addressed where
  name q hq := by
    obtain ⟨p, hp, rfl⟩ := List.mem_map.1 hq
    exact h.name p hp
  apart := List.pairwise_map.2 h.apart
  leaf i q hq := by
    rw [EdgeLayout.asType, List.getElem?_map] at hq
    obtain ⟨p, hp, rfl⟩ := Option.map_eq_some_iff.1 hq
    exact h.leaf i p hp
  only ks i hi := by
    obtain ⟨p, hp, hpath⟩ := h.only ks i hi
    exact ⟨p.widen, by rw [EdgeLayout.asType, List.getElem?_map, hp]; rfl, hpath⟩
  ordered := h.ordered
  unreserved q hq := by
    obtain ⟨p, hp, rfl⟩ := List.mem_map.1 hq
    exact h.unreserved p hp

/-- The whole path of a property names it. -/
theorem Layout.Addressed.longestProp?_path {E : Type} {t : Layout E} {p : PropDef E} (h : t.Addressed) (hp : p ∈ t.props) :
    t.longestProp? p.path = some (p, p.path.length) := by
  obtain ⟨n, hn⟩ := Nat.exists_eq_succ_of_ne_zero fun h' => h.path_ne_nil hp (List.eq_nil_of_length_eq_zero h')
  have hname : Path.join (p.path.take (n + 1)) = p.name := by
    rw [List.take_of_length_le (Nat.le_of_eq hn), ← h.name p hp, Path.join_split]
  rw [Layout.longestProp?, hn, Layout.longestPropWithin, hname, h.prop?_name hp]

namespace Query

theorem edgeName?_eq_none {segment : String} (h : segment.toList.head? ≠ some '$') : edgeName? segment = none := by
  unfold edgeName?
  split
  · rename_i heq
    rw [heq] at h
    exact absurd rfl h
  · rfl

/-- The names of a scope belong to a type of the schema, or to what the links of a relation store. -/
structure Scope.Within (schema : SchemaLayout) (s : Scope) : Prop where
  layout : s.layout ∈ schema.types ∨ ∃ t ∈ schema.types, ∃ p ∈ t.props, ∃ e, p.edges = some e ∧ s.layout = e.asType
  schema : s.schema = schema

/-- The name of a property leads to it, as long as it is a free one. -/
theorem Scope.resolve_name (ha : s.layout.Addressed) (hp : p ∈ s.layout.props) (hfree : Path.Free p.path) :
    s.resolve (Path.split p.name) = .field (.prop p) := by
  have hlongest := ha.longestProp?_path hp
  rw [ha.name p hp]
  cases hpath : p.path with
  | nil => exact absurd hpath (ha.path_ne_nil hp)
  | cons first more =>
    rw [hpath] at hfree hlongest
    obtain ⟨-, hid, hsign⟩ := hfree first List.mem_cons_self
    rw [Scope.resolve]
    simp only [edgeName?_eq_none hsign, hid, false_and, if_false, hlongest, List.length_cons, if_true]

/-- Including the name of a property includes the property: a value is chosen, a reference is followed. -/
theorem Includes.add_name (ha : s.layout.Addressed) {i : Nat} (hi : s.layout.props[i]? = some p) (hfree : Path.Free p.path)
    (hstar : p.name ≠ "*") (sub : Option SubQuery) (inc : Includes) :
    inc.add s (Path.split p.name) sub =
      if p.type.isReference then do
        let l ← inc.link s i p
        sub.elim (.ok (inc.setLink i l)) fun q => do
          let body ← Includes.addAll l.scope q.includes l.body
          return inc.setLink i { l with body, sub := some q }
      else .ok (inc.choose s i) := by
  have hp := List.mem_of_getElem? hi
  have hlongest := ha.longestProp?_path hp
  rw [ha.name p hp]
  cases hpath : p.path with
  | nil => exact absurd hpath (ha.path_ne_nil hp)
  | cons first more =>
    have hstar : ¬(first = "*" ∧ more.isEmpty = true) := fun h => hstar (by
      rw [← Path.join_split p.name, ha.name p hp, hpath, h.1, List.isEmpty_iff.1 h.2]
      rfl)
    rw [hpath] at hfree hlongest
    obtain ⟨-, hid, hsign⟩ := hfree first List.mem_cons_self
    rw [Includes.add.eq_def]
    simp only [if_neg hstar, edgeName?_eq_none hsign, hid, false_and, if_false]
    split
    · rename_i hnone
      cases hlongest.symm.trans hnone
    · rename_i q n hsome
      cases hlongest.symm.trans hsome
      simp only [ha.propIndex?_name hi, List.length_cons, Nat.lt_irrefl, if_false]
      cases sub <;> rfl

/-- An order by the name of a property is one by that property. -/
theorem SortBy.spec_name {t : TypeLayout} (ha : t.Addressed) (hp : p ∈ t.props) (hfree : Path.Free p.path) (descending : Bool)
    (locale : UInt8) : SortBy.spec ⟨p.name, descending⟩ t locale =
      if unordered p.type then .error (.unsupported p.name "sort" p.type)
      else .ok ⟨descending, p.slot?.getD Limits.mainSlot, p.type, p.offset?.getD 0, if p.isMain then p.len else 0,
        if p.type = .text then locale else 0⟩ := by
  have hid : p.name ≠ "id" := fun hid => by
    have hpath : p.path = ["id"] := by rw [← ha.name p hp, hid]; rfl
    exact (hfree "id" (hpath ▸ List.mem_singleton_self _)).2.1 rfl
  unfold SortBy.spec
  rw [if_neg fun h => hid h.1, ha.prop?_name hp]

end Query

namespace Result

/-- The id of a record does not cover what stands under a free name, be it a property of the node or one of its link. -/
theorem decodeNode_lookup {decode : Decoder} {f : NodeId × Bytes} {r : Record} (h : decodeNode decode f = .ok r)
    {first : String} {more : List String} (hfree : Path.Free (first :: more)) :
    ∃ fields, decode f.2 = .ok fields ∧ r.lookup (first :: more) = fields.lookup (first :: more) ∧
      r.lookup (edgeKey first :: more) = fields.lookup (edgeKey first :: more) := by
  obtain ⟨fields, hfields, h⟩ := Except.bind_eq_ok.1 h
  cases h
  refine ⟨fields, hfields, Record.lookup_insert_of_ne (fun hid => ?_) .., Record.lookup_insert_of_ne (fun hid => ?_) ..⟩
  · exact (hfree first List.mem_cons_self).2.1 (Option.some.inj hid)
  · have hchars := congrArg String.toList (Option.some.inj hid)
    rw [edgeKey, String.toList_append] at hchars
    cases hchars

end Result

/-- A property of a scope is reached by its name. -/
structure Query.Scope.Addresses (s : Scope) (p : PropDef EdgeLayout) : Prop where
  /-- A filter tests the property. -/
  filter : ∀ operator value g, Group.insert s (Path.split p.name) operator value g =
    g.addTest (.condition (.prop p) operator value)
  /-- A result is put in the order of the property, if its values have one. -/
  sort : ∀ descending locale, SortBy.spec ⟨p.name, descending⟩ s.layout locale =
    if unordered p.type then .error (.unsupported p.name "sort" p.type)
    else .ok ⟨descending, p.slot?.getD Limits.mainSlot, p.type, p.offset?.getD 0, if p.isMain then p.len else 0,
      if p.type = .text then locale else 0⟩
  /-- The place of the property is not the one that stands for the id. -/
  place : p.slot? ≠ some Limits.idSlot
  /-- A value is included, and nothing else. -/
  value : p.name ≠ "*" → p.type.isReference = false → ∀ i, s.layout.props[i]? = some p → ∀ sub inc,
    Includes.add s (Path.split p.name) sub inc = .ok { inc with chosen := KeySet.insert i inc.chosen }
  /-- A reference is followed; a query for its nodes is put to them. -/
  link : p.name ≠ "*" → p.type.isReference = true → ∀ i, s.layout.props[i]? = some p → ∀ inc, ∃ l, inc.link s i p = .ok l ∧
    Includes.add s (Path.split p.name) none inc = .ok (inc.setLink i l) ∧
    ∀ q, Includes.add s (Path.split p.name) (some q) inc = do
      let body ← Includes.addAll l.scope q.includes l.body
      return inc.setLink i { l with body, sub := some q }
  /-- A record holds the value of the property, whatever its id. -/
  record : ∀ decode f r, Result.decodeNode decode f = .ok r → ∃ fields, decode f.2 = .ok fields ∧
    r.lookup p.path = fields.lookup p.path ∧
    ∀ first more, p.path = first :: more → r.lookup (Result.edgeKey first :: more) = fields.lookup (Result.edgeKey first :: more)

/-- The layout of a scope of a schema that compiles, with what its references lead to. -/
theorem Query.Scope.Within.spec {decl : SchemaDecl} {priority : Priority} (h : decl.compile priority = .ok schema)
    (hfree : decl.FreeInverses) (hs : s.Within schema) :
    s.layout.Placed ∧ s.layout.Addressed ∧ ∀ p ∈ s.layout.props, Path.Free p.path ∧
      ∀ r, p.target = some r → ∃ u, schema.typeById? r.id = some u ∧ u.name = r.type := by
  have hplaced := compile_placed h
  rcases hs.layout with ht | ⟨t, ht, q, hq, e, he, heq⟩
  · exact ⟨hplaced.types _ ht, compile_addressed h _ ht,
      fun p hp => ⟨compile_free h hfree (.ofType ht) p hp, hplaced.targets _ ht p hp⟩⟩
  · rw [heq]
    refine ⟨asType_placed (hplaced.edges _ ht _ hq _ he), (compile_edges_addressed h ht hq he).asType, fun p hp => ?_⟩
    obtain ⟨d, hd, rfl⟩ := List.mem_map.1 hp
    exact ⟨compile_free h hfree (.ofLinks ht hq he) d hd, compile_edges_targets h ht hq he d hd⟩

/-- Every property of a schema that compiles has a free path and is reached by its name, on nodes and on what links store, as
long as no inverse can be added under a name with a meaning of its own. -/
theorem compile_addressable {decl : SchemaDecl} {priority : Priority} (h : decl.compile priority = .ok schema)
    (hfree : decl.FreeInverses) (hs : s.Within schema) (hp : p ∈ s.layout.props) : Path.Free p.path ∧ s.Addresses p := by
  obtain ⟨hplaced, haddressed, hall⟩ := hs.spec h hfree
  obtain ⟨hpath, htargets⟩ := hall p hp
  refine ⟨hpath, fun operator value g => ?_, SortBy.spec_name haddressed hp hpath, fun hslot => ?_,
    fun hstar hvalue i hi sub inc => ?_, fun hstar hr i hi inc => ?_, fun decode f r hr => ?_⟩
  · rw [Group.insert_eq, Scope.resolve_name haddressed hp hpath]
  · exact absurd (hplaced.slot_range p hp _ hslot).2 (by decide)
  · rw [Includes.add_name haddressed hi hpath hstar, hvalue, if_neg Bool.false_ne_true, Includes.choose, hi]
    simp only [hvalue, if_neg Bool.false_ne_true]
  · obtain ⟨l, hl⟩ : ∃ l, inc.link s i p = .ok l := by
      obtain ⟨r, hr⟩ := Option.isSome_iff_exists.1 ((hplaced.measured p hp).target.trans hr)
      obtain ⟨u, hu, -⟩ := htargets r hr
      have hthrough : s.through? p = some ⟨s.schema, u, p.edges⟩ := by
        rw [Scope.through?, hr, hs.schema]
        exact Option.bind_eq_some_iff.2 ⟨r, rfl, Option.bind_eq_some_iff.2 ⟨u, hu, rfl⟩⟩
      unfold Includes.link
      rw [hthrough]
      cases Assoc.find? i inc.links with
      | none => exact ⟨_, rfl⟩
      | some l => exact ⟨l, rfl⟩
    refine ⟨l, hl, ?_, fun q => ?_⟩ <;> rw [Includes.add_name haddressed hi hpath hstar, hr, if_pos rfl, hl] <;> rfl
  · cases hcons : p.path with
    | nil => exact absurd hcons (haddressed.path_ne_nil hp)
    | cons first more =>
      obtain ⟨fields, hfields, hlookup, hedge⟩ := Result.decodeNode_lookup hr (hcons ▸ hpath)
      refine ⟨fields, hfields, hlookup, fun first' more' heq => ?_⟩
      cases heq
      exact hedge

open People in
/-- The street of a person is reached by its name, and so is the year of a friendship. -/
theorem compile_addressable_people :
    decl.compile = .ok layout ∧ decl.FreeInverses ∧
      (Scope.ofType layout person).Addresses { street with location := .separate 2 } ∧
      Scope.Addresses ⟨layout, friendship.asType, none⟩ (PropDef.widen { since with location := .main 0 }) := by
  have hfree : decl.FreeInverses := by
    intro type props f l hmem hleaf hlink
    cases List.mem_singleton.1 hmem
    have hf : f ∈ [flatFriends, flatNumber, flatStreet, flatAge] := (@Schema.mem_flattenAll_nil "person" _ _ rfl f).2 hleaf
    simp only [List.mem_cons, List.not_mem_nil, or_false] at hf
    rcases hf with rfl | rfl | rfl | rfl
    · cases hlink
      change ∀ s ∈ Path.split "friends", _
      decide +kernel
    all_goals cases hlink
  have hperson : (Scope.ofType layout person).Within layout := ⟨.inl (List.mem_singleton.2 rfl), rfl⟩
  have hfriendship : Scope.Within layout ⟨layout, friendship.asType, none⟩ :=
    ⟨.inr ⟨person, List.mem_singleton.2 rfl, { friends with location := .separate 1 }, by simp [person], friendship, rfl, rfl⟩,
      rfl⟩
  refine ⟨compile_decl, hfree, (compile_addressable compile_decl hfree hperson ?_).2,
    (compile_addressable compile_decl hfree hfriendship (List.mem_singleton.2 rfl)).2⟩
  exact List.mem_of_getElem? (i := 3) rfl

end NodeStore
