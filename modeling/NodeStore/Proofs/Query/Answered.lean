import NodeStore.Proofs.Codec.MainBlock
import NodeStore.Proofs.Engine.Descriptors
import NodeStore.Proofs.Query.Included

/-!
# Included fields are answered

On a store of the schema the engine answers every descriptor of included fields: it writes a record of every node of the
scope, without a fault.

* `Layout.Narrow`, `Scope.Sound`: scopes of the schema whose main properties can be counted in an item.
* `propsAt_sublist`: the included properties stand in the order of the layout.
* `filterBytes_passes`: a filter block on the nodes of the scope.
* `Includes.items_answered`: what the record of a node is made of.
-/

namespace NodeStore

/-- The main properties can be counted in two bytes. -/
def Layout.Narrow {E : Type} (t : Layout E) : Prop := (t.props.filter (·.isMain)).length < 2 ^ 16

theorem Layout.Packed.narrow {E : Type} {t : Layout E} (hk : t.Packed) (ht : t.Placed) : t.Narrow := by
  have hmain : ∀ p ∈ t.props.filter (·.isMain), p.isMain = true := fun p hp => (List.mem_filter.1 hp).2
  have hsum := hk.sum_len_le ht List.filter_sublist hmain
  have hcount := List.length_le_sum_of_one_le ((t.props.filter (·.isMain)).map (·.len)) fun k hk => by
    obtain ⟨p, hp, rfl⟩ := List.mem_map.1 hk
    exact (ht.measured p (List.mem_of_mem_filter hp)).len_pos (hmain p hp)
  have hroom := ht.room
  have hmax : Limits.maxMainLength = 65535 := rfl
  rw [List.length_map] at hcount
  unfold Narrow
  omega

theorem EdgeLayout.narrow_asType {t : EdgeLayout} (h : t.Narrow) : t.asType.Narrow := by
  unfold Layout.Narrow EdgeLayout.asType
  rw [List.filter_map, List.length_map]
  exact h

/-- Every layout of the schema is narrow. -/
def SchemaLayout.Narrow (schema : SchemaLayout) : Prop :=
  ∀ t ∈ schema.types, t.Narrow ∧ ∀ p ∈ t.props, ∀ e, p.edges = some e → e.Narrow

theorem compile_narrow {decl : SchemaDecl} {priority : Priority} {schema : SchemaLayout}
    (h : decl.compile priority = .ok schema) : schema.Narrow := fun t ht =>
  ⟨(compile_packed h t ht).narrow ((compile_placed h).types t ht), fun _ hp _ he =>
    (compile_edges_packed h ht hp he).narrow ((compile_placed h).edges t ht _ hp _ he)⟩

namespace Query

open Engine
open Result (Instr)

variable {schema : SchemaLayout} {store : Store} {s target : Scope} {x y : Subject} {slot : UInt8}
  {p : PropDef EdgeLayout}

/-! ## Scopes -/

/-- The scope belongs to the schema, and its layouts are narrow. -/
structure Scope.Sound (schema : SchemaLayout) (s : Scope) : Prop extends s.Valid schema where
  narrow : s.layout.Narrow
  narrowInner : ∀ p ∈ s.layout.props, ∀ e, p.edges = some e → e.Narrow
  narrowEdges : ∀ e, s.edges = some e → e.Narrow

theorem sound_ofType (hp : schema.Placed) (hn : schema.Narrow) {t : TypeLayout} (ht : t ∈ schema.types) :
    (Scope.ofType schema t).Sound schema where
  toValid := valid_ofType hp ht
  narrow := (hn t ht).1
  narrowInner := (hn t ht).2
  narrowEdges _ h := by cases h

theorem Scope.Sound.ofEdges (h : s.Sound schema) {t : EdgeLayout} (ht : s.edges = some t) : (s.ofEdges t).Sound schema where
  toValid := h.toValid.ofEdges ht
  narrow := EdgeLayout.narrow_asType (h.narrowEdges t ht)
  narrowInner p hp e he := by
    obtain ⟨q, -, rfl⟩ := List.mem_map.1 hp
    cases he
  narrowEdges _ h := by cases h

theorem Scope.Sound.through (hp : schema.Placed) (hn : schema.Narrow) (h : s.Sound schema) (hr : s.Refers p slot target) :
    target.Sound schema := by
  obtain ⟨ht, hschema, hedges, -⟩ := through_spec hp h.schema hr.target
  exact ⟨h.toValid.through hp hr, (hn _ ht).1, (hn _ ht).2, fun e he => h.narrowInner p hr.mem e (hedges ▸ he)⟩

namespace Includes

/-! ## Included properties -/

/-- The entries at increasing indexes stand in the order of the list. -/
theorem filterMap_getElem?_sublist {α : Type} {indexes : List Nat} (h : indexes.Pairwise (· < ·)) (l : List α) :
    (indexes.filterMap (l[·]?)).Sublist l := by
  suffices hgo : ∀ k, (∀ i ∈ indexes, k ≤ i) → (indexes.filterMap (l[·]?)).Sublist (l.drop k) from
    hgo 0 fun _ _ => Nat.zero_le _
  induction indexes with
  | nil => exact fun _ _ => List.nil_sublist _
  | cons i is ih =>
    obtain ⟨hi, his⟩ := List.pairwise_cons.1 h
    intro k hk
    have hrest := ih his (i + 1) hi
    have hdrop : ∀ j, k ≤ j → (l.drop j).Sublist (l.drop k) := fun j hj => List.drop_sublist_drop_left _ hj
    have hki := hk i List.mem_cons_self
    cases hget : l[i]? with
    | none =>
      rw [List.filterMap_cons_none hget]
      exact hrest.trans (hdrop _ (Nat.le_succ_of_le hki))
    | some a =>
      obtain ⟨hlt, ha⟩ := List.getElem?_eq_some_iff.1 hget
      rw [List.filterMap_cons_some hget]
      refine List.Sublist.trans ?_ (hdrop i hki)
      rw [List.drop_eq_getElem_cons hlt, ha]
      exact hrest.cons_cons a

theorem propsAt_sublist {indexes : List Nat} (h : indexes.Pairwise (· < ·)) : (propsAt s indexes).Sublist s.layout.props :=
  filterMap_getElem?_sublist h _

/-- The sizes of collections. -/
def sizeInstrs (n : StoredNode) (ps : List (PropDef EdgeLayout)) : List Instr :=
  ps.map fun p => .count (p.slot?.getD 0) AggregateKind.count.code (n.links (p.slot?.getD 0)).length

/-- The instruction holds records of other nodes, or what a link stores. -/
def Leads : Instr → Prop
  | .link .. | .links .. | .edge _ => True
  | _ => False

theorem leads_linkInstrs {one : Bool} {slot : UInt8} {records : List Bytes} {i : Instr} (h : i ∈ linkInstrs one slot records) :
    Leads i := by
  cases one with
  | true =>
    obtain ⟨record, -, rfl⟩ := List.mem_map.1 h
    trivial
  | false =>
    obtain rfl := List.mem_singleton.1 h
    trivial

/-! ## Records -/

/-- The instructions of the main block are the answer to its item. -/
theorem mainItem_answered (schema : SchemaLayout) (store : Store) (hs : s.Sound schema) (hx : s.Admits x) {t : Includes}
    (ht : Over s t) :
    ∃ answers, List.Forall₂ (Answers schema store x) (mainItem (mainPlan s t)) answers ∧
      answers.flatten = mainInstrs x.node.main (mainPlan s t) := by
  have hmain : ∀ ps, ps = (propsAt s t.chosen).filter (·.isMain) → ps ≠ [] →
      Answers schema store x (.main (ps.map fun p => (p.offset?.getD 0, p.len))) [.main (ps.flatMap (·.slice x.node.main))] := by
    intro ps hps hne
    have hsub : ps.Sublist (s.layout.props.filter (·.isMain)) := hps ▸ (propsAt_sublist (over_iff.1 ht).1).filter _
    have hroom := hs.placed.room
    have hmax : Limits.maxMainLength = 65535 := rfl
    have hfit : PartsFit x.node.main (ps.map fun p => (p.offset?.getD 0, p.len)) := by
      intro part hpart
      obtain ⟨p, hp, rfl⟩ := List.mem_map.1 hpart
      obtain ⟨hp, hpmain⟩ := List.mem_filter.1 (hsub.subset hp)
      obtain ⟨a, ha⟩ := PropDef.offset?_of_isMain hpmain
      have hin := hs.placed.inside p hp a ha
      rw [ha, Option.getD_some, hx.node.main]
      dsimp only
      omega
    have hcount : (ps.map fun p => (p.offset?.getD 0, p.len)).length < 2 ^ 16 := by
      rw [List.length_map]
      exact Nat.lt_of_le_of_lt hsub.length_le hs.narrow
    rw [← takeParts_slices]
    exact answers_main hfit (by simpa using hne) hcount
  unfold mainPlan
  split
  · exact ⟨[_], .cons answers_main_all .nil, rfl⟩
  · split
    · exact ⟨[], .nil, rfl⟩
    · rename_i hne
      exact ⟨[_], .cons (hmain _ rfl hne) .nil, rfl⟩

theorem mem_fields {t : Includes} (ht : Over s t) : ∀ p ∈ fields s t, p ∈ s.layout.props ∧ p.isMain = false := fun p hp => by
  obtain ⟨hp, hsep⟩ := List.mem_filter.1 hp
  exact ⟨(propsAt_sublist (over_iff.1 ht).1).subset hp, by simpa using hsep⟩

theorem fields_answered (schema : SchemaLayout) (store : Store) (hs : s.Sound schema) (hx : s.Admits x)
    {ps : List (PropDef EdgeLayout)} (hps : ∀ p ∈ ps, p ∈ s.layout.props ∧ p.isMain = false) (locale : UInt8) :
    List.Forall₂ (Answers schema store x) (ps.map fun p => IncludeItem.field (p.slot?.getD 0) p.type.tag locale)
      (ps.map (localeInstrs schema locale x.node)) := by
  refine List.forall₂_map_left_iff.2 (List.forall₂_map_right_iff.2 (List.forall₂_same.2 fun p hp => ?_))
  exact answers_field (hx.layout ▸ hs.placed) (hx.layout ▸ (hps p hp).1) (hps p hp).2 _ _

theorem sizes_answered (schema : SchemaLayout) (store : Store) (x : Subject) (ps : List (PropDef EdgeLayout)) :
    ∃ answers, List.Forall₂ (Answers schema store x) (ps.map fun p => IncludeItem.count (p.slot?.getD 0)) answers ∧
      answers.flatten = sizeInstrs x.node ps := by
  refine ⟨ps.map fun p => [.count (p.slot?.getD 0) AggregateKind.count.code (x.node.links (p.slot?.getD 0)).length], ?_, ?_⟩
  · exact List.forall₂_map_left_iff.2 (List.forall₂_map_right_iff.2 (List.forall₂_same.2 fun p _ => answers_count _))
  · rw [← List.flatMap_def, sizeInstrs, List.map_eq_flatMap]

/-- A filter block is evaluated on every node of the scope. -/
theorem filterBytes_passes (hp : schema.Placed) (hst : store.Fits schema) (hs : s.Sound schema) {locale : UInt8}
    {f : Option Filter} {block : Bytes} (h : filterBytes s locale f = .ok block) (hsize : block.length < 2 ^ 32)
    (hx : s.Admits x) : ∃ b, x.passes schema store block = .ok b ∧
      (b = true ↔ ∀ f' ∈ f, f'.Holds store locale s x) := by
  cases f with
  | none =>
    cases h
    exact ⟨true, passes_nil store x, by simp⟩
  | some f =>
    obtain ⟨clauses, hclauses, h⟩ := Except.bind_eq_ok.1 h
    cases h
    have hsettles := group_settles hp hst hs.toValid f hclauses (Clause.eachOf_of_length clauses 0 hsize)
    obtain ⟨b, hb, hiff⟩ := hsettles.decides x hx
    exact ⟨b, (passes_encodeBlock hsettles.wellFormed hsize x).trans hb, by simpa using hiff⟩

section

variable {locale : UInt8}

mutual

/-- The record of a node holds its main properties, the payloads of its separate fields, what its links lead to, and the
sizes of its collections. -/
theorem items_answered (hp : schema.Placed) (hn : schema.Narrow) (hst : store.Fits schema) :
    ∀ (t : Includes) {s : Scope}, s.Sound schema → Over s t → ∀ {is : List IncludeItem}, items s locale t = .ok is →
      (IncludeItem.encodeAll is).length < 2 ^ 32 → ∀ {x : Subject}, s.Admits x →
        ∃ linked answers, (∀ i ∈ linked, Leads i) ∧ (t.links = [] → s.edges = none → linked = []) ∧
          List.Forall₂ (Answers schema store x) is answers ∧
          answers.flatten = mainInstrs x.node.main (mainPlan s t) ++ (fields s t).flatMap (localeInstrs schema locale x.node) ++
            linked ++ sizeInstrs x.node (propsAt s t.counts)
  | ⟨chosen, links, edges, counts⟩, s, hs, ht, is, h, hsize, x, hx => by
    unfold items at h
    obtain ⟨linked, hlinked, h⟩ := Except.bind_eq_ok.1 h
    obtain ⟨onLink, honLink, h⟩ := Except.bind_eq_ok.1 h
    cases h
    simp only [encodeItems_append, List.length_append] at hsize
    obtain ⟨mains, hmain, hmains⟩ := mainItem_answered schema store hs hx ht
    have hfields := fields_answered schema store hs hx (mem_fields ht) locale
    obtain ⟨sizes, hsizes, hcounts⟩ := sizes_answered schema store x (propsAt s counts)
    obtain ⟨links', hleads, hlinks⟩ := linkItems_answered hp hn hst links hs ht.2.1 hlinked (by omega) hx
    obtain ⟨edges', hleads', hedges⟩ := edgeItems_answered hp hn hst edges hs ht.2.2 honLink (by omega) hx
    have hnone : links = [] → s.edges = none → links'.flatten ++ edges'.flatten = [] := by
      rintro rfl hedge
      have hempty : onLink = [] := by
        cases edges with
        | none => exact (Except.ok.inj honLink).symm
        | some t =>
          simp only [edgeItems, hedge] at honLink
          exact (Except.ok.inj honLink).symm
      cases hlinked
      subst hempty
      cases hlinks
      cases hedges
      rfl
    refine ⟨links'.flatten ++ edges'.flatten, _, fun i hi => (List.mem_append.1 hi).elim (hleads i) (hleads' i), hnone,
      List.rel_append (List.rel_append (List.rel_append (List.rel_append hmain hfields) hlinks) hedges) hsizes, ?_⟩
    simp only [List.flatten_append, hmains, hcounts, List.flatMap_def, List.append_assoc]

theorem linkItems_answered (hp : schema.Placed) (hn : schema.Narrow) (hst : store.Fits schema) :
    ∀ (links : List (Nat × IncludedLink Includes)) {s : Scope}, s.Sound schema → LinksOver s links →
      ∀ {is : List IncludeItem}, linkItems locale links = .ok is → (IncludeItem.encodeAll is).length < 2 ^ 32 →
        ∀ {x : Subject}, s.Admits x →
          ∃ answers, (∀ i ∈ answers.flatten, Leads i) ∧ List.Forall₂ (Answers schema store x) is answers
  | [], _, _, _, _, h, _, _, _ => by
    cases h
    exact ⟨[], nofun, .nil⟩
  | (_, ⟨p, target, sub, body⟩) :: rest, s, hs, ⟨⟨hmem, hr, htarget, hbody⟩, hrest⟩, is, h, hsize, x, hx => by
    obtain ⟨sort, hsort, h⟩ := Except.bind_eq_ok.1 h
    obtain ⟨filter, hfilter, h⟩ := Except.bind_eq_ok.1 h
    obtain ⟨inner, hinner, h⟩ := Except.bind_eq_ok.1 h
    obtain ⟨others, hothers, h⟩ := Except.bind_eq_ok.1 h
    cases h
    rw [IncludeItem.encodeAll, IncludeItem.encode] at hsize
    simp only [List.length_append, List.length_cons, Wire.length_sized] at hsize
    obtain ⟨slot, hslot⟩ := (hs.placed.measured p hmem).slot_of_reference hr
    have hrefers : s.Refers p slot target := ⟨hmem, hslot, htarget⟩
    have hinside := hs.through hp hn hrefers
    obtain ⟨answers, hleads, hanswers⟩ := linkItems_answered hp hn hst rest hs hrest hothers (by omega) hx
    have hpasses : ∀ y ∈ linkedTo store target x slot, ∃ b, y.passes schema store filter = .ok b := fun y hy => by
      obtain ⟨b, hb, -⟩ := filterBytes_passes hp hst hinside hfilter (by omega) (hx.through hp hst hs.toValid hrefers hy)
      exact ⟨b, hb⟩
    have hrecords : ∀ y ∈ linkedTo store target x slot,
        ∃ bs, recordBody schema store (IncludeItem.encodeAll inner) y = .ok bs := fun y hy => by
      obtain ⟨linked, parts, -, -, hparts, -⟩ := items_answered hp hn hst body hinside hbody hinner (by omega)
        (hx.through hp hst hs.toValid hrefers hy)
      exact ⟨_, recordBody_answers hparts⟩
    obtain ⟨records, hlink⟩ := answers_link (decide (p.type = .reference)) slot target.layout.id
      ((sub.bind (·.range)).getD .whole) (sortSpec?_fits hinside.placed hsort) (by omega) (by omega)
      (linkedSubjects_eq hp hs.toValid hx hrefers) hpasses hrecords
    refine ⟨linkInstrs (p.type = .reference) slot records :: answers, ?_, .cons ?_ hanswers⟩
    · intro i hi
      rcases List.mem_append.1 hi with hi | hi
      · exact leads_linkInstrs hi
      · exact hleads i hi
    · rw [hslot]
      exact hlink

theorem edgeItems_answered (hp : schema.Placed) (hn : schema.Narrow) (hst : store.Fits schema) :
    ∀ (edges : Option Includes) {s : Scope}, s.Sound schema → EdgesOver s edges →
      ∀ {is : List IncludeItem}, edgeItems s locale edges = .ok is → (IncludeItem.encodeAll is).length < 2 ^ 32 →
        ∀ {x : Subject}, s.Admits x →
          ∃ answers, (∀ i ∈ answers.flatten, Leads i) ∧ List.Forall₂ (Answers schema store x) is answers
  | none, _, _, _, _, h, _, _, _ => by
    cases h
    exact ⟨[], nofun, .nil⟩
  | some t, s, hs, ht, is, h, hsize, x, hx => by
    cases hedges : s.edges with
    | none =>
      simp only [edgeItems, hedges] at h
      cases h
      exact ⟨[], nofun, .nil⟩
    | some edges =>
      simp only [edgeItems, hedges] at h
      obtain ⟨inner, hinner, h⟩ := Except.bind_eq_ok.1 h
      cases h
      rw [IncludeItem.encodeAll, IncludeItem.encode] at hsize
      simp only [List.length_append, List.length_cons, Wire.length_sized] at hsize
      have hrecord : ∀ t' n, x.edge = some (t', n) →
          ∃ bs, recordBody schema store (IncludeItem.encodeAll inner) (.ofEdge t' n) = .ok bs := fun t' n hx' => by
        obtain rfl : edges = t' := Option.some.inj (hedges.symm.trans (hx.link t' n hx').1)
        obtain ⟨linked, parts, -, -, hparts, -⟩ := items_answered hp hn hst t (hs.ofEdges hedges) (ht edges hedges) hinner
          (by omega) (hx.ofEdge hx')
        exact ⟨_, recordBody_answers hparts⟩
      obtain ⟨blocks, hblocks, hedge⟩ := answers_edge (by omega) hrecord
      refine ⟨[blocks], fun i hi => ?_, .cons hedge .nil⟩
      obtain ⟨block, rfl⟩ := hblocks i (by simpa using hi)
      trivial

end

end

end Includes

end Query

end NodeStore
