import NodeStore.Proofs.Engine.MainBlocks
import NodeStore.Proofs.Query.Answered

/-!
# Results of scans

A scan for records that compiles is answered: the nodes of its type that its filter holds of, in its order, cut to its
range.

* `Scans`: what a scan for records is made of; `Scans.compile`: its bytes and its plan, for every range.
* `Matches`: the nodes that a query is about.
* `Scans.answered`: the answer of the engine, for every range.
-/

namespace NodeStore.Query

open Engine
open Result (Instr)

variable {schema : SchemaLayout} {q : Query} {t : TypeLayout}

/-! ## Compiled scans -/

/-- The query with another range. -/
def cut (q : Query) (range : Option Range) : Query := { q with body := { q.body with range } }

/-- A scan for records, with all that it is compiled to apart from its range. -/
structure Scans (schema : SchemaLayout) (q : Query) (t : TypeLayout) (requested : Option UInt8) (sort : Option SortSpec)
    (filter : Bytes) (included : Includes) (items : List IncludeItem) : Prop where
  target : q.target = .scan
  records : q.isAggregate = false
  front : Front schema q t requested sort filter
  includes : q.includes (.ofType schema t) = .ok included
  items : included.items (.ofType schema t) (requested.getD Locale.none) = .ok items

section

variable {requested : Option UInt8} {sort : Option SortSpec} {filter : Bytes} {included : Includes} {items : List IncludeItem}

theorem exists_scans {c : CompiledQuery} (htarget : q.target = .scan) (hrecords : q.isAggregate = false)
    (h : q.compile schema = .ok c) : ∃ t requested sort filter included items,
      Scans schema q t requested sort filter included items ∧
        c.bytes = scanBytes false t q.range sort filter (encodeIncludes items) [] := by
  obtain ⟨t, requested, sort, filter, included, items, hfront, hincluded, hitems, rfl⟩ := compile_records htarget hrecords h
  exact ⟨t, requested, sort, filter, included, items, ⟨htarget, hrecords, hfront, hincluded, hitems⟩, rfl⟩

/-- A scan compiles with every range. -/
theorem Scans.compile (h : Scans schema q t requested sort filter included items) (range : Option Range) :
    (q.cut range).compile schema = .ok ⟨schema,
      scanBytes false t (range.getD .whole) sort filter (encodeIncludes items) [],
      .records (included.plan (.ofType schema t) requested)⟩ := by
  have htype : schema.typeByName? (q.cut range).type = some t := h.front.type
  have hheader : (q.cut range).header t = .ok (opScan :: leBytes 2 t.id.toNat ++ (range.getD .whole).encode) := by
    have htarget : (q.cut range).target = .scan := h.target
    have hrecords : (q.cut range).isAggregate = false := h.records
    rw [header, htarget, hrecords]
    rfl
  unfold Query.compile
  simp only [htype]
  refine Except.bind_eq_ok.2 ⟨requested, h.front.locale, Except.bind_eq_ok.2 ⟨_, hheader,
    Except.bind_eq_ok.2 ⟨sort, h.front.sort, Except.bind_eq_ok.2 ⟨filter, h.front.filter, ?_⟩⟩⟩⟩
  rw [show (q.cut range).isAggregate = false from h.records, if_neg Bool.false_ne_true]
  exact Except.bind_eq_ok.2 ⟨included, h.includes, Except.bind_eq_ok.2 ⟨items, h.items, rfl⟩⟩

/-- The locale of a query. -/
theorem Front.localeId (h : Front schema q t requested sort filter) :
    Query.localeId schema q.locale = .ok (requested.getD Locale.none) := by
  have hlocale := h.locale
  cases hcode : q.locale with
  | none =>
    rw [hcode] at hlocale
    cases hlocale
    rfl
  | some code =>
    rw [hcode] at hlocale
    obtain ⟨locale, hid, rfl⟩ := Except.map_eq_ok.1 hlocale
    exact hid

/-- A locale that a query names is one of the schema. -/
theorem Front.named {decl : SchemaDecl} {priority : Priority} (hc : decl.compile priority = .ok schema)
    (h : Front schema q t requested sort filter) {code : String} (hcode : q.locale = some code) :
    ∃ locale, requested = some locale ∧ locale ≠ Locale.none := by
  have hlocale := h.locale
  rw [hcode] at hlocale
  obtain ⟨locale, hid, rfl⟩ := Except.map_eq_ok.1 hlocale
  refine ⟨locale, rfl, ?_⟩
  dsimp only [Query.localeId] at hid
  split at hid
  · rename_i l hl
    cases hid
    exact Locale.ne_none_of_idOf? (compile_locales hc l (List.mem_of_find?_eq_some hl))
  · cases hid

end

/-- A query with a read plan does not aggregate. -/
theorem isAggregate_of_plan? {c : CompiledQuery} {plan : ReadPlan} (hq : q.compile schema = .ok c) (hplan : c.plan? = some plan) :
    q.isAggregate = false := by
  cases haggregate : q.isAggregate with
  | false => rfl
  | true =>
    obtain ⟨_, _, _, _, _, -, -, h⟩ := compile_eq_ok hq
    rw [if_pos haggregate] at h
    obtain ⟨_, _, -, rfl⟩ := h
    cases hplan

/-! ## Matching nodes -/

/-- The nodes of its type that the filter of a query holds of. -/
structure Matches (schema : SchemaLayout) (store : Store) (t : TypeLayout) (locale : UInt8) (q : Query) (x : Subject) : Prop where
  layout : x.layout = t
  edge : x.edge = none
  node : store.node? t.id x.id = some x.node
  filter : ∀ f ∈ q.body.filter, f.Holds store locale (.ofType schema t) x

variable {store : Store}

theorem everyNode_eq (hs : Assoc.Sorted (store.table t.id).nodes) :
    everyNode store t = (store.table t.id).nodes.map fun e => ⟨t, e.1, e.2, none⟩ := by
  rw [everyNode, Store.ids, List.filterMap_map, ← List.filterMap_eq_map]
  refine List.filterMap_congr fun e he => ?_
  have hnode : store.node? t.id e.1 = some e.2 := hs.find?_of_mem he
  simp [hnode]

theorem mem_everyNode (hs : Assoc.Sorted (store.table t.id).nodes) {x : Subject} :
    x ∈ everyNode store t ↔ x.layout = t ∧ x.edge = none ∧ store.node? t.id x.id = some x.node := by
  rw [everyNode_eq hs, List.mem_map]
  constructor
  · rintro ⟨e, he, rfl⟩
    exact ⟨rfl, rfl, hs.find?_of_mem he⟩
  · obtain ⟨layout, id, n, edge⟩ := x
    rintro ⟨rfl, rfl, hn⟩
    exact ⟨(id, n), Assoc.mem_of_find? hn, rfl⟩

/-- The nodes of a type stand in the order of their ids. -/
theorem everyNode_sorted (t : TypeLayout) (hs : store.Fits schema) : (everyNode store t).Pairwise fun a b => a.id < b.id := by
  rw [everyNode_eq (hs.sorted t.id), List.pairwise_map]
  exact List.pairwise_map.1 (hs.sorted t.id)

theorem length_le_of_increasing {ids : List NodeId} (h : ids.Pairwise (· < ·)) :
    ∀ k, k ≤ 2 ^ 32 → (∀ id ∈ ids, k ≤ id.toNat) → k + ids.length ≤ 2 ^ 32 := by
  induction ids with
  | nil => exact fun _ hk _ => hk
  | cons id ids ih =>
    intro k _ hle
    obtain ⟨hlt, hids⟩ := List.pairwise_cons.1 h
    have hrest := ih hids (id.toNat + 1) id.toNat_lt fun j hj => UInt32.lt_iff_toNat_lt.1 (hlt j hj)
    have := hle id List.mem_cons_self
    rw [List.length_cons]
    omega

/-- No type has more nodes than there are ids. -/
theorem length_everyNode (t : TypeLayout) (hr : store.Regular schema) : (everyNode store t).length ≤ 0xffffffff := by
  have hids := length_le_of_increasing (hr.sorted t.id) 1 (by decide) fun id hid => by
    obtain ⟨e, he, rfl⟩ := List.mem_map.1 hid
    have hne := hr.named t.id e he
    exact Nat.pos_of_ne_zero fun h => hne (UInt32.toNat.inj h)
  rw [everyNode_eq (hr.sorted t.id), List.length_map]
  rw [List.length_map] at hids
  omega

/-! ## Answers -/

section

variable {requested : Option UInt8} {sort : Option SortSpec} {filter : Bytes} {included : Includes} {items : List IncludeItem}

/-- The nodes of a type that pass a filter block are those that the filter holds of. -/
theorem Front.hits (hp : schema.Placed) (hn : schema.Narrow) (hs : store.Fits schema)
    (h : Front schema q t requested sort filter) (hsize : filter.length < 2 ^ 32) :
    ∃ hits, passing schema store filter (everyNode store t) = .ok hits ∧ hits.Sublist (everyNode store t) ∧
      ∀ x, x ∈ hits ↔ Matches schema store t (requested.getD Locale.none) q x := by
  have htype : t ∈ schema.types := List.mem_of_find?_eq_some h.type
  have hpasses : ∀ x ∈ everyNode store t, ∃ b, x.passes schema store filter = .ok b ∧
      (b = true ↔ ∀ f ∈ q.body.filter, f.Holds store (requested.getD Locale.none) (.ofType schema t) x) := fun x hx => by
    obtain ⟨layout, id, n, edge⟩ := x
    obtain ⟨rfl, rfl, hnode⟩ := (mem_everyNode (hs.sorted t.id)).1 hx
    exact Includes.filterBytes_passes hp hs (sound_ofType hp hn htype) h.filter hsize (admits_ofType hp htype hs hnode)
  obtain ⟨hits, hpassing, hsub, hmem⟩ := exists_passing fun x hx => (hpasses x hx).imp fun _ h => h.1
  refine ⟨hits, hpassing, hsub, fun x => ?_⟩
  rw [hmem]
  constructor
  · rintro ⟨hx, hok⟩
    obtain ⟨b, hb, hiff⟩ := hpasses x hx
    obtain ⟨hlayout, hedge, hnode⟩ := (mem_everyNode (hs.sorted t.id)).1 hx
    rw [hok] at hb
    cases hb
    exact ⟨hlayout, hedge, hnode, hiff.1 rfl⟩
  · rintro ⟨hlayout, hedge, hnode, hholds⟩
    have hx := (mem_everyNode (hs.sorted t.id)).2 ⟨hlayout, hedge, hnode⟩
    obtain ⟨b, hb, hiff⟩ := hpasses x hx
    exact ⟨hx, hb.trans (congrArg Except.ok (hiff.2 hholds))⟩

/-- The bytes are those of a record of the node: its main properties, the payloads of its separate fields, what its links
lead to, and the sizes of its collections. -/
def Writes (schema : SchemaLayout) (t : TypeLayout) (locale : UInt8) (included : Includes) (x : Subject) (body : Bytes) :
    Prop :=
  ∃ linked : List Instr, (∀ i ∈ linked, Includes.Leads i) ∧ (included.links = [] → linked = []) ∧
    body = (mainInstrs x.node.main (included.mainPlan (.ofType schema t)) ++
      (included.fields (.ofType schema t)).flatMap (localeInstrs schema locale x.node) ++ linked ++
      Includes.sizeInstrs x.node (Includes.propsAt (.ofType schema t) included.counts)).flatMap Instr.encode ++
      Instr.stop.encode

/-- The bytes of the record of a node, if it can be written. -/
def recordBytes (schema : SchemaLayout) (store : Store) (items : List IncludeItem) (x : Subject) : Bytes :=
  (recordBody schema store (encodeIncludes items) x).toOption.getD []

/-- The record of every node is written. -/
theorem Scans.writes (hp : schema.Placed) (hn : schema.Narrow) (hs : store.Fits schema)
    (h : Scans schema q t requested sort filter included items) (hsize : (encodeIncludes items).length < 2 ^ 32)
    {x : Subject} (hx : Matches schema store t (requested.getD Locale.none) q x) :
    ∃ body, recordBody schema store (encodeIncludes items) x = .ok body ∧
      Writes schema t (requested.getD Locale.none) included x body := by
  have htype : t ∈ schema.types := List.mem_of_find?_eq_some h.front.type
  obtain ⟨layout, id, n, edge⟩ := x
  obtain ⟨rfl, rfl, hnode, -⟩ := hx
  obtain ⟨linked, answers, hleads, hnone, hanswers, hflat⟩ := Includes.items_answered hp hn hs included (sound_ofType hp hn htype)
    (includes_over h.includes) h.items hsize (admits_ofType hp htype hs hnode)
  exact ⟨_, recordBody_answers hanswers, linked, hleads, fun hlinks => hnone hlinks rfl, by rw [hflat]⟩

/-- A node of the store fits its layout. -/
theorem Matches.fits (hp : schema.Placed) (hs : store.Fits schema) {locale : UInt8} (ht : t ∈ schema.types) {x : Subject}
    (h : Matches schema store t locale q x) : x.node.Fits EdgeFits t := (admits_ofType hp ht hs h.node).node

theorem Range.length_encode (r : Range) : r.encode.length = 8 := by simp [encode]

/-- The engine answers a scan: it counts the nodes that match, and writes the records of those in the range, in the order of
the query. -/
theorem Scans.answered (hp : schema.Placed) (hn : schema.Narrow) (hs : store.Fits schema) (hr : store.Regular schema)
    (h : Scans schema q t requested sort filter included items) {range : Range}
    (hsize : (scanBytes false t range sort filter (encodeIncludes items) []).length < 2 ^ 32)
    (hnumber : ∀ s ∈ q.body.sort, ∀ f, s.field? t = some f → f.type ≠ .number) :
    ∃ (sorted : List Subject) (body : Subject → Bytes),
      (∀ x, x ∈ sorted ↔ Matches schema store t (requested.getD Locale.none) q x) ∧
      sorted.Pairwise (Precedes schema t (requested.getD Locale.none) q.body.sort) ∧ sorted.length ≤ 0xffffffff ∧
      (∀ x ∈ sorted, Writes schema t (requested.getD Locale.none) included x (body x)) ∧
      ∀ range, answer schema store (scanBytes false t range sort filter (encodeIncludes items) []) =
        .ok (leBytes 4 sorted.length ++ ((range.slice sorted).map fun x => Result.frame x.id (body x)).flatten) := by
  have htype : t ∈ schema.types := List.mem_of_find?_eq_some h.front.type
  have hlength : ∀ r : Range, (scanBytes false t r sort filter (encodeIncludes items) []).length < 2 ^ 32 := fun r => by
    simp only [scanBytes, List.length_append, Range.length_encode] at hsize ⊢
    exact hsize
  have hparts := hsize
  simp only [scanBytes, List.length_append, Wire.length_sized] at hparts
  obtain ⟨hits, hpassing, hsub, hmem⟩ := h.front.hits hp hn hs (by omega)
  obtain ⟨sorted, hperm, hsorted, harrange⟩ := arrange_sorted (hp.types t htype) h.front.sort hnumber
    (fun x hx => ((hmem x).1 hx).fits hp hs htype) ((everyNode_sorted t hs).sublist hsub)
  have hbytes : ∀ x ∈ sorted, ∃ body, recordBody schema store (encodeIncludes items) x = .ok body ∧
      recordBytes schema store items x = body ∧ Writes schema t (requested.getD Locale.none) included x body := fun x hx => by
    obtain ⟨body, hok, hwrites⟩ := h.writes hp hn hs (by omega) ((hmem x).1 (hperm.mem_iff.1 hx))
    exact ⟨body, hok, by rw [recordBytes, hok]; rfl, hwrites⟩
  refine ⟨sorted, recordBytes schema store items, fun x => ?_, hsorted, ?_, fun x hx => ?_, fun range => ?_⟩
  · rw [hperm.mem_iff, hmem]
  · exact hperm.length_eq ▸ hsub.length_le.trans (length_everyNode t hr)
  · obtain ⟨body, -, hbody, hwrites⟩ := hbytes x hx
    exact hbody ▸ hwrites
  · have hrecords : (range.slice sorted).mapM (record schema store (encodeIncludes items)) =
        .ok ((range.slice sorted).map fun x => Result.frame x.id (recordBytes schema store items x)) := mapM_ok fun x hx => by
      obtain ⟨body, hok, hbody, -⟩ := hbytes x (List.drop_subset _ _ (List.take_subset _ _ hx))
      rw [record, hok, hbody]
      rfl
    rw [answer_scan (hp.ids t htype) store false range (sortSpec?_fits (hp.types t htype) h.front.sort) (hlength range),
      Except.bind_eq_ok]
    refine ⟨hits, hpassing, ?_⟩
    rw [harrange, if_neg Bool.false_ne_true]
    refine Except.bind_eq_ok.2 ⟨_, hrecords, ?_⟩
    rw [hperm.length_eq]
    rfl

end

end NodeStore.Query
