import NodeStore.Proofs.Engine.Records

/-!
# Scans

A query for the nodes of a type is a type, a range, an order, a filter block and two descriptors, of which one is empty.
The engine gets back all of them.

* `Query.compile_records`, `Query.compile_aggregates`: what a query that compiles is made of.
* `Range.reads`, `SortSpec.reads`: their parts are read back.
* `everyNode`: the nodes that a scan starts from; `answer_scan`: the answer to a scan.
-/

namespace NodeStore

open Wire (Reads)

/-! ## Compiled queries -/

namespace Query

variable {schema : SchemaLayout} {q : Query} {c : CompiledQuery} {t : TypeLayout}

/-- What the front of a query is compiled to: its locale, if it names one, its order, and its filter block. -/
structure Front (schema : SchemaLayout) (q : Query) (t : TypeLayout) (requested : Option UInt8) (sort : Option SortSpec)
    (filter : Bytes) : Prop where
  type : schema.typeByName? q.type = some t
  locale : q.locale.mapM (fun code => localeId schema (some code)) = .ok requested
  sort : sortSpec? q.body.sort t (requested.getD Locale.none) = .ok sort
  filter : filterBytes (.ofType schema t) (requested.getD Locale.none) q.body.filter = .ok filter

/-- The bytes of a scan. -/
def scanBytes (aggregates : Bool) (t : TypeLayout) (range : Range) (sort : Option SortSpec) (filter includes descriptor : Bytes) :
    Bytes :=
  (if aggregates then opAggregate else opScan) :: leBytes 2 t.id.toNat ++ range.encode ++ SortSpec.encode sort ++
    Wire.sized filter ++ Wire.sized includes ++ Wire.sized descriptor

/-- The range of a query, which is the whole result if none is given. -/
def range (q : Query) : Range := q.body.range.getD .whole

/-- The steps of a query that compiles. -/
theorem compile_eq_ok (h : q.compile schema = .ok c) :
    ∃ t requested sort filter front, Front schema q t requested sort filter ∧ q.header t = .ok front ∧
      if q.isAggregate then
        ∃ descriptor plan, compileAggregates t q.aggregates q.group = .ok (descriptor, plan) ∧
          c = ⟨schema, front ++ SortSpec.encode sort ++ Wire.sized filter ++ Wire.sized [] ++ Wire.sized descriptor,
            .aggregates plan⟩
      else
        ∃ included items, q.includes (.ofType schema t) = .ok included ∧
          included.items (.ofType schema t) (requested.getD Locale.none) = .ok items ∧
          c = ⟨schema, front ++ SortSpec.encode sort ++ Wire.sized filter ++ Wire.sized (encodeIncludes items) ++ Wire.sized [],
            .records (included.plan (.ofType schema t) requested)⟩ := by
  unfold compile at h
  split at h
  · cases h
  · rename_i t ht
    obtain ⟨requested, hlocale, h⟩ := Except.bind_eq_ok.1 h
    obtain ⟨front, hfront, h⟩ := Except.bind_eq_ok.1 h
    obtain ⟨sort, hsort, h⟩ := Except.bind_eq_ok.1 h
    obtain ⟨filter, hfilter, h⟩ := Except.bind_eq_ok.1 h
    refine ⟨t, requested, sort, filter, front, ⟨ht, hlocale, hsort, hfilter⟩, hfront, ?_⟩
    split at h
    · rename_i hagg
      obtain ⟨⟨descriptor, plan⟩, hdescriptor, h⟩ := Except.bind_eq_ok.1 h
      cases h
      rw [if_pos hagg]
      exact ⟨descriptor, plan, hdescriptor, rfl⟩
    · rename_i hrecords
      obtain ⟨included, hincluded, h⟩ := Except.bind_eq_ok.1 h
      obtain ⟨items, hitems, h⟩ := Except.bind_eq_ok.1 h
      cases h
      rw [if_neg hrecords]
      exact ⟨included, items, hincluded, hitems, rfl⟩

/-- A scan for records. -/
theorem compile_records (htarget : q.target = .scan) (hrecords : q.isAggregate = false) (h : q.compile schema = .ok c) :
    ∃ t requested sort filter included items, Front schema q t requested sort filter ∧
      q.includes (.ofType schema t) = .ok included ∧
      included.items (.ofType schema t) (requested.getD Locale.none) = .ok items ∧
      c = ⟨schema, scanBytes false t q.range sort filter (encodeIncludes items) [],
        .records (included.plan (.ofType schema t) requested)⟩ := by
  obtain ⟨t, requested, sort, filter, front, hfront, hheader, h⟩ := compile_eq_ok h
  rw [hrecords, if_neg Bool.false_ne_true] at h
  obtain ⟨included, items, hincluded, hitems, rfl⟩ := h
  simp only [header, htarget, hrecords] at hheader
  cases hheader
  exact ⟨t, requested, sort, filter, included, items, hfront, hincluded, hitems, rfl⟩

/-- A query for aggregates; only scans aggregate. -/
theorem compile_aggregates (hagg : q.isAggregate = true) (h : q.compile schema = .ok c) :
    ∃ t requested sort filter descriptor plan, Front schema q t requested sort filter ∧
      compileAggregates t q.aggregates q.group = .ok (descriptor, plan) ∧
      c = ⟨schema, scanBytes true t q.range sort filter [] descriptor, .aggregates plan⟩ := by
  obtain ⟨t, requested, sort, filter, front, hfront, hheader, h⟩ := compile_eq_ok h
  rw [if_pos hagg] at h
  obtain ⟨descriptor, plan, hdescriptor, rfl⟩ := h
  cases htarget : q.target with
  | id | ids => simp [header, htarget, hagg] at hheader
  | scan =>
    simp only [header, htarget, hagg] at hheader
    cases hheader
    exact ⟨t, requested, sort, filter, descriptor, plan, hfront, hdescriptor, rfl⟩

/-! ## Parts of a query -/

theorem Range.reads (r : Range) : Reads Range.read r.encode r :=
  (Reads.u32 _ _).bind ((Reads.u32 _ _).bind_pure (.pure _))

/-- No result has more entries than there are ids. -/
theorem Range.slice_whole {α : Type} {entries : List α} (h : entries.length ≤ 0xffffffff) : Range.whole.slice entries = entries := by
  have hlimit : Range.whole.limit.toNat = 0xffffffff := rfl
  rw [Range.slice, hlimit]
  exact List.take_of_length_le h

/-- The numbers of an order have room in their bytes. -/
structure SortSpec.Fits (s : SortSpec) : Prop where
  start : s.start < 2 ^ 32
  width : s.width < 2 ^ 16

theorem SortSpec.reads {sort : Option SortSpec} (h : ∀ s ∈ sort, s.Fits) : Reads SortSpec.read (SortSpec.encode sort) sort := by
  cases sort with
  | none => exact (Reads.byte _ 0).bind_pure (.pure _)
  | some s =>
    obtain ⟨hstart, hwidth⟩ := h s rfl
    have horder : (decide ((if s.descending then 1 else 0 : UInt8) = 1)) = s.descending := by
      cases s.descending <;> rfl
    have hread : Reads SortSpec.read _ (some { s with descending := decide ((if s.descending then 1 else 0 : UInt8) = 1) }) :=
      (Reads.byte "sort flag" 1).bind <| (Reads.byte "sort order" (if s.descending then 1 else 0)).bind <|
        (Reads.byte "sort slot" s.slot).bind <| (Reads.propType s.type "sort type").bind <|
        (Reads.nat hstart "sort start").bind <| (Reads.nat hwidth "sort len").bind <|
        (Reads.byte "sort locale" s.locale).bind_pure (.pure _)
    rw [horder] at hread
    simpa [SortSpec.encode] using hread

/-- The order by a field of a type. -/
theorem SortBy.spec_fits {s : SortBy} {locale : UInt8} {spec : SortSpec} (ht : t.Placed) (h : s.spec t locale = .ok spec) :
    spec.Fits := by
  have hroom := ht.room
  have hmax : Limits.maxMainLength = 65535 := rfl
  unfold SortBy.spec at h
  split at h
  · cases h
    exact ⟨Nat.two_pow_pos 32, show 4 < 2 ^ 16 by decide⟩
  · split at h
    · cases h
    · rename_i p hp
      split at h
      · cases h
      · cases h
        have hmem := List.mem_of_find?_eq_some hp
        cases hloc : p.location with
        | main offset =>
          have hin := ht.inside p hmem offset (by simp [PropDef.offset?, hloc])
          refine ⟨?_, ?_⟩ <;> simp [PropDef.offset?, PropDef.isMain, hloc] <;> omega
        | separate slot =>
          refine ⟨?_, ?_⟩ <;> simp [PropDef.offset?, PropDef.isMain, hloc]

theorem sortSpec?_fits {sort : Option SortBy} {locale : UInt8} {spec : Option SortSpec} (ht : t.Placed)
    (h : sortSpec? sort t locale = .ok spec) : ∀ s ∈ spec, s.Fits := by
  cases sort with
  | none =>
    cases h
    exact nofun
  | some s =>
    obtain ⟨spec, hspec, rfl⟩ := Except.map_eq_ok.1 h
    intro s' hs'
    cases hs'
    exact SortBy.spec_fits ht hspec

end Query

/-! ## What the engine answers -/

namespace Engine

open Query (SortSpec Range scanBytes)

variable {schema : SchemaLayout} {t : TypeLayout} {sort : Option SortSpec} {filter includes descriptor : Bytes}

/-- The nodes of a type, in the order of their ids. -/
def everyNode (store : Store) (t : TypeLayout) : List Subject :=
  (store.ids t.id).filterMap fun id => (store.node? t.id id).map fun n => ⟨t, id, n, none⟩

/-- The nodes that pass a filter block, if it can be evaluated on each. -/
theorem passing_eq_filter {store : Store} {test : Subject → Bool} {ss : List Subject}
    (h : ∀ s ∈ ss, s.passes schema store filter = .ok (test s)) : passing schema store filter ss = .ok (ss.filter test) := by
  suffices hgo : ∀ found, List.filterAuxM (fun s : Subject => s.passes schema store filter) ss found =
      .ok ((ss.filter test).reverse ++ found) by
    rw [passing, List.filterM, hgo]
    simp [Functor.map, Except.map]
  induction ss with
  | nil => exact fun _ => rfl
  | cons s ss ih =>
    intro found
    have hrest := ih fun s' hs' => h s' (List.mem_cons_of_mem _ hs')
    rw [List.filterAuxM, h s List.mem_cons_self]
    cases htest : test s with
    | false =>
      rw [List.filter_cons_of_neg (by simp [htest])]
      exact hrest found
    | true =>
      rw [List.filter_cons_of_pos htest, List.reverse_cons, List.append_assoc]
      exact hrest (s :: found)

/-- What passes stands in the order of the nodes. -/
theorem passing_sublist {store : Store} {ss found : List Subject} (h : passing schema store filter ss = .ok found) :
    found.Sublist ss := by
  suffices hgo : ∀ front rev, List.filterAuxM (fun s : Subject => s.passes schema store filter) ss front = .ok rev →
      rev.reverse.Sublist (front.reverse ++ ss) by
    obtain ⟨rev, hrev, h⟩ := Except.bind_eq_ok.1 h
    cases h
    exact hgo [] rev hrev
  clear h
  induction ss with
  | nil =>
    rintro front _ ⟨⟩
    rw [List.append_nil]
  | cons s ss ih =>
    intro front rev hrev
    obtain ⟨b, -, hrev⟩ := Except.bind_eq_ok.1 hrev
    cases b with
    | false => exact (ih front rev hrev).trans ((List.sublist_cons_self s ss).append_left _)
    | true => simpa using ih (s :: front) rev hrev

/-- Every node passes the empty block. -/
theorem passes_nil (store : Store) (s : Subject) : s.passes schema store [] = .ok true := by
  rw [Subject.passes, holdsFrom]
  rfl

theorem passing_nil (store : Store) (ss : List Subject) : passing schema store [] ss = .ok ss :=
  (passing_eq_filter fun s _ => passes_nil store s).trans (congrArg Except.ok (List.filter_true ss))

theorem reads_scan (ht : schema.typeById? t.id = some t) (store : Store) (aggregates : Bool) (range : Range) :
    Reads (readRequest schema store)
      ((if aggregates then Query.opAggregate else Query.opScan) :: leBytes 2 t.id.toNat ++ range.encode)
      ⟨t, store.ids t.id, some range, aggregates⟩ := by
  have hlayout : layoutOf schema t.id = .ok t := by rw [layoutOf, ht]
  have hkind : decide ((if aggregates then Query.opAggregate else Query.opScan) = Query.opAggregate) = aggregates := by
    cases aggregates <;> rfl
  rw [← List.singleton_append, List.append_assoc]
  refine (reads_ofRead (.byte _ _)).bind ((reads_ofRead (.u16 _ _)).bind ?_)
  rw [← List.nil_append range.encode]
  refine (reads_ofExcept hlayout).bind ?_
  rw [if_neg (by cases aggregates <;> decide), if_neg (by cases aggregates <;> decide),
    if_pos (by cases aggregates <;> decide)]
  refine (reads_ofRead (Range.reads range)).bind_pure ?_
  rw [hkind]
  exact .pure _

theorem reads_body (hsort : ∀ s ∈ sort, s.Fits) (hfilter : filter.length < 2 ^ 32) (hincludes : includes.length < 2 ^ 32)
    (hdescriptor : descriptor.length < 2 ^ 32) :
    Reads readRequestBody (SortSpec.encode sort ++ (Wire.sized filter ++ (Wire.sized includes ++ Wire.sized descriptor)))
      ⟨sort, filter, includes, descriptor⟩ :=
  (SortSpec.reads hsort).bind <| (Reads.sized hfilter _).bind <| (Reads.sized hincludes _).bind <|
    (Reads.sized hdescriptor _).bind_pure (.pure _)

/-- The answer to a scan: the nodes of the type that pass the filter block are ordered and cut, and then written or
aggregated. -/
theorem answer_scan (ht : schema.typeById? t.id = some t) (store : Store) (aggregates : Bool) (range : Range)
    (hsort : ∀ s ∈ sort, s.Fits)
    (hsize : (scanBytes aggregates t range sort filter includes descriptor).length < 2 ^ 32) :
    answer schema store (scanBytes aggregates t range sort filter includes descriptor) = do
      let hits ← passing schema store filter (everyNode store t)
      let arranged := arrange schema sort (some range) hits
      if aggregates then tally descriptor (arranged.map (·.node))
      else
        let records ← arranged.mapM (record schema store includes)
        return leBytes 4 hits.length ++ records.flatten := by
  simp only [scanBytes, List.length_append, Wire.length_sized] at hsize
  have hbody := reads_body hsort (show filter.length < 2 ^ 32 by omega) (show includes.length < 2 ^ 32 by omega)
    (show descriptor.length < 2 ^ 32 by omega)
  have hparts : Reads (readQuery schema store) (_ ++ _) _ :=
    (reads_scan ht store aggregates range).bind ((reads_ofRead hbody).bind_pure (.pure _))
  have hread : (readQuery schema store).run (scanBytes aggregates t range sort filter includes descriptor) =
      .ok (⟨t, store.ids t.id, some range, aggregates⟩, ⟨sort, filter, includes, descriptor⟩) := by
    have hrun := hparts 0 []
    rw [List.append_nil] at hrun
    rw [scanBytes, Scan.run]
    simp only [Wire.Reader.ofBytes, List.append_assoc] at hrun ⊢
    rw [hrun]
  unfold answer
  rw [hread]
  rfl

end Engine

end NodeStore
