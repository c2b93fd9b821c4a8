import NodeStore.Proofs.Engine.Scans
import NodeStore.Proofs.Query.Ordering

/-!
# Items of a descriptor

Each item of an include descriptor adds instructions to a record, whatever items follow it.

* `Answers`: the instructions that an item adds, with one lemma for each kind of item.
* `recordBody_answers`: the items of a whole descriptor.
-/

namespace NodeStore.Engine

open Query (IncludeItem SortSpec Range)
open Result (Instr)
open Wire (Reads)

/-! ### Items read back -/

namespace Ask

theorem reads_link (main : Bytes) (one : Bool) (slot : UInt8) (type : TypeId) (range : Range) {sort : Option SortSpec}
    {filter : Bytes} {body : List IncludeItem} (hsort : ∀ s ∈ sort, s.Fits) (hfilter : filter.length < 2 ^ 32)
    (hbody : (IncludeItem.encodeAll body).length < 2 ^ 32) :
    Reads (read main) (IncludeItem.link one slot type range sort filter body).encode
      (.link one slot range sort filter (IncludeItem.encodeAll body)) := by
  have hone : decide ((if one then IncludeItem.opLink else IncludeItem.opLinks) = IncludeItem.opLink) = one := by
    cases one <;> rfl
  have hread : Reads (read main) ([if one then IncludeItem.opLink else IncludeItem.opLinks] ++ ([slot] ++
      (leBytes 2 type.toNat ++ (range.encode ++ (SortSpec.encode sort ++
        (Wire.sized filter ++ Wire.sized (IncludeItem.encodeAll body)))))))
      (.link (decide ((if one then IncludeItem.opLink else IncludeItem.opLinks) = IncludeItem.opLink)) slot range sort filter
        (IncludeItem.encodeAll body)) := by
    refine (reads_ofRead (.byte _ _)).bind ?_
    rw [if_neg (by cases one <;> decide), if_neg (by cases one <;> decide), if_pos (by cases one <;> decide)]
    exact (reads_ofRead (.byte _ slot)).bind <| (reads_ofRead (.u16 type _)).bind <|
      (reads_ofRead (Query.Range.reads range)).bind <| (reads_ofRead (SortSpec.reads hsort)).bind <|
      (reads_ofRead (.sized hfilter _)).bind <| (reads_ofRead (.sized hbody _)).bind_pure (.pure _)
  rw [hone] at hread
  simpa [IncludeItem.encode] using hread

theorem reads_edge (main : Bytes) {body : List IncludeItem} (hbody : (IncludeItem.encodeAll body).length < 2 ^ 32) :
    Reads (read main) (IncludeItem.edge body).encode (.edge (IncludeItem.encodeAll body)) := by
  rw [IncludeItem.encode, ← List.singleton_append]
  refine (reads_ofRead (.byte _ _)).bind ?_
  exact (reads_ofRead (.sized hbody _)).bind_pure (.pure _)

theorem reads_count (main : Bytes) (slot : UInt8) : Reads (read main) (IncludeItem.count slot).encode (.count slot) := by
  change Reads _ ([IncludeItem.opCount] ++ [slot]) _
  refine (reads_ofRead (.byte _ _)).bind ?_
  exact (reads_ofRead (.byte _ _)).bind_pure (.pure _)

end Ask

/-! ### Items answered -/

variable {schema : SchemaLayout} {store : Store} {x : Subject}

/-- The instructions that an item adds to the record of a node. -/
def Answers (schema : SchemaLayout) (store : Store) (x : Subject) (i : IncludeItem) (is : List Instr) : Prop :=
  ∀ rest, recordBody schema store (i.encode ++ rest) x = do
    return is.flatMap Instr.encode ++ (← recordBody schema store rest x)

/-- The nodes that pass are some of those that are tested, in their order. -/
theorem exists_passing {filter : Bytes} {ss : List Subject} (h : ∀ y ∈ ss, ∃ b, y.passes schema store filter = .ok b) :
    ∃ passed, passing schema store filter ss = .ok passed ∧ passed.Sublist ss ∧
      ∀ y, y ∈ passed ↔ y ∈ ss ∧ y.passes schema store filter = .ok true := by
  classical
  refine ⟨ss.filter fun y => decide (y.passes schema store filter = .ok true), passing_eq_filter fun y hy => ?_,
    List.filter_sublist, fun y => by rw [List.mem_filter, decide_eq_true_iff]⟩
  obtain ⟨b, hb⟩ := h y hy
  cases b <;> simp [hb]

theorem answers_main_all : Answers schema store x (.main []) [.main x.node.main] := fun rest => by
  rw [recordBody_main (Ask.reads_main_all _) (by simp [IncludeItem.encode]), List.flatMap_singleton]

theorem answers_main {parts : List (Nat × Nat)} (h : PartsFit x.node.main parts) (hne : parts ≠ [])
    (hcount : parts.length < 2 ^ 16) :
    Answers schema store x (.main parts) [.main (takeParts x.node.main parts)] := fun rest => by
  rw [recordBody_main (Ask.reads_main h hne hcount) (by simp [IncludeItem.encode]), List.flatMap_singleton]

/-- The instructions of the payloads of a separate field in a locale. -/
def localeInstrs (schema : SchemaLayout) (locale : UInt8) (n : StoredNode) (p : PropDef EdgeLayout) : List Instr :=
  (payloads schema p locale (n.field? (p.slot?.getD 0))).map (.field (p.slot?.getD 0))

theorem answers_field (ht : x.layout.Placed) {p : PropDef EdgeLayout} (hp : p ∈ x.layout.props) (hsep : p.isMain = false)
    (tag locale : UInt8) :
    Answers schema store x (.field (p.slot?.getD 0) tag locale) (localeInstrs schema locale x.node p) := fun rest => by
  obtain ⟨slot, hslot⟩ := PropDef.isMain_eq_false_iff.1 hsep
  have hfield : fieldInstrs schema x.layout x.node (p.slot?.getD 0) locale =
      .ok ((localeInstrs schema locale x.node p).flatMap Instr.encode) := by
    rw [hslot, Option.getD_some, fieldInstrs, ht.propBySlot? hp hslot]
    simp [localeInstrs, hslot, List.flatMap_map]
  rw [recordBody_field (Ask.reads_field _ _ _ _) (by simp [IncludeItem.encode]), hfield]
  rfl

/-- The instructions of the records of a reference. -/
def linkInstrs (one : Bool) (slot : UInt8) (records : List Bytes) : List Instr :=
  if one then records.map (.link slot) else [.links slot (leBytes 4 records.length ++ records.flatten)]

/-- Where the filter block and the records of all linked nodes are evaluated without a fault, there is an answer. -/
theorem answers_link (one : Bool) (slot : UInt8) (type : TypeId) (range : Range) {sort : Option SortSpec} {filter : Bytes}
    {body : List IncludeItem} (hsort : ∀ s ∈ sort, s.Fits) (hfilter : filter.length < 2 ^ 32)
    (hbody : (IncludeItem.encodeAll body).length < 2 ^ 32) {linked : List Subject}
    (hlinked : linkedSubjects schema store x.layout slot (x.node.links slot) = .ok linked)
    (hpasses : ∀ y ∈ linked, ∃ b, y.passes schema store filter = .ok b)
    (hrecords : ∀ y ∈ linked, ∃ bs, recordBody schema store (IncludeItem.encodeAll body) y = .ok bs) :
    ∃ records, Answers schema store x (.link one slot type range sort filter body) (linkInstrs one slot records) := by
  obtain ⟨passed, hpassing, hsub, -⟩ := exists_passing hpasses
  have hhits : ∀ y ∈ (if one then (arrange schema sort (some range) passed).take 1 else arrange schema sort (some range) passed),
      ∃ bs, recordBody schema store (IncludeItem.encodeAll body) y = .ok bs := fun y hy => by
    refine hrecords y (hsub.subset (Query.arrange_subset schema sort range passed ?_))
    cases one with
    | true => exact List.take_subset _ _ hy
    | false => exact hy
  obtain ⟨records, hframed⟩ : ∃ records, framed (recordBody schema store (IncludeItem.encodeAll body))
      (if one then (arrange schema sort (some range) passed).take 1 else arrange schema sort (some range) passed) =
        .ok records := exists_mapM fun y hy => by
    obtain ⟨bs, hbs⟩ := hhits y hy
    exact ⟨Result.frame y.id bs, by rw [hbs]; rfl⟩
  refine ⟨records, fun rest => ?_⟩
  have hread := Ask.reads_link x.node.main one slot type range hsort hfilter hbody 0 rest
  rw [recordBody, if_neg (by simp [IncludeItem.encode])]
  split <;> rename_i hcase <;> rw [Wire.Reader.ofBytes, hread] at hcase <;> cases hcase
  have hinstrs : (linkInstrs one slot records).flatMap Instr.encode =
      if one then records.flatMap (fun bytes => (Instr.link slot bytes).encode)
      else (Instr.links slot (leBytes 4 records.length ++ records.flatten)).encode := by
    cases one <;> simp [linkInstrs, List.flatMap_map]
  rw [hinstrs, hlinked]
  simp only [bind, Except.bind, hpassing, hframed]

theorem answers_edge {body : List IncludeItem} (hbody : (IncludeItem.encodeAll body).length < 2 ^ 32)
    (hrecord : ∀ t n, x.edge = some (t, n) → ∃ bs, recordBody schema store (IncludeItem.encodeAll body) (.ofEdge t n) = .ok bs) :
    ∃ is, (∀ i ∈ is, ∃ block, i = .edge block) ∧ Answers schema store x (.edge body) is := by
  cases hedge : x.edge with
  | none =>
    refine ⟨[], nofun, fun rest => ?_⟩
    have hread := Ask.reads_edge x.node.main hbody 0 rest
    rw [recordBody, if_neg (by simp [IncludeItem.encode])]
    split <;> rename_i hcase <;> rw [Wire.Reader.ofBytes, hread] at hcase <;> cases hcase
    simp only [hedge]
    rfl
  | some e =>
    obtain ⟨t, n⟩ := e
    obtain ⟨block, hblock⟩ := hrecord t n hedge
    refine ⟨[.edge block], fun i hi => ⟨block, List.mem_singleton.1 hi⟩, fun rest => ?_⟩
    have hread := Ask.reads_edge x.node.main hbody 0 rest
    rw [recordBody, if_neg (by simp [IncludeItem.encode]), List.flatMap_singleton]
    split <;> rename_i hcase <;> rw [Wire.Reader.ofBytes, hread] at hcase <;> cases hcase
    simp only [hedge, hblock]
    rfl

theorem answers_count (slot : UInt8) : Answers schema store x (.count slot)
    [.count slot Query.AggregateKind.count.code (x.node.links slot).length] := fun rest => by
  have hread := Ask.reads_count x.node.main slot 0 rest
  rw [recordBody, if_neg (by simp [IncludeItem.encode])]
  split <;> rename_i hcase <;> rw [Wire.Reader.ofBytes, hread] at hcase <;> cases hcase
  rw [List.flatMap_singleton]

/-- A descriptor is answered item by item. -/
theorem recordBody_answers {items : List IncludeItem} {answers : List (List Instr)}
    (h : List.Forall₂ (Answers schema store x) items answers) :
    recordBody schema store (Query.encodeIncludes items) x =
      .ok (answers.flatten.flatMap Instr.encode ++ Instr.stop.encode) := by
  unfold Query.encodeIncludes
  induction h with
  | nil =>
    rw [recordBody]
    rfl
  | cons hi hrest ih =>
    rw [IncludeItem.encodeAll, hi, ih]
    simp [bind, Except.bind, pure, Except.pure]

end NodeStore.Engine
