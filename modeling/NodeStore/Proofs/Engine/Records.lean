import Mathlib.Algebra.BigOperators.Group.List.Basic
import Mathlib.Algebra.Order.BigOperators.Group.List
import Mathlib.Algebra.Order.Group.Nat
import Mathlib.Data.List.Perm.Subperm
import NodeStore.Engine.Memory
import NodeStore.Proofs.Codec.MainBlock
import NodeStore.Proofs.Engine.Contents
import NodeStore.Proofs.Query.Everything
import NodeStore.Proofs.Wire.RoundTrip

/-!
# Records that the engine writes

The answer to the query for all fields of a node holds its main properties, one behind the other, and the payloads of its
separate fields.

* `recordInstrs`: the instructions of the record.
* `recordBody_everything`: the engine writes just these; `length_recordInstrs_le`: how long they are.
* `query_everything`: the whole answer.
-/

namespace NodeStore.Engine

open Query (IncludeItem MainPlan everything everythingMain everythingFields everythingItems)
open Result (Instr)
open Wire (Reads)

/-! ### Items of a descriptor -/

theorem reads_ofRead {α : Type} {x : Wire.Read α} {bs : Bytes} {a : α} (h : Reads x bs a) : Reads (Scan.ofRead x) bs a := by
  intro pos rest
  unfold Scan.ofRead
  rw [h]

theorem reads_ofExcept {α : Type} {x : Except Fault α} {a : α} (h : x = .ok a) : Reads (Scan.ofExcept x) [] a := by
  intro pos rest
  rw [h]
  rfl

/-- The bytes of some parts of a block. -/
def takeParts (main : Bytes) (parts : List (Nat × Nat)) : Bytes := parts.flatMap fun part => (main.drop part.1).take part.2

/-- The parts lie in the block, and their numbers have room in their bytes. -/
def PartsFit (main : Bytes) (parts : List (Nat × Nat)) : Prop :=
  ∀ part ∈ parts, part.1 + part.2 ≤ main.length ∧ part.1 < 2 ^ 32 ∧ part.2 < 2 ^ 16

namespace Ask

theorem reads_parts {main : Bytes} {ps : List (Nat × Nat)} (h : PartsFit main ps) :
    Reads (parts main ps.length) (ps.flatMap fun (start, length) => leBytes 4 start ++ leBytes 2 length) (takeParts main ps) := by
  induction ps with
  | nil => exact .pure _
  | cons p ps ih =>
    obtain ⟨hin, hstart, hlength⟩ := h p List.mem_cons_self
    have hrest := ih fun q hq => h q (List.mem_cons_of_mem _ hq)
    rw [List.flatMap_cons, List.append_assoc]
    refine (reads_ofRead (.nat hstart _)).bind ((reads_ofRead (.nat hlength _)).bind ?_)
    rw [if_neg (Nat.not_lt.2 hin)]
    exact hrest.bind_pure (.pure _)

theorem reads_main {main : Bytes} {ps : List (Nat × Nat)} (h : PartsFit main ps) (hne : ps ≠ []) (hcount : ps.length < 2 ^ 16) :
    Reads (read main) (IncludeItem.main ps).encode (.main (takeParts main ps)) := by
  rw [IncludeItem.encode, ← List.singleton_append, List.append_assoc]
  refine (reads_ofRead (.byte _ _)).bind ?_
  refine (reads_ofRead (.nat hcount _)).bind ?_
  rw [if_neg (by simpa using hne)]
  exact (reads_parts h).bind_pure (.pure _)

theorem reads_main_all (main : Bytes) : Reads (read main) (IncludeItem.main []).encode (.main main) := by
  rw [IncludeItem.encode, ← List.singleton_append, List.append_assoc]
  refine (reads_ofRead (.byte _ _)).bind ?_
  refine (reads_ofRead (.nat (by decide) _)).bind ?_
  exact .pure _

theorem reads_field (main : Bytes) (slot tag locale : UInt8) :
    Reads (read main) (IncludeItem.field slot tag locale).encode (.field slot locale) := by
  change Reads _ ([IncludeItem.opField] ++ ([slot] ++ ([tag] ++ [locale]))) _
  refine (reads_ofRead (.byte _ _)).bind ?_
  refine (reads_ofRead (.byte _ _)).bind ?_
  refine (reads_ofRead (.byte _ _)).bind ?_
  exact (reads_ofRead (.byte _ _)).bind_pure (.pure _)

end Ask

/-! ### Records -/

section

variable {schema : SchemaLayout} {store : Store} {s : Subject} {bs : Bytes}

theorem recordBody_main {block : Bytes} (h : Reads (Ask.read s.node.main) bs (.main block)) (hne : bs ≠ []) (rest : Bytes) :
    recordBody schema store (bs ++ rest) s = do return (Instr.main block).encode ++ (← recordBody schema store rest s) := by
  rw [recordBody, if_neg (by simp [hne])]
  have hread := h 0 rest
  split <;> rename_i hcase <;> rw [Wire.Reader.ofBytes, hread] at hcase <;> cases hcase
  rfl

theorem recordBody_field {slot locale : UInt8} (h : Reads (Ask.read s.node.main) bs (.field slot locale)) (hne : bs ≠ [])
    (rest : Bytes) :
    recordBody schema store (bs ++ rest) s = do
      let field ← fieldInstrs schema s.layout s.node slot locale
      return field ++ (← recordBody schema store rest s) := by
  rw [recordBody, if_neg (by simp [hne])]
  have hread := h 0 rest
  split <;> rename_i hcase <;> rw [Wire.Reader.ofBytes, hread] at hcase <;> cases hcase
  rfl

end

/-- The instructions of the payloads of a separate field, for all locales. -/
def payloadInstrs (schema : SchemaLayout) (n : StoredNode) (p : PropDef EdgeLayout) : List Instr :=
  (payloads schema p Locale.none (n.field? (p.slot?.getD 0))).map (.field (p.slot?.getD 0))

/-- The instruction of the main block. -/
def mainInstrs (block : Bytes) : MainPlan → List Instr
  | .none => []
  | .all => [.main block]
  | .props ps => [.main (ps.flatMap (·.slice block))]

/-- The instructions of the record with all fields. -/
def recordInstrs (schema : SchemaLayout) (t : TypeLayout) (n : StoredNode) : List Instr :=
  mainInstrs n.main (everythingMain t) ++ (everythingFields t).flatMap (payloadInstrs schema n)

section

variable {schema : SchemaLayout} {store : Store} {t : TypeLayout} {id : NodeId} {n : StoredNode}

/-- The separate fields of a record are written in the order in which they are asked for. -/
theorem recordBody_fields (schema : SchemaLayout) (store : Store) (id : NodeId) (n : StoredNode) (ht : t.Placed) {ps : List (PropDef EdgeLayout)}
    (hps : ∀ p ∈ ps, p ∈ t.props ∧ ∃ slot, p.slot? = some slot) :
    recordBody schema store
        (IncludeItem.encodeAll (ps.map fun p => .field (p.slot?.getD 0) p.type.tag Locale.none)) ⟨t, id, n, none⟩ =
      .ok ((ps.flatMap (payloadInstrs schema n)).flatMap Instr.encode ++ Instr.stop.encode) := by
  induction ps with
  | nil =>
    rw [recordBody]
    rfl
  | cons p ps ih =>
    obtain ⟨hp, slot, hslot⟩ := hps p List.mem_cons_self
    have hfield : fieldInstrs schema t n (p.slot?.getD 0) Locale.none = .ok ((payloadInstrs schema n p).flatMap Instr.encode) := by
      rw [hslot, Option.getD_some, fieldInstrs, ht.propBySlot? hp hslot]
      simp [payloadInstrs, hslot, List.flatMap_map]
    rw [List.map_cons, IncludeItem.encodeAll, recordBody_field (Ask.reads_field _ _ _ _) (List.cons_ne_nil _ _)]
    simp only [hfield, ih fun q hq => hps q (List.mem_cons_of_mem _ hq)]
    simp [bind, Except.bind, pure, Except.pure]

/-- The parts of a block that hold its properties are the bytes of these. -/
theorem takeParts_slices (block : Bytes) (ps : List (PropDef EdgeLayout)) :
    takeParts block (ps.map fun p => (p.offset?.getD 0, p.len)) = ps.flatMap (·.slice block) := by
  rw [takeParts, List.flatMap_map]
  rfl

theorem mem_everythingFields {p : PropDef EdgeLayout} (hp : p ∈ everythingFields t) :
    p ∈ t.props ∧ p.type.isReference = false ∧ ∃ slot, p.slot? = some slot := by
  obtain ⟨hp, hsep⟩ := List.mem_filter.1 hp
  obtain ⟨hp, href⟩ := List.mem_filter.1 hp
  exact ⟨hp, by simpa using href, PropDef.isMain_eq_false_iff.1 (by simpa using hsep)⟩

/-- The main properties of a record are some of the properties, or all of a block without any. -/
theorem everythingMain_cases (t : TypeLayout) :
    (everythingMain t = .all ∧ t.plainProps = []) ∨ (everythingMain t = .none ∧ ∀ p ∈ t.plainProps, p.isMain = false) ∨
      ∃ ps, everythingMain t = .props ps ∧ ps = t.plainProps.filter (·.isMain) ∧ ps ≠ [] := by
  unfold everythingMain
  split
  · rename_i hnil
    exact .inl ⟨rfl, hnil⟩
  · refine .inr ?_
    split
    · rename_i hnil
      exact .inl ⟨rfl, fun p hp => by simpa using List.filter_eq_nil_iff.1 hnil p hp⟩
    · rename_i hne
      exact .inr ⟨_, rfl, rfl, hne⟩

/-- The main properties of a record. -/
theorem mainProps_spec (ht : t.Placed) (hk : t.Packed) {ps : List (PropDef EdgeLayout)}
    (hps : ps = t.plainProps.filter (·.isMain)) :
    (∀ p ∈ ps, p ∈ t.props ∧ p.isMain = true) ∧ (ps.map (·.len)).sum ≤ t.mainLen ∧ ps.length ≤ t.mainLen := by
  have hsub : ps.Sublist t.props := hps ▸ List.filter_sublist.trans List.filter_sublist
  have hmain : ∀ p ∈ ps, p.isMain = true := fun p hp => by
    rw [hps] at hp
    exact (List.mem_filter.1 hp).2
  have hsum := hk.sum_len_le ht hsub hmain
  have hlen := List.length_le_sum_of_one_le (ps.map (·.len)) fun k hlen => by
    obtain ⟨p, hp, rfl⟩ := List.mem_map.1 hlen
    exact (ht.measured p (hsub.subset hp)).len_pos (hmain p hp)
  rw [List.length_map] at hlen
  exact ⟨fun p hp => ⟨hsub.subset hp, hmain p hp⟩, hsum, hlen.trans hsum⟩

/-- The engine writes just these instructions. -/
theorem recordBody_everything (ht : t.Placed) (hk : t.Packed) (hn : n.main.length = t.mainLen) :
    recordBody schema store (Query.encodeIncludes (everythingItems t)) ⟨t, id, n, none⟩ =
      .ok ((recordInstrs schema t n).flatMap Instr.encode ++ Instr.stop.encode) := by
  have hfields := recordBody_fields schema store id n ht
    fun p hp => ⟨(mem_everythingFields hp).1, (mem_everythingFields hp).2.2⟩
  unfold Query.encodeIncludes everythingItems recordInstrs
  rcases everythingMain_cases t with ⟨hmain, -⟩ | ⟨hmain, -⟩ | ⟨ps, hmain, hps, hne⟩
  · rw [hmain, Query.Includes.mainItem, List.singleton_append, IncludeItem.encodeAll,
      recordBody_main (Ask.reads_main_all _) (by simp [IncludeItem.encode]), hfields]
    simp [mainInstrs, bind, Except.bind, pure, Except.pure]
  · rw [hmain, Query.Includes.mainItem, List.nil_append, hfields]
    simp [mainInstrs]
  · obtain ⟨hprops, -, hcount⟩ := mainProps_spec ht hk hps
    have hroom := ht.room
    have hmax : Limits.maxMainLength = 65535 := rfl
    have hfit : PartsFit n.main (ps.map fun p => (p.offset?.getD 0, p.len)) := by
      intro part hpart
      obtain ⟨p, hp, rfl⟩ := List.mem_map.1 hpart
      obtain ⟨a, ha⟩ := PropDef.offset?_of_isMain (hprops p hp).2
      have hin := ht.inside p (hprops p hp).1 a ha
      rw [ha, Option.getD_some, hn]
      dsimp only
      omega
    have hread := Ask.reads_main hfit (by simpa using hne) (by rw [List.length_map]; omega)
    rw [hmain, Query.Includes.mainItem, List.singleton_append, IncludeItem.encodeAll,
      recordBody_main hread (by simp [IncludeItem.encode]), hfields, takeParts_slices]
    simp [mainInstrs, bind, Except.bind, pure, Except.pure]

/-- Separate properties have slots of their own. -/
theorem nodup_slots (ht : t.Placed) {ps : List (PropDef EdgeLayout)} (hsub : ps.Sublist t.props)
    (hsep : ∀ p ∈ ps, p.isMain = false) : (ps.map fun p => p.slot?.getD 0).Nodup := by
  have hslots : ps.filterMap (·.slot?) = ps.map fun p => p.slot?.getD 0 := by
    rw [← List.filterMap_eq_map]
    refine List.filterMap_congr fun p hp => ?_
    obtain ⟨slot, hslot⟩ := PropDef.isMain_eq_false_iff.1 (hsep p hp)
    simp [hslot]
  exact hslots ▸ ht.slots.sublist (hsub.filterMap _)

theorem nodup_everythingFields (ht : t.Placed) : ((everythingFields t).map fun p => p.slot?.getD 0).Nodup :=
  nodup_slots ht (List.filter_sublist.trans List.filter_sublist) fun p hp => by
    obtain ⟨-, -, slot, hslot⟩ := mem_everythingFields hp
    exact PropDef.isMain_of_slot? hslot

theorem length_mainInstrs_le (ht : t.Placed) (hk : t.Packed) (hn : n.main.length = t.mainLen) :
    ((mainInstrs n.main (everythingMain t)).flatMap Instr.encode).length ≤ 5 + t.mainLen := by
  rcases everythingMain_cases t with ⟨hmain, -⟩ | ⟨hmain, -⟩ | ⟨ps, hmain, hps, -⟩
  · rw [hmain, mainInstrs, List.flatMap_singleton, Instr.encode, List.length_cons, Wire.length_sized]
    omega
  · simp [hmain, mainInstrs]
  · obtain ⟨-, hsum, -⟩ := mainProps_spec ht hk hps
    have hslices : (ps.flatMap (·.slice n.main)).length ≤ (ps.map (·.len)).sum := by
      rw [List.length_flatMap]
      exact List.sum_le_sum fun p _ => List.length_take_le _ _
    rw [hmain, mainInstrs, List.flatMap_singleton, Instr.encode, List.length_cons, Wire.length_sized]
    omega

/-- A record is no longer than what its node holds. -/
theorem length_recordInstrs_le (ht : t.Placed) (hk : t.Packed) (hn : n.main.length = t.mainLen) (hsorted : Assoc.Sorted n.fields)
    (hfields : ∀ p ∈ everythingFields t,
      ((payloadInstrs schema n p).flatMap Instr.encode).length ≤ contentSize (n.field? (p.slot?.getD 0))) :
    ((recordInstrs schema t n).flatMap Instr.encode).length ≤ 5 + t.mainLen + n.size := by
  have hmain := length_mainInstrs_le ht hk hn
  have hall := n.sum_contentSize_le hsorted (nodup_everythingFields ht)
  have heach : (((everythingFields t).flatMap (payloadInstrs schema n)).flatMap Instr.encode).length ≤
      (((everythingFields t).map fun p => p.slot?.getD 0).map fun slot => contentSize (n.field? slot)).sum := by
    rw [List.flatMap_assoc, List.length_flatMap, List.map_map]
    exact List.sum_le_sum hfields
  rw [recordInstrs, List.flatMap_append, List.length_append]
  omega

/-! ### Answers -/

theorem encodeItems_append (is js : List IncludeItem) :
    IncludeItem.encodeAll (is ++ js) = IncludeItem.encodeAll is ++ IncludeItem.encodeAll js := by
  induction is with
  | nil => rfl
  | cons i is ih => rw [List.cons_append, IncludeItem.encodeAll, IncludeItem.encodeAll, ih, List.append_assoc]

theorem length_everythingItems_lt (ht : t.Placed) (hk : t.Packed) :
    (Query.encodeIncludes (everythingItems t)).length < 2 ^ 32 := by
  have hfields : (IncludeItem.encodeAll ((everythingFields t).map fun p =>
      .field (p.slot?.getD 0) p.type.tag Locale.none)).length = 4 * (everythingFields t).length := by
    generalize everythingFields t = ps
    induction ps with
    | nil => rfl
    | cons p ps ih =>
      rw [List.map_cons, IncludeItem.encodeAll, List.length_append, ih, List.length_cons, IncludeItem.encode]
      simp only [List.length_cons, List.length_nil]
      omega
  -- There are 256 slots.
  have hcount : (everythingFields t).length ≤ 256 := by
    have hnodup := nodup_everythingFields ht
    have hslots : ∀ slot : UInt8, slot ∈ (List.range 256).map UInt8.ofNat := fun slot =>
      List.mem_map.2 ⟨slot.toNat, List.mem_range.2 slot.toNat_lt, UInt8.ofNat_toNat⟩
    have hsubperm := (List.Nodup.subperm hnodup fun slot _ => hslots slot).length_le
    simpa using hsubperm
  have hmain : (IncludeItem.encodeAll (Query.Includes.mainItem (everythingMain t))).length ≤ 3 + 6 * t.mainLen := by
    rcases everythingMain_cases t with ⟨hmain, -⟩ | ⟨hmain, -⟩ | ⟨ps, hmain, hps, -⟩
    · simp [hmain, Query.Includes.mainItem, IncludeItem.encodeAll, IncludeItem.encode]
    · simp [hmain, Query.Includes.mainItem, IncludeItem.encodeAll]
    · obtain ⟨-, -, hcount⟩ := mainProps_spec ht hk hps
      rw [hmain, Query.Includes.mainItem, IncludeItem.encodeAll, IncludeItem.encodeAll, IncludeItem.encode]
      simp [List.length_flatMap, Function.comp_def, List.map_const']
      omega
  have hroom := ht.room
  have hmax : Limits.maxMainLength = 65535 := rfl
  rw [Query.encodeIncludes, everythingItems, encodeItems_append, List.length_append]
  omega

theorem reads_request (ht : schema.typeById? t.id = some t) (store : Store) (id : NodeId) :
    Reads (readRequest schema store) (Query.opId :: leBytes 2 t.id.toNat ++ leBytes 4 id.toNat) ⟨t, [id], none, false⟩ := by
  rw [← List.singleton_append, List.append_assoc]
  refine (reads_ofRead (.byte _ _)).bind ?_
  refine (reads_ofRead (.u16 _ _)).bind ?_
  have hlayout : layoutOf schema t.id = .ok t := by rw [layoutOf, ht]
  rw [← List.nil_append (leBytes 4 id.toNat)]
  refine (reads_ofExcept hlayout).bind ?_
  rw [if_pos rfl]
  exact (reads_ofRead (.u32 _ _)).bind_pure (.pure _)

theorem reads_requestBody (filter includes aggregates : Bytes) (hfilter : filter.length < 2 ^ 32)
    (hincludes : includes.length < 2 ^ 32) (haggregates : aggregates.length < 2 ^ 32) :
    Reads readRequestBody (Query.SortSpec.encode none ++ (Wire.sized filter ++ (Wire.sized includes ++ Wire.sized aggregates)))
      ⟨none, filter, includes, aggregates⟩ := by
  have hsort : Reads Query.SortSpec.read (Query.SortSpec.encode none) none := (Reads.byte _ 0).bind_pure (.pure _)
  exact hsort.bind ((Reads.sized hfilter _).bind ((Reads.sized hincludes _).bind ((Reads.sized haggregates _).bind_pure (.pure _))))

/-- The answer to the query for all fields of a node is its record. -/
theorem query_everything {m : Memory} (htype : m.schema.typeById? t.id = some t) (ht : t.Placed) (hk : t.Packed)
    (hnode : m.store.node? t.id id = some n) (hn : n.main.length = t.mainLen) {bytes : Bytes}
    (hbytes : bytes = Query.opId :: leBytes 2 t.id.toNat ++ leBytes 4 id.toNat ++ Query.SortSpec.encode none ++ Wire.sized [] ++
        Wire.sized (Query.encodeIncludes (everythingItems t)) ++ Wire.sized []) :
    m.query bytes =
      .ok (leBytes 4 1 ++ Result.frame id ((recordInstrs m.schema t n).flatMap Instr.encode ++ Instr.stop.encode)) := by
  have hparts : Reads (readQuery m.schema m.store) (_ ++ _) _ := (reads_request htype m.store id).bind
    ((reads_ofRead (reads_requestBody [] _ [] (by decide) (length_everythingItems_lt ht hk) (by decide))).bind_pure
      (.pure _))
  have hread : (readQuery m.schema m.store).run bytes =
      .ok (⟨t, [id], none, false⟩, ⟨none, [], Query.encodeIncludes (everythingItems t), []⟩) := by
    have hrun := hparts 0 []
    rw [List.append_nil] at hrun
    rw [hbytes, Scan.run]
    simp only [Wire.Reader.ofBytes, List.append_assoc] at hrun ⊢
    rw [hrun]
  have hsubjects : subjects m.store ⟨t, [id], none, false⟩ = [⟨t, id, n, none⟩] := by
    simp [subjects, hnode]
  have hpassing : passing m.schema m.store [] [⟨t, id, n, none⟩] = .ok [⟨t, id, n, none⟩] := by
    have hpass : Subject.passes m.schema m.store ⟨t, id, n, none⟩ [] = .ok true := by
      rw [Subject.passes, holdsFrom]
      rfl
    simp [passing, List.filterM, List.filterAuxM, hpass, bind, Except.bind, pure, Except.pure]
  have hrecord : record m.schema m.store (Query.encodeIncludes (everythingItems t)) ⟨t, id, n, none⟩ =
      .ok (Result.frame id ((recordInstrs m.schema t n).flatMap Instr.encode ++ Instr.stop.encode)) := by
    rw [record, recordBody_everything ht hk hn]
    rfl
  have hanswer : answer m.schema m.store bytes =
      .ok (leBytes 4 1 ++ Result.frame id ((recordInstrs m.schema t n).flatMap Instr.encode ++ Instr.stop.encode)) := by
    unfold answer
    refine Except.bind_eq_ok.2 ⟨_, hread, ?_⟩
    dsimp only
    rw [hsubjects]
    refine Except.bind_eq_ok.2 ⟨_, hpassing, ?_⟩
    simp [arrange, hrecord, bind, Except.bind, pure, Except.pure]
  rw [Memory.query, hanswer]

end

end NodeStore.Engine
