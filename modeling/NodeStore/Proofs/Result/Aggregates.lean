import NodeStore.Proofs.Engine.MainBlocks
import NodeStore.Proofs.Engine.Scans
import NodeStore.Proofs.Record.Paths
import NodeStore.Proofs.Write.ReadBack
import NodeStore.Result.Answer

/-!
# Aggregates that are read back

The engine computes every requested aggregate over each group, and the decoded record of a group holds all of them: the
count of nodes under its name, and any other value below the path of its field.

* `Aggregate.compile_eq_ok`, `reads_tally`: the descriptor, which the engine gets back.
* `results_eq`: the results over a group stand in the order of the request.
* `reads_group`, `readGroups_spec`: the groups of an answer.
* `Tallied`: the record of a group holds the value of an aggregate; `decodeAggregates_tallied`.
-/

namespace NodeStore

open Query (Aggregate AggregateKind AggregateResult GroupBy fieldHeader)
open Wire (Reads)

/-! ## The descriptor -/

namespace Engine.FieldSpec

/-- The place of a property. -/
def ofProp (p : PropDef EdgeLayout) : FieldSpec :=
  ⟨p.slot?.getD Limits.mainSlot, some p.type, p.offset?.getD 0, if p.isMain then p.len else 0⟩

/-- The place that stands for the nodes themselves. -/
def nodes : FieldSpec := ⟨Limits.mainSlot, none, 0, 0⟩

theorem reads_of {f : FieldSpec} {tag : UInt8} (htag : PropType.ofTag? tag = f.type) (hstart : f.start < 2 ^ 32)
    (hwidth : f.width < 2 ^ 16) :
    Reads FieldSpec.read (f.slot :: tag :: leBytes 4 f.start ++ leBytes 2 f.width) f := by
  have hread : Reads FieldSpec.read ([f.slot] ++ ([tag] ++ (leBytes 4 f.start ++ leBytes 2 f.width)))
      ⟨f.slot, PropType.ofTag? tag, f.start, f.width⟩ :=
    (Reads.byte "aggregate slot" f.slot).bind <| (Reads.byte "aggregate type" tag).bind <|
      (Reads.nat hstart "aggregate start").bind <| (Reads.nat hwidth "aggregate len").bind_pure (.pure _)
  rwa [htag] at hread

theorem reads_nodes : Reads FieldSpec.read ([Limits.mainSlot, 0] ++ leBytes 4 0 ++ leBytes 2 0) nodes :=
  reads_of (f := nodes) rfl (by decide) (by decide)

theorem reads_fieldHeader {t : TypeLayout} (ht : t.Placed) {p : PropDef EdgeLayout} (hp : p ∈ t.props) :
    Reads FieldSpec.read (fieldHeader p) (ofProp p) := by
  have hroom := ht.room
  have hmax : Limits.maxMainLength = 65535 := rfl
  have hfits : (ofProp p).start < 2 ^ 32 ∧ (ofProp p).width < 2 ^ 16 := by
    cases hloc : p.location with
    | main offset =>
      have hin := ht.inside p hp offset (by simp [PropDef.offset?, hloc])
      simp only [ofProp, PropDef.offset?, PropDef.isMain, hloc, Option.getD_some, if_true]
      omega
    | separate slot => simp [ofProp, PropDef.offset?, PropDef.isMain, hloc]
  exact reads_of (f := ofProp p) (PropType.ofTag?_tag _) hfits.1 hfits.2

end Engine.FieldSpec

namespace Query

open Engine (FieldSpec TallySpec Grouping)

variable {t : TypeLayout} {a : Aggregate}

namespace Aggregate

/-- The property that an aggregate is taken over; the count of nodes has none. -/
def prop? (t : TypeLayout) (a : Aggregate) : Option (PropDef EdgeLayout) := a.field.bind t.prop?

/-- The place of its field. -/
def spec (t : TypeLayout) (a : Aggregate) : FieldSpec := ((a.prop? t).map .ofProp).getD .nodes

def header (t : TypeLayout) (a : Aggregate) : Bytes :=
  ((a.prop? t).map fieldHeader).getD ([Limits.mainSlot, 0] ++ leBytes 4 0 ++ leBytes 2 0)

/-- How its result is read. -/
def result (t : TypeLayout) (a : Aggregate) : AggregateResult := ⟨a.kind, ((a.prop? t).map (·.path)).getD []⟩

/-- The path under which its result is stored. -/
def path (t : TypeLayout) (a : Aggregate) : List String := ((a.prop? t).map (·.path)).getD [] ++ [a.kind.name]

/-- Only a count needs no field, and a field has to support the aggregate. -/
def Accepted (t : TypeLayout) (a : Aggregate) : Prop :=
  match a.field with
  | none => a.kind = .count
  | some field => ∃ p, t.prop? field = some p ∧ a.kind.supports p = true

theorem compile_eq_ok {index : Nat} {r : Bytes × AggregateResult} :
    a.compile t index = .ok r ↔
      a.Accepted t ∧ r = (a.kind.code :: a.header t ++ leBytes 2 index, a.result t) := by
  obtain ⟨kind, field⟩ := a
  cases field with
  | none =>
    cases kind
    case count => exact ⟨fun h => ⟨rfl, (Except.ok.inj h).symm⟩, fun h => congrArg Except.ok h.2.symm⟩
    all_goals exact ⟨nofun, fun h => nomatch h.1⟩
  | some field =>
    unfold Aggregate.compile fieldNamed
    dsimp only
    cases hp : t.prop? field with
    | none => exact ⟨nofun, fun ⟨⟨_, hp', _⟩, _⟩ => absurd (hp.symm.trans hp') nofun⟩
    | some p =>
      have hheader : header t ⟨kind, some field⟩ = fieldHeader p := by simp [header, prop?, hp]
      have hresult : result t ⟨kind, some field⟩ = ⟨kind, p.path⟩ := by simp [result, prop?, hp]
      rw [hheader, hresult]
      change (if !kind.supports p then _ else _) = _ ↔ _
      cases hs : kind.supports p with
      | false =>
        refine ⟨nofun, fun ⟨⟨q, hq, hsupports⟩, _⟩ => ?_⟩
        cases hp.symm.trans hq
        exact absurd (hs.symm.trans hsupports) nofun
      | true => exact ⟨fun h => ⟨⟨p, hp, hs⟩, (Except.ok.inj h).symm⟩, fun h => congrArg Except.ok h.2.symm⟩

theorem reads_header (ht : t.Placed) (a : Aggregate) : Reads FieldSpec.read (a.header t) (a.spec t) := by
  rw [header, spec]
  cases hp : a.prop? t with
  | none => exact FieldSpec.reads_nodes
  | some p =>
    obtain ⟨field, -, hfield⟩ := Option.bind_eq_some_iff.1 hp
    exact FieldSpec.reads_fieldHeader ht (List.mem_of_find?_eq_some hfield)

end Aggregate

/-- Some aggregates as the engine reads them; their results are numbered from an index on. -/
def tallySpecs (t : TypeLayout) : Nat → List Aggregate → List TallySpec
  | _, [] => []
  | index, a :: as => ⟨a.kind.code, a.spec t, index⟩ :: tallySpecs t (index + 1) as

/-- The bytes of some aggregates, numbered from an index on. -/
def tallyBytes (t : TypeLayout) : Nat → List Aggregate → Bytes
  | _, [] => []
  | index, a :: as => a.kind.code :: a.header t ++ leBytes 2 index ++ tallyBytes t (index + 1) as

/-- Some aggregates compile if each is accepted. -/
theorem mapM_compile {as : List Aggregate} {index : Nat} {compiled : List (Bytes × AggregateResult)}
    (h : (as.zipIdx index).mapM (fun (a, i) => a.compile t i) = .ok compiled) :
    (∀ a ∈ as, a.Accepted t) ∧ compiled.flatMap (·.1) = tallyBytes t index as ∧ compiled.map (·.2) = as.map (·.result t) := by
  induction as generalizing index compiled with
  | nil =>
    cases h
    exact ⟨nofun, rfl, rfl⟩
  | cons a as ih =>
    rw [List.zipIdx_cons, List.mapM_cons] at h
    obtain ⟨r, hr, h⟩ := Except.bind_eq_ok.1 h
    obtain ⟨rs, hrs, h⟩ := Except.bind_eq_ok.1 h
    cases h
    obtain ⟨hall, hbytes, hresults⟩ := ih hrs
    obtain ⟨haccepted, rfl⟩ := Aggregate.compile_eq_ok.1 hr
    refine ⟨List.forall_mem_cons.2 ⟨haccepted, hall⟩, ?_, ?_⟩
    · rw [List.flatMap_cons, hbytes]
      rfl
    · rw [List.map_cons, hresults]
      rfl

/-- How the groups of a request are told apart, once its field is known. -/
def GroupBy.grouping (g : GroupBy) (p : PropDef EdgeLayout) : Grouping := ⟨.ofProp p, g.bucket % 2 ^ 64⟩

/-- What the grouping of a request is compiled to. -/
theorem GroupBy.compile_eq_ok {group : Option GroupBy} {header : Bytes} {plan : Option (PropDef EdgeLayout × Nat)}
    (h : GroupBy.compile t group = .ok (header, plan)) :
    (group = none ∧ header = [0] ∧ plan = none) ∨
      ∃ g p, group = some g ∧ t.prop? g.field = some p ∧ g.supports p = true ∧
        header = 1 :: fieldHeader p ++ leBytes 8 g.bucket ∧ plan = some (p, g.bucket) := by
  cases group with
  | none =>
    cases h
    exact .inl ⟨rfl, rfl, rfl⟩
  | some g =>
    obtain ⟨p, hp, h⟩ := Except.bind_eq_ok.1 h
    unfold fieldNamed at hp
    split at hp
    · rename_i p' hp'
      cases hp
      cases hs : g.supports p with
      | false => simp [hs, bind, Except.bind, throw, throwThe, MonadExceptOf.throw] at h
      | true =>
        simp only [hs] at h
        cases h
        exact .inr ⟨g, p, rfl, hp', hs, rfl, rfl⟩
    · cases hp

end Query

namespace Engine

open Query (tallySpecs tallyBytes)

variable {t : TypeLayout}

theorem reads_specs (ht : t.Placed) {count : Nat} (hcount : count < 2 ^ 16) (as : List Aggregate) {index : Nat}
    (hindex : index + as.length ≤ count) :
    Reads (readSpecs count as.length) (tallyBytes t index as) (tallySpecs t index as) := by
  induction as generalizing index with
  | nil => exact .pure _
  | cons a as ih =>
    rw [List.length_cons] at hindex
    have hrest := @ih (index + 1) (by omega)
    rw [tallyBytes, List.append_assoc]
    change Reads (readSpecs count (as.length + 1)) ([a.kind.code] ++ (a.header t ++ (leBytes 2 index ++ _))) _
    refine (reads_ofRead (.byte _ _)).bind ?_
    refine (reads_ofRead (a.reads_header ht)).bind ?_
    refine (reads_ofRead (.nat (by omega) _)).bind ?_
    rw [if_neg (by omega)]
    exact hrest.bind_pure (.pure _)

theorem reads_grouping (ht : t.Placed) {group : Option GroupBy} {header : Bytes} {plan : Option (PropDef EdgeLayout × Nat)}
    (h : GroupBy.compile t group = .ok (header, plan)) :
    Reads readGrouping header (plan.map fun x => ⟨.ofProp x.1, x.2 % 2 ^ 64⟩) := by
  rcases GroupBy.compile_eq_ok h with ⟨-, rfl, rfl⟩ | ⟨g, p, -, hp, -, rfl, rfl⟩
  · exact (reads_ofRead (.byte _ _)).bind_pure (.pure _)
  · rw [← List.singleton_append, List.append_assoc]
    refine (reads_ofRead (.byte _ _)).bind ?_
    refine (reads_ofRead (FieldSpec.reads_fieldHeader ht (List.mem_of_find?_eq_some hp))).bind ?_
    exact (reads_ofRead (.nat_mod 8 g.bucket _)).bind_pure (.pure _)

/-- The engine gets back the grouping and the aggregates. -/
theorem readTally_eq_ok (ht : t.Placed) {as : List Aggregate} (has : as.length < 2 ^ 16) {group : Option GroupBy}
    {descriptor : Bytes} {plan : Query.AggregatePlan} (h : Query.compileAggregates t as group = .ok (descriptor, plan)) :
    (∀ a ∈ as, a.Accepted t) ∧ plan.results = as.map (·.result t) ∧
      (∃ header, GroupBy.compile t group = .ok (header, plan.group)) ∧
      readTally.run descriptor = .ok (plan.group.map fun x => ⟨.ofProp x.1, x.2 % 2 ^ 64⟩, tallySpecs t 0 as) := by
  obtain ⟨⟨header, group'⟩, hgroup, h⟩ := Except.bind_eq_ok.1 h
  obtain ⟨compiled, hcompiled, h⟩ := Except.bind_eq_ok.1 h
  cases h
  obtain ⟨haccepted, hbytes, hresults⟩ := Query.mapM_compile hcompiled
  have hlength : compiled.length = as.length := by
    have := congrArg List.length hresults
    simpa using this
  refine ⟨haccepted, hresults, ⟨header, hgroup⟩, ?_⟩
  have hread : Reads readTally (header ++ (leBytes 2 as.length ++ tallyBytes t 0 as)) _ :=
    (reads_grouping ht hgroup).bind <| (reads_ofRead (.nat has "aggregate count")).bind <|
      (reads_specs ht has as (Nat.le_of_eq (Nat.zero_add _))).bind_pure (.pure _)
  have hrun := hread 0 []
  rw [List.append_nil] at hrun
  rw [hbytes, hlength, List.append_assoc, Scan.run, Wire.Reader.ofBytes, hrun]

/-! ## Results over a group -/

/-- Results stand in the order of the request. -/
theorem results_eq (as : List Aggregate) (nodes : List StoredNode) :
    results (tallySpecs t 0 as) nodes = as.mapM fun a => compute a.kind.code (a.spec t) nodes := by
  have hlength : ∀ index, (tallySpecs t index as).length = as.length := by
    induction as with
    | nil => exact fun _ => rfl
    | cons a as ih => exact fun index => congrArg (· + 1) (ih _)
  -- Those of the first aggregates are known, and there is room for the others.
  suffices hgo : ∀ known : List Nat,
      (tallySpecs t known.length as).foldlM (fun values s => return values.set s.result (← compute s.kind s.field nodes))
        (known ++ List.replicate as.length 0) = (known ++ ·) <$> as.mapM fun a => compute a.kind.code (a.spec t) nodes by
    have hzero := hgo []
    rw [results, hlength]
    simpa using hzero
  clear hlength
  induction as with
  | nil =>
    intro known
    simp [tallySpecs, pure, Except.pure, Functor.map, Except.map]
  | cons a as ih =>
    intro known
    rw [tallySpecs, List.foldlM_cons, List.mapM_cons]
    cases hvalue : compute a.kind.code (a.spec t) nodes with
    | error e => rfl
    | ok value =>
      have hset : (known ++ List.replicate (as.length + 1) 0).set known.length value =
          (known ++ [value]) ++ List.replicate as.length 0 := by
        simp [List.replicate_succ]
      have hrest := ih (known ++ [value])
      rw [List.length_append, List.length_singleton] at hrest
      simp only [List.length_cons, hset, bind, Except.bind, pure, Except.pure] at hrest ⊢
      rw [hrest]
      cases as.mapM fun a => compute a.kind.code (a.spec t) nodes <;> simp [Functor.map, Except.map]

/-- The bytes of a group with its results. -/
def groupBytes (g : Bytes × List Nat) : Bytes := Wire.sized g.1 ++ g.2.flatMap (leBytes 8)

/-- An answer holds the groups with their keys and the results over each. -/
theorem tally_eq_ok {descriptor bytes : Bytes} {nodes : List StoredNode} {grouping : Option Grouping} {as : List Aggregate}
    (hread : readTally.run descriptor = .ok (grouping, tallySpecs t 0 as)) (h : tally descriptor nodes = .ok bytes) :
    ∃ groups, List.Forall₂ (fun g out => out.1 = g.1 ∧ as.mapM (fun a => compute a.kind.code (a.spec t) g.2) = .ok out.2)
        (groupsOf grouping nodes) groups ∧ bytes = leBytes 4 groups.length ++ groups.flatMap groupBytes := by
  unfold tally at h
  obtain ⟨_, hspecs, h⟩ := Except.bind_eq_ok.1 h
  cases hread.symm.trans hspecs
  obtain ⟨parts, hparts, h⟩ := Except.bind_eq_ok.1 h
  cases h
  suffices hgo : ∀ (gs : List (Bytes × List StoredNode)) (parts : List Bytes),
      gs.mapM (groupAnswer (tallySpecs t 0 as)) = .ok parts → ∃ groups,
        List.Forall₂ (fun g out => out.1 = g.1 ∧ as.mapM (fun a => compute a.kind.code (a.spec t) g.2) = .ok out.2) gs groups ∧
          parts.flatten = groups.flatMap groupBytes by
    obtain ⟨groups, hgroups, hbytes⟩ := hgo _ _ hparts
    exact ⟨groups, hgroups, by rw [hbytes, hgroups.length_eq]⟩
  intro gs
  induction gs with
  | nil =>
    intro parts hparts
    cases hparts
    exact ⟨[], .nil, rfl⟩
  | cons g gs ih =>
    intro parts hparts
    rw [List.mapM_cons] at hparts
    obtain ⟨part, hpart, hparts⟩ := Except.bind_eq_ok.1 hparts
    obtain ⟨rest, hrest, hparts⟩ := Except.bind_eq_ok.1 hparts
    cases hparts
    obtain ⟨values, hvalues, hpart⟩ := Except.bind_eq_ok.1 hpart
    cases hpart
    rw [results_eq] at hvalues
    obtain ⟨groups, hgroups, hbytes⟩ := ih rest hrest
    exact ⟨(g.1, values) :: groups, .cons ⟨rfl, hvalues⟩ hgroups, by rw [List.flatten_cons, hbytes]; rfl⟩

end Engine

/-! ## Reading the groups -/

namespace Result

open Engine (StoredNode FieldSpec compute groupBytes)

variable {t : TypeLayout}

/-- The value of a result depends on its 64 bits only. -/
theorem aggregateValue_mod (kind : AggregateKind) (raw : Nat) :
    aggregateValue kind (raw % 2 ^ 64) = aggregateValue kind raw := by
  have hint : Int64.ofInt ((raw % 2 ^ 64 : Nat) : Int) = Int64.ofInt raw := by
    apply Int64.toBitVec_inj.1
    change BitVec.ofInt 64 _ = BitVec.ofInt 64 _
    rw [BitVec.ofInt_natCast, BitVec.ofInt_natCast]
    exact BitVec.eq_of_toNat_eq (by simp)
  have hnat : UInt64.ofNat (raw % 2 ^ 64) = UInt64.ofNat raw := by
    apply UInt64.toNat_inj.1
    simp
  unfold aggregateValue
  rw [hint, hnat]

/-- A result is stored at its path. -/
theorem putAggregate_eq (ha : t.Addressed) {a : Aggregate} (h : a.Accepted t) (r : Record) (raw : Nat) :
    putAggregate r (a.result t) raw = Record.insertPath (aggregateValue a.kind raw) (a.path t) r := by
  obtain ⟨kind, field⟩ := a
  cases field with
  | none =>
    obtain rfl : kind = .count := h
    rfl
  | some field =>
    obtain ⟨p, hp, -⟩ := h
    have hne : p.path.isEmpty = false := by
      simpa using ha.path_ne_nil (List.mem_of_find?_eq_some hp)
    simp [putAggregate, Aggregate.result, Aggregate.path, Aggregate.prop?, hp, hne]

/-- The results of a group, each with the path that it is stored at. -/
def storedResults (t : TypeLayout) (as : List Aggregate) (values : List Nat) : List (List String × Value) :=
  (as.zip values).map fun e => (e.1.path t, aggregateValue e.1.kind e.2)

theorem reads_results (ha : t.Addressed) {as : List Aggregate} (has : ∀ a ∈ as, a.Accepted t) {values : List Nat}
    (hlength : values.length = as.length) (r : Record) :
    Reads ((as.map (·.result t)).foldlM
        (fun r a => return putAggregate r a (← Wire.Read.nat 8 "aggregate value") : Record → _ → Wire.Read Record) r)
      (values.flatMap (leBytes 8)) (Record.insertAll (storedResults t as values) r) := by
  induction as generalizing values r with
  | nil =>
    obtain rfl := List.length_eq_zero_iff.1 hlength
    exact .pure _
  | cons a as ih =>
    obtain ⟨value, values, rfl⟩ := List.exists_cons_of_length_eq_add_one hlength
    have hput := putAggregate_eq ha (has a List.mem_cons_self) r (value % 2 ^ 64)
    rw [aggregateValue_mod] at hput
    have hfirst : Reads (do return putAggregate r (a.result t) (← Wire.Read.nat 8 "aggregate value"))
        (leBytes 8 value) (Record.insertPath (aggregateValue a.kind value) (a.path t) r) := by
      rw [← hput]
      exact (Reads.nat_mod 8 value _).bind_pure (.pure _)
    rw [List.map_cons, List.foldlM_cons, List.flatMap_cons]
    exact hfirst.bind (ih (fun b hb => has b (List.mem_cons_of_mem _ hb)) (Nat.succ.inj hlength) _)

/-- The record of a group. -/
def groupRecord (t : TypeLayout) (as : List Aggregate) (values : List Nat) : Record :=
  Record.insertAll (storedResults t as values) .empty

theorem reads_group (ha : t.Addressed) {as : List Aggregate} (has : ∀ a ∈ as, a.Accepted t) {g : Bytes × List Nat}
    (hlength : g.2.length = as.length) (hkey : g.1.length < 2 ^ 32) :
    Reads (readGroup (as.map (·.result t))) (groupBytes g) (g.1, groupRecord t as g.2) :=
  (Reads.sized hkey _).bind ((reads_results ha has hlength _).bind_pure (.pure _))

/-- The groups of an answer are read back under their labels. -/
theorem readGroups_spec (ha : t.Addressed) {as : List Aggregate} (has : ∀ a ∈ as, a.Accepted t) {p : PropDef EdgeLayout}
    {bucket : Nat} {groups : List (Bytes × List Nat)} (hgroups : ∀ g ∈ groups, g.2.length = as.length ∧ g.1.length < 2 ^ 32)
    {pos : Nat} {out : List (String × Record)} {r : Wire.Reader}
    (h : readGroups (as.map (·.result t)) p bucket groups.length ⟨pos, groups.flatMap groupBytes⟩ = .ok out r) :
    List.Forall₂ (fun g x => groupLabel p bucket g.1 = .ok x.1 ∧ x.2 = groupRecord t as g.2) groups out := by
  induction groups generalizing pos out with
  | nil =>
    cases h
    exact .nil
  | cons g groups ih =>
    obtain ⟨hlength, hkey⟩ := hgroups g List.mem_cons_self
    have hread := reads_group ha has hlength hkey pos (groups.flatMap groupBytes)
    rw [List.flatMap_cons, List.length_cons, readGroups, EStateM.bind_of_ok hread] at h
    cases hlabel : groupLabel p bucket g.1 with
    | error e =>
      simp only [hlabel] at h
      cases h
    | ok label =>
      simp only [hlabel] at h
      obtain ⟨rest, r', hrest, h⟩ := EStateM.bind_eq_ok.1 h
      cases h
      exact .cons ⟨hlabel, rfl⟩ (ih (fun g hg => hgroups g (List.mem_cons_of_mem _ hg)) hrest)

/-- Labels that do not repeat are all different. -/
theorem repeats_eq_false_iff {labels : List String} : repeats labels = false ↔ labels.Nodup := by
  induction labels with
  | nil => exact ⟨fun _ => .nil, fun _ => rfl⟩
  | cons l ls ih => simp [repeats, ih]

/-- The answer without groups is read to the one record. -/
theorem decodeAggregates_whole (ha : t.Addressed) {as : List Aggregate} (has : ∀ a ∈ as, a.Accepted t)
    {plan : Query.AggregatePlan} (hresults : plan.results = as.map (·.result t)) (hplan : plan.group = none)
    {g : Bytes × List Nat} (hg : g.2.length = as.length ∧ g.1.length < 2 ^ 32) :
    decodeAggregates plan (leBytes 4 1 ++ groupBytes g) = .ok (groupRecord t as g.2) := by
  have htotal := Reads.nat (w := 4) (n := 1) (by decide) "aggregate groups" 0 (groupBytes g)
  have hone := reads_group ha has hg.1 hg.2 (0 + (leBytes 4 1).length) []
  rw [List.append_nil, ← hresults] at hone
  rw [decodeAggregates, Wire.Read.run, readAggregates, Wire.Reader.ofBytes, EStateM.bind_of_ok htotal, hplan]
  dsimp only
  rw [if_neg (by decide), EStateM.bind_of_ok hone]
  rfl

/-- An answer with groups that can be read has them under labels that are all different. -/
theorem decodeAggregates_groups (ha : t.Addressed) {as : List Aggregate} (has : ∀ a ∈ as, a.Accepted t)
    {plan : Query.AggregatePlan} (hresults : plan.results = as.map (·.result t)) {p : PropDef EdgeLayout} {bucket : Nat}
    (hplan : plan.group = some (p, bucket)) {groups : List (Bytes × List Nat)} (hlength : groups.length < 256 ^ 4)
    (hgroups : ∀ g ∈ groups, g.2.length = as.length ∧ g.1.length < 2 ^ 32) {r : Record}
    (h : decodeAggregates plan (leBytes 4 groups.length ++ groups.flatMap groupBytes) = .ok r) :
    ∃ out : List (String × Record), (out.map (·.1)).Nodup ∧ r = Record.ofList (out.map fun x => (x.1, .object x.2)) ∧
      List.Forall₂ (fun g x => groupLabel p bucket g.1 = .ok x.1 ∧ x.2 = groupRecord t as g.2) groups out := by
  have htotal := Reads.nat hlength "aggregate groups" 0 (groups.flatMap groupBytes)
  rw [decodeAggregates, Wire.Read.run, readAggregates, Wire.Reader.ofBytes, EStateM.bind_of_ok htotal, hplan, hresults] at h
  dsimp only at h
  split at h
  · rename_i record reader hrun
    cases h
    obtain ⟨out, reader', hout, hrun⟩ := EStateM.bind_eq_ok.1 hrun
    obtain ⟨_, _, -, hrun⟩ := EStateM.bind_eq_ok.1 hrun
    split at hrun
    · cases hrun
    · split at hrun
      · cases hrun
      · rename_i hrepeats
        cases hrun
        exact ⟨out, repeats_eq_false_iff.1 (by simpa using hrepeats), rfl, readGroups_spec ha has hgroups hout⟩
  · cases h

/-! ## Nothing is lost -/

/-- The record of a group holds the value of an aggregate over its nodes: their number under the name of the count, any
other value under the path of its field with the name of the aggregate behind it. -/
inductive Tallied (t : TypeLayout) (nodes : List StoredNode) (r : Record) : Aggregate → Prop where
  | count {raw : Nat} (hraw : compute AggregateKind.count.code .nodes nodes = .ok raw)
      (hvalue : r.lookup [AggregateKind.count.name] = some (aggregateValue .count raw)) : Tallied t nodes r ⟨.count, none⟩
  | field {kind : AggregateKind} {field : String} {p : PropDef EdgeLayout} {raw : Nat} (hp : t.prop? field = some p)
      (hraw : compute kind.code (.ofProp p) nodes = .ok raw)
      (hvalue : r.lookup (p.path ++ [kind.name]) = some (aggregateValue kind raw)) : Tallied t nodes r ⟨kind, some field⟩

/-- The count of nodes is not asked for together with an aggregate over a field whose path begins with its name. -/
def CountApart (as : List Aggregate) : Prop :=
  ∀ a ∈ as, a.field = none → ∀ b ∈ as, ∀ field, b.field = some field → (Path.split field).head? ≠ some AggregateKind.count.name

theorem name_inj {k k' : AggregateKind} (h : k.name = k'.name) : k = k' := by
  revert h
  cases k <;> cases k' <;> decide

/-- Paths with one more segment do not meet if the paths or the segments do not. -/
theorem apart_snoc {p q : List String} {k k' : String} (h : (p = q ∧ k ≠ k') ∨ Path.Apart p q) :
    Path.Apart (p ++ [k]) (q ++ [k']) := by
  rcases h with ⟨rfl, hne⟩ | h
  · simp [Path.Apart, hne, hne.symm]
  · have hstep : ∀ {p q : List String} {k k' : String}, ¬p <+: q → ¬q <+: p → ¬p ++ [k] <+: q ++ [k'] := by
      intro p q k k' hpq hqp hprefix
      rcases List.prefix_concat_iff.1 hprefix with heq | hle
      · exact hpq (List.append_inj_left' heq rfl ▸ List.prefix_refl _)
      · exact hpq ((List.prefix_append p [k]).trans hle)
    exact ⟨hstep h.1 h.2, hstep h.2 h.1⟩

/-- Two aggregates of a request are the same, or are stored apart. -/
theorem same_or_apart (ha : t.Addressed) {as : List Aggregate} (has : ∀ a ∈ as, a.Accepted t) (hfree : CountApart as)
    {a b : Aggregate} (hmem : a ∈ as) (hmem' : b ∈ as) :
    (a.kind = b.kind ∧ a.prop? t = b.prop? t) ∨ Path.Apart (a.path t) (b.path t) := by
  have hfield : ∀ a ∈ as, (a.field = none ∧ a.kind = .count ∧ a.prop? t = none) ∨
      ∃ field p, a.field = some field ∧ a.prop? t = some p ∧ p ∈ t.props ∧ Path.split field = p.path := by
    intro a hmem
    have haccepted := has a hmem
    cases hfield : a.field with
    | none =>
      simp only [Aggregate.Accepted, hfield] at haccepted
      exact .inl ⟨rfl, haccepted, by simp [Aggregate.prop?, hfield]⟩
    | some field =>
      simp only [Aggregate.Accepted, hfield] at haccepted
      obtain ⟨p, hp, -⟩ := haccepted
      have hname : p.name = field := by simpa using List.find?_some hp
      exact .inr ⟨field, p, rfl, by simp [Aggregate.prop?, hfield, hp], List.mem_of_find?_eq_some hp,
        hname ▸ ha.name p (List.mem_of_find?_eq_some hp)⟩
  -- The count of nodes stands alone.
  have halone : ∀ {q : PropDef EdgeLayout} {k : String}, q ∈ t.props → q.path.head? ≠ some AggregateKind.count.name →
      Path.Apart [AggregateKind.count.name] (q.path ++ [k]) := by
    intro q k hq hhead
    obtain ⟨s, ss, hpath⟩ := List.exists_cons_of_ne_nil (ha.path_ne_nil hq)
    rw [hpath] at hhead ⊢
    have hne : AggregateKind.count.name ≠ s := fun he => hhead (he ▸ rfl)
    simp [Path.Apart, List.cons_prefix_cons, hne, hne.symm]
  rcases hfield a hmem with ⟨hnone, hkind, hp⟩ | ⟨field, p, hsome, hp, hprop, hpath⟩ <;>
    rcases hfield b hmem' with ⟨hnone', hkind', hq⟩ | ⟨field', q, hsome', hq, hprop', hpath'⟩
  · exact .inl ⟨hkind.trans hkind'.symm, hp.trans hq.symm⟩
  · have hhead := hfree a hmem hnone b hmem' field' hsome'
    refine .inr ?_
    rw [Aggregate.path, Aggregate.path, hp, hq, hkind]
    exact halone hprop' (hpath' ▸ hhead)
  · have hhead := hfree b hmem' hnone' a hmem field hsome
    refine .inr ?_
    rw [Aggregate.path, Aggregate.path, hp, hq, hkind']
    exact (halone hprop (hpath ▸ hhead)).symm
  · rw [Aggregate.path, Aggregate.path, hp, hq]
    by_cases hsame : p = q
    · subst hsame
      by_cases hkind : a.kind = b.kind
      · exact .inl ⟨hkind, rfl⟩
      · exact .inr (apart_snoc (.inl ⟨rfl, fun hname => hkind (name_inj hname)⟩))
    · exact .inr (apart_snoc (.inr ((ha.eq_or_apart hprop hprop').resolve_left hsame)))

/-- The record of a group holds every result. -/
theorem groupRecord_tallied (ha : t.Addressed) {as : List Aggregate} (has : ∀ a ∈ as, a.Accepted t) (hfree : CountApart as)
    {nodes : List StoredNode} {values : List Nat} (h : as.mapM (fun a => compute a.kind.code (a.spec t) nodes) = .ok values) :
    ∀ a ∈ as, Tallied t nodes (groupRecord t as values) a := by
  have hall := mapM_forall₂ h
  have hstored : ∀ e ∈ storedResults t as values, ∃ a ∈ as, ∃ raw, compute a.kind.code (a.spec t) nodes = .ok raw ∧
      e = (a.path t, aggregateValue a.kind raw) := by
    intro e he
    obtain ⟨⟨a, raw⟩, hzip, rfl⟩ := List.mem_map.1 he
    exact ⟨a, (List.of_mem_zip hzip).1, raw, (List.forall₂_iff_zip.1 hall).2 hzip, rfl⟩
  intro a hmem
  obtain ⟨raw, hzip⟩ : ∃ raw, (a, raw) ∈ as.zip values := by
    obtain ⟨i, hi, rfl⟩ := List.getElem_of_mem hmem
    have hi' : i < values.length := hall.length_eq ▸ hi
    exact ⟨values[i], List.mem_iff_getElem.2 ⟨i, by simp [hi, hi'], by simp⟩⟩
  have hraw := (List.forall₂_iff_zip.1 hall).2 hzip
  have hvalue : (groupRecord t as values).lookup (a.path t) = some (aggregateValue a.kind raw) := by
    refine Record.lookup_insertAll (by simp [Aggregate.path]) (fun e he => ?_) (List.mem_map.2 ⟨_, hzip, rfl⟩) _
    obtain ⟨b, hb, raw', hraw', rfl⟩ := hstored e he
    refine (same_or_apart ha has hfree hb hmem).imp_left fun ⟨hkind, hprop⟩ => ?_
    have hspec : b.spec t = a.spec t := by rw [Aggregate.spec, Aggregate.spec, hprop]
    rw [hkind, hspec] at hraw'
    cases hraw.symm.trans hraw'
    rw [Aggregate.path, Aggregate.path, hprop, hkind]
  have haccepted := has a hmem
  obtain ⟨kind, field⟩ := a
  cases field with
  | none =>
    obtain rfl : kind = .count := haccepted
    exact .count hraw hvalue
  | some field =>
    obtain ⟨p, hp, -⟩ := haccepted
    have hprop : Aggregate.prop? t ⟨kind, some field⟩ = some p := hp
    rw [Aggregate.spec, hprop] at hraw
    rw [Aggregate.path, hprop] at hvalue
    exact .field hp hraw hvalue

theorem length_groupBytes (g : Bytes × List Nat) : (groupBytes g).length = 4 + g.1.length + (g.2.flatMap (leBytes 8)).length := by
  rw [groupBytes, List.length_append, Wire.length_sized]

theorem length_groupBytes_pos (g : Bytes × List Nat) : 0 < (groupBytes g).length := by
  rw [length_groupBytes]
  omega

theorem length_groupBytes_le {groups : List (Bytes × List Nat)} {g : Bytes × List Nat} (hg : g ∈ groups) :
    g.1.length ≤ (groups.flatMap groupBytes).length := by
  have hle := Wire.length_le_flatMap_of_mem groupBytes hg
  rw [length_groupBytes] at hle
  omega

/-- A record is found under its label. -/
theorem get?_ofList {out : List (String × Record)} (h : (out.map (·.1)).Nodup) {x : String × Record} (hx : x ∈ out) :
    (Record.ofList (out.map fun y => (y.1, .object y.2))).get? x.1 = some (.object x.2) := by
  have hinsert : ∀ (es : List (String × Value)) (r : Record),
      es.foldl (fun m e => Assoc.insert e.1 e.2 m) r = Record.insertAll (es.map fun e => ([e.1], e.2)) r := by
    intro es
    induction es with
    | nil => exact fun _ => rfl
    | cons e es ih => exact fun r => ih _
  change Record.lookup (Assoc.ofList _) [x.1] = _
  rw [Assoc.ofList, hinsert]
  refine Record.lookup_insertAll (List.cons_ne_nil _ _) (fun e he => ?_) ?_ _
  · rw [List.map_map] at he
    obtain ⟨y, hy, rfl⟩ := List.mem_map.1 he
    by_cases hlabel : y.1 = x.1
    · exact .inl (by rw [List.inj_on_of_nodup_map h hy hx hlabel]; rfl)
    · refine .inr ?_
      have hne : x.1 ≠ y.1 := fun he => hlabel he.symm
      simp [Path.Apart, hlabel, hne]
  · rw [List.map_map]
    exact List.mem_map.2 ⟨x, hx, rfl⟩

/-- No requested aggregate is lost: where the answer to an aggregate query decodes, the record of each group holds all of
them, with the values that the engine computed over its nodes. The answer has to leave room for the lengths in it, which
have four bytes, and the count of nodes may not be asked for together with aggregates over a field that has its name. -/
theorem decodeAggregates_tallied {decl : SchemaDecl} {priority : Priority} {schema : SchemaLayout}
    (hcompile : decl.compile priority = .ok schema) {q : Query} {c : CompiledQuery} (hq : q.compile schema = .ok c)
    (hagg : q.isAggregate = true) (hcount : q.aggregates.length ≤ 65535) (hfree : CountApart q.aggregates)
    (hsize : c.bytes.length < 2 ^ 32) {m : Engine.Memory} (hschema : m.schema = schema) {bytes : Bytes}
    (hanswer : m.query c.bytes = .ok bytes) (hroom : bytes.length < 2 ^ 32) {r : Record}
    (hdecode : c.decodeAggregates bytes = .ok r) :
    ∃ t requested sort filter hits, q.Front schema t requested sort filter ∧
      Engine.passing schema m.store filter (Engine.everyNode m.store t) = .ok hits ∧
      let nodes := (Engine.arrange schema sort (some q.range) hits).map (·.node)
      match q.group with
      | none => ∀ a ∈ q.aggregates, Tallied t nodes r a
      | some g => ∃ p, t.prop? g.field = some p ∧ ∀ group ∈ Engine.groupsOf (some (g.grouping p)) nodes,
          ∃ label record, groupLabel p g.bucket group.1 = .ok label ∧ r.get? label = some (.object record) ∧
            ∀ a ∈ q.aggregates, Tallied t group.2 record a := by
  obtain ⟨t, requested, sort, filter, descriptor, plan, hfront, hdescriptor, rfl⟩ := Query.compile_aggregates hagg hq
  have hplaced := compile_placed hcompile
  have hmem : t ∈ schema.types := List.mem_of_find?_eq_some hfront.type
  have ht := hplaced.types t hmem
  have ha := compile_addressed hcompile t hmem
  obtain ⟨haccepted, hresults, ⟨header, hgroup⟩, hread⟩ := Engine.readTally_eq_ok ht (by omega) hdescriptor
  -- What the engine computes.
  have htally : Engine.answer schema m.store (Query.scanBytes true t q.range sort filter [] descriptor) = .ok bytes := by
    unfold Engine.Memory.query at hanswer
    rw [hschema] at hanswer
    split at hanswer
    · rename_i bs hbs
      cases hanswer
      exact hbs
    · cases hanswer
  rw [Engine.answer_scan (hplaced.ids t hmem) m.store true q.range (Query.sortSpec?_fits ht hfront.sort) hsize] at htally
  obtain ⟨hits, hhits, htally⟩ := Except.bind_eq_ok.1 htally
  rw [if_pos rfl] at htally
  obtain ⟨groups, hgroups, rfl⟩ := Engine.tally_eq_ok hread htally
  refine ⟨t, requested, sort, filter, hits, hfront, hhits, ?_⟩
  rw [List.length_append, length_leBytes] at hroom
  have hlength : groups.length < 256 ^ 4 := by
    have := Wire.length_le_length_flatMap length_groupBytes_pos groups
    omega
  have hfits : ∀ g ∈ groups, g.2.length = q.aggregates.length ∧ g.1.length < 2 ^ 32 := by
    intro g hg
    obtain ⟨group, -, -, hvalues⟩ := exists_of_forall₂_left hgroups.flip hg
    have := length_groupBytes_le hg
    exact ⟨(mapM_eq_ok hvalues).1, by omega⟩
  -- How it is read.
  change decodeAggregates plan _ = .ok r at hdecode
  rcases Query.GroupBy.compile_eq_ok hgroup with ⟨hnone, -, hplan⟩ | ⟨g, p, hsome, hp, -, -, hplan⟩
  · rw [hnone]
    rw [hplan] at hgroups
    obtain ⟨out, rfl, hvalues⟩ : ∃ out, groups = [out] ∧
        q.aggregates.mapM (fun a => compute a.kind.code (a.spec t) _) = .ok out.2 := by
      cases hgroups with
      | cons hfirst hnil =>
        cases hnil
        exact ⟨_, rfl, hfirst.2⟩
    have hread := decodeAggregates_whole ha haccepted hresults hplan (hfits out List.mem_cons_self)
    rw [List.flatMap_singleton] at hdecode
    cases hread.symm.trans hdecode
    exact groupRecord_tallied ha haccepted hfree hvalues
  · rw [hsome]
    rw [hplan] at hgroups
    obtain ⟨out, hnodup, rfl, hout⟩ := decodeAggregates_groups ha haccepted hresults hplan hlength hfits hdecode
    refine ⟨p, hp, fun group hgroup => ?_⟩
    obtain ⟨g', hg', hkey, hvalues⟩ := exists_of_forall₂_left hgroups hgroup
    obtain ⟨x, hx, hlabel, hrecord⟩ := exists_of_forall₂_left hout hg'
    refine ⟨x.1, x.2, hkey ▸ hlabel, get?_ofList hnodup hx, ?_⟩
    rw [hrecord]
    exact groupRecord_tallied ha haccepted hfree hvalues

/-! ### Rated articles -/

namespace Articles

open Write.Session.Articles

/-- The number of articles, and the sum and the greatest number of their stars. -/
def ratings : Query :=
  { type := "article", target := .scan, aggregates := [⟨.count, none⟩, ⟨.sum, some "stars"⟩, ⟨.max, some "stars"⟩] }

open Write (Instr) in
/-- Articles with five and with two stars. -/
def rated : Engine.Memory :=
  ((Engine.Memory.new layout).apply
    ([Instr.opSelectType, 1, 0, Instr.opCreateNode, 0, 0, 0, 0, Instr.opMainBlock, 1, 0, 0, 0, 5] ++
      [Instr.opCreateNode, 1, 0, 0, 0, Instr.opMainBlock, 1, 0, 0, 0, 2])).2

def descriptor : Bytes := [0, 3, 0] ++ Query.tallyBytes article 0 ratings.aggregates

/-- The query with the plan by which its answer is read. -/
def compiled : CompiledQuery :=
  ⟨layout, Query.scanBytes true article .whole none [] [] descriptor,
    .aggregates ⟨[⟨.count, []⟩, ⟨.sum, ["stars"]⟩, ⟨.max, ["stars"]⟩], none⟩⟩

/-- One group without a key: two articles, seven stars, and five as the greatest number of them. -/
def ratingsAnswer : Bytes :=
  leBytes 4 1 ++ Wire.sized [] ++ leBytes 8 2 ++ Binary64.toBytes (.ofInt 7) ++ Binary64.toBytes (.ofInt 5)

theorem reached_rated : Engine.Reached layout rated := .apply _ .new

theorem schema_rated : rated.schema = layout := (Engine.reached_sized (compile_placed compile_decl) reached_rated).1

theorem query_ratings : rated.query compiled.bytes = .ok ratingsAnswer := by
  have hsort : ∀ s ∈ (none : Option Query.SortSpec), s.Fits := nofun
  have hlength : (Engine.everyNode rated.store article).length ≤ 0xffffffff := by decide +kernel
  have hwhole : Engine.arrange layout none (some .whole) (Engine.everyNode rated.store article) =
      Engine.everyNode rated.store article := Query.Range.slice_whole hlength
  have htally : Engine.tally descriptor ((Engine.everyNode rated.store article).map (·.node)) = .ok ratingsAnswer := by
    decide +kernel
  have hanswer : Engine.answer layout rated.store compiled.bytes = .ok ratingsAnswer := by
    rw [compiled, Engine.answer_scan rfl _ _ _ hsort (by decide +kernel)]
    refine Except.bind_eq_ok.2 ⟨_, Engine.passing_nil _ _, ?_⟩
    rw [hwhole, if_pos rfl]
    exact htally
  rw [Engine.Memory.query, schema_rated, hanswer]

end Articles

open Write.Session.Articles Articles in
/-- Two articles with seven stars, at most five of them for one. -/
theorem decodeAggregates_tallied_articles :
    decl.compile = .ok layout ∧ ratings.compile layout = .ok compiled ∧ CountApart ratings.aggregates ∧
      rated.query compiled.bytes = .ok ratingsAnswer ∧ ∃ r, compiled.decodeAggregates ratingsAnswer = .ok r ∧
      ∃ t requested sort filter hits, ratings.Front layout t requested sort filter ∧
        Engine.passing layout rated.store filter (Engine.everyNode rated.store t) = .ok hits ∧
        ∀ a ∈ ratings.aggregates, Tallied t ((Engine.arrange layout sort (some ratings.range) hits).map (·.node)) r a := by
  have hfields : ∀ b ∈ ratings.aggregates, ∀ field ∈ b.field, (Path.split field).head? ≠ some AggregateKind.count.name := by
    decide +kernel
  have hfree : CountApart ratings.aggregates := fun _ _ _ b hb => hfields b hb
  have hdecode : compiled.decodeAggregates ratingsAnswer = .ok _ := rfl
  exact ⟨compile_decl, rfl, hfree, query_ratings, _, hdecode,
    decodeAggregates_tallied compile_decl rfl rfl (by decide +kernel) hfree (by decide +kernel) schema_rated query_ratings
      (by decide +kernel) hdecode⟩

end Result

end NodeStore
