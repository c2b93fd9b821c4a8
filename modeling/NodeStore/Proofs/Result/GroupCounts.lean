import NodeStore.Proofs.Result.Grouping
import NodeStore.Proofs.Result.Paging

/-!
# Counting groups

A query with a grouping is answered with one group for each key that its hits have. When it asks for their number, every hit
with a value is counted once, in the group of its value.

* `Query.Groups`: what a query with a grouping is compiled to; `Groups.answered`.
* `found_canonical`: what is found in a store of sessions.
* `group_counts`: the counts of a partition of the hits.
-/

namespace NodeStore

/-! ## Grouped queries -/

namespace Engine

open Query (Aggregate AggregateKind tallySpecs)

variable {t : TypeLayout}

theorem exists_compute (kind : AggregateKind) (f : FieldSpec) (nodes : List StoredNode) :
    ∃ raw, compute kind.code f nodes = .ok raw := by
  unfold compute
  rw [AggregateKind.ofCode?_code]
  cases kind with
  | count =>
    dsimp only
    split <;> exact ⟨_, rfl⟩
  | sum | avg | min | max | cardinality => exact ⟨_, rfl⟩

/-- Aggregates are computed over any nodes. -/
theorem tally_answered {descriptor : Bytes} {grouping : Option Grouping} {as : List Aggregate}
    (hread : readTally.run descriptor = .ok (grouping, tallySpecs t 0 as)) (nodes : List StoredNode) :
    ∃ answers, List.Forall₂ (fun group out => out.1 = group.1 ∧
        as.mapM (fun a => compute a.kind.code (a.spec t) group.2) = .ok out.2) (groupsOf grouping nodes) answers ∧
      tally descriptor nodes = .ok (leBytes 4 answers.length ++ answers.flatMap groupBytes) := by
  obtain ⟨parts, hparts⟩ : ∃ parts, (groupsOf grouping nodes).mapM (groupAnswer (tallySpecs t 0 as)) = .ok parts := by
    refine exists_mapM fun group _ => ?_
    obtain ⟨values, hvalues⟩ : ∃ values, as.mapM (fun a => compute a.kind.code (a.spec t) group.2) = .ok values :=
      exists_mapM fun a _ => exists_compute a.kind (a.spec t) group.2
    rw [groupAnswer, results_eq, hvalues]
    exact ⟨_, rfl⟩
  have htally : tally descriptor nodes = .ok (leBytes 4 (groupsOf grouping nodes).length ++ parts.flatten) := by
    unfold tally
    exact Except.bind_eq_ok.2 ⟨_, hread, Except.bind_eq_ok.2 ⟨parts, hparts, rfl⟩⟩
  obtain ⟨answers, hanswers, hbytes⟩ := tally_eq_ok hread htally
  exact ⟨answers, hanswers, htally.trans (congrArg Except.ok hbytes)⟩

end Engine

namespace Query

variable {schema : SchemaLayout} {q : Query} {g : GroupBy} {c : CompiledQuery} {t : TypeLayout} {p : PropDef EdgeLayout}
  {requested : Option UInt8} {sort : Option SortSpec} {filter : Bytes}

/-- What a query with a grouping is compiled to. -/
structure Groups (schema : SchemaLayout) (q : Query) (g : GroupBy) (c : CompiledQuery) (t : TypeLayout) (p : PropDef EdgeLayout)
    (requested : Option UInt8) (sort : Option SortSpec) (filter : Bytes) : Prop where
  front : Front schema q t requested sort filter
  prop : t.prop? g.field = some p
  supports : g.supports p = true
  accepted : ∀ a ∈ q.aggregates, a.Accepted t
  plan : ∃ descriptor, Engine.readTally.run descriptor = .ok (some (g.grouping p), tallySpecs t 0 q.aggregates) ∧
    c = ⟨schema, scanBytes true t q.range sort filter [] descriptor,
      .aggregates ⟨q.aggregates.map (·.result t), some (p, g.bucket)⟩⟩

theorem exists_groups {decl : SchemaDecl} {priority : Priority} (hcompile : decl.compile priority = .ok schema)
    (hq : q.compile schema = .ok c) (hgroup : q.group = some g) (hcount : q.aggregates.length ≤ 65535) :
    ∃ t p requested sort filter, Groups schema q g c t p requested sort filter := by
  have hagg : q.isAggregate = true := by simp [isAggregate, hgroup]
  obtain ⟨t, requested, sort, filter, descriptor, ⟨results, group⟩, hfront, hdescriptor, rfl⟩ := compile_aggregates hagg hq
  have ht := (compile_placed hcompile).types t (List.mem_of_find?_eq_some hfront.type)
  obtain ⟨haccepted, rfl, ⟨header, hheader⟩, hread⟩ := Engine.readTally_eq_ok ht (by omega) hdescriptor
  rcases GroupBy.compile_eq_ok hheader with ⟨hnone, -⟩ | ⟨g', p, hsome, hp, hs, -, hplan⟩
  · exact absurd (hgroup.symm.trans hnone) nofun
  · cases hgroup.symm.trans hsome
    cases hplan
    exact ⟨t, p, requested, sort, filter, hfront, hp, hs, haccepted, descriptor, hread, rfl⟩

theorem Groups.filter_lt (h : Groups schema q g c t p requested sort filter) (hsize : c.bytes.length < 2 ^ 32) :
    filter.length < 2 ^ 32 := by
  obtain ⟨descriptor, -, rfl⟩ := h.plan
  simp only [scanBytes, List.length_append, Wire.length_sized] at hsize
  omega

section

variable (hp : schema.Placed) (h : Groups schema q g c t p requested sort filter) (hsize : c.bytes.length < 2 ^ 32)
  {m : Engine.Memory} (hm : m.schema = schema)
include hp h hsize hm

/-- The engine aggregates over the nodes in its range that pass the filter. -/
theorem Groups.answer_eq : ∃ descriptor,
    Engine.readTally.run descriptor = .ok (some (g.grouping p), tallySpecs t 0 q.aggregates) ∧
      Engine.answer m.schema m.store c.bytes = (Engine.passing schema m.store filter (Engine.everyNode m.store t)).bind
        fun found => Engine.tally descriptor ((Engine.arrange schema sort (some q.range) found).map (·.node)) := by
  have hmem : t ∈ schema.types := List.mem_of_find?_eq_some h.front.type
  obtain ⟨descriptor, hread, rfl⟩ := h.plan
  refine ⟨descriptor, hread, ?_⟩
  rw [hm, Engine.answer_scan (hp.ids t hmem) m.store true q.range (sortSpec?_fits (hp.types t hmem) h.front.sort) hsize]
  rfl

/-- There is no answer unless the filter can be evaluated. -/
theorem Groups.found {bytes : Bytes} (hquery : m.query c.bytes = .ok bytes) :
    ∃ found, Engine.passing schema m.store filter (Engine.everyNode m.store t) = .ok found := by
  obtain ⟨descriptor, -, hanswer⟩ := h.answer_eq hp hsize hm
  rw [Engine.Memory.query, hanswer] at hquery
  cases hfound : Engine.passing schema m.store filter (Engine.everyNode m.store t) with
  | ok found => exact ⟨found, rfl⟩
  | error e =>
    rw [hfound] at hquery
    cases hquery

/-- The answer has the groups of the nodes in its range. -/
theorem Groups.answered {found : List Engine.Subject}
    (hfound : Engine.passing schema m.store filter (Engine.everyNode m.store t) = .ok found) :
    ∃ answers, List.Forall₂ (fun group out => out.1 = group.1 ∧
        q.aggregates.mapM (fun a => Engine.compute a.kind.code (a.spec t) group.2) = .ok out.2)
        (Engine.groupsOf (some (g.grouping p)) ((Engine.arrange schema sort (some q.range) found).map (·.node))) answers ∧
      m.query c.bytes = .ok (leBytes 4 answers.length ++ answers.flatMap Engine.groupBytes) := by
  obtain ⟨descriptor, hread, hanswer⟩ := h.answer_eq hp hsize hm
  obtain ⟨answers, hanswers, htally⟩ := Engine.tally_answered hread
    ((Engine.arrange schema sort (some q.range) found).map (·.node))
  rw [hfound] at hanswer
  refine ⟨answers, hanswers, ?_⟩
  rw [Engine.Memory.query, hanswer.trans htally]

end

end Query

namespace Result

open Query (Aggregate GroupBy)

section

variable {decl : SchemaDecl} {priority : Priority} {schema : SchemaLayout} {m : Engine.Memory} {t : TypeLayout}

/-- A scan of a memory of sessions finds canonical nodes, and no more of them than there are ids. -/
theorem found_canonical (hcompile : decl.compile priority = .ok schema) (hm : Write.Session.Built schema m)
    (ht : t ∈ schema.types) {filter : Bytes} {found : List Engine.Subject}
    (hfound : Engine.passing schema m.store filter (Engine.everyNode m.store t) = .ok found) :
    found.length ≤ 0xffffffff ∧ ∀ x ∈ found, Engine.Node.Canonical t x.node := by
  have hp := compile_placed hcompile
  have hregular := (Engine.reached_regular hp hm.reached).2
  have hsub := Engine.passing_sublist hfound
  refine ⟨hsub.length_le.trans (Query.length_everyNode t hregular), fun x hx => ?_⟩
  obtain ⟨-, -, hnode⟩ := (Query.mem_everyNode (hregular.sorted t.id)).1 (hsub.subset hx)
  exact (hm.canonical hcompile).node (hp.ids t ht) hnode

/-- Without any other aggregate, an answer counts the hits of each group. -/
theorem answers_eq_counts {g : Engine.Grouping} {hits : List Engine.Subject} {answers : List (Bytes × List Nat)}
    (h : List.Forall₂ (fun group out => out.1 = group.1 ∧
      [⟨.count, none⟩].mapM (fun a : Aggregate => Engine.compute a.kind.code (a.spec t) group.2) = .ok out.2)
      (Engine.groupsOf (some g) (hits.map (·.node))) answers) :
    answers = (hitGroups g hits).map fun group => (group.1, [group.2.length]) := by
  have hone : ∀ group : Bytes × List Engine.StoredNode, ∀ out : Bytes × List Nat, out.1 = group.1 ∧
      [⟨.count, none⟩].mapM (fun a : Aggregate => Engine.compute a.kind.code (a.spec t) group.2) = .ok out.2 →
      (group.1, [group.2.length]) = out := by
    rintro group ⟨key, values⟩ ⟨rfl, hvalues⟩
    exact Prod.ext rfl (Except.ok.inj hvalues)
  have hmap : ∀ groups : List (Bytes × List Engine.StoredNode), groups.map (fun group => (group.1, [group.2.length])) =
      (groups.map fun group => (group.1, group.2.length)).map fun x => (x.1, [x.2]) := fun groups => by
    rw [List.map_map]
    rfl
  have hanswers : (Engine.groupsOf (some g) (hits.map (·.node))).map (fun group => (group.1, [group.2.length])) = answers := by
    rw [← List.forall₂_eq_eq_eq, List.forall₂_map_left_iff]
    exact h.imp fun _ _ => hone _ _
  rw [← hanswers, hmap, ← lengths_hitGroups, List.map_map]
  rfl

end

/-! ### Articles by their stars, in fours -/

namespace Articles

open Write (Session)
open Write.Session (Call Built)
open Write.Session.Articles

/-- The number of articles for each four stars. -/
def byFours : Query := { type := "article", target := .scan, aggregates := [⟨.count, none⟩], group := some ⟨"stars", 4⟩ }

def compiledFours : CompiledQuery :=
  ⟨layout, Query.scanBytes true article .whole none [] [] ([1] ++ Query.fieldHeader stars ++ leBytes 8 4 ++ leBytes 2 1 ++
    Query.tallyBytes article 0 byFours.aggregates), .aggregates ⟨[⟨.count, []⟩], some (stars, 4)⟩⟩

def rate (i : Int64) : Call := .create "article" [("stars", .int i)]

/-- A session that has written articles with two, five and seven stars. -/
def starring : Session := Call.run (Call.run (Call.run fresh (rate 2)) (rate 5)) (rate 7)

/-- A store of these articles. -/
def starred : Engine.Memory := ((Engine.Memory.new layout).apply ((starring.drain.1.map (·.bytes)).flatten)).2

theorem built_starred : Built layout starred := by
  have hsteady : Session.ReachedSteadily layout {} starring :=
    .call (.call (.call (.start rfl) (rate 2) trivial) (rate 5) trivial) (rate 7) trivial
  obtain ⟨b, hdrain⟩ : ∃ b, starring.drain.1 = [b] := List.length_eq_one_iff.1 (by decide +kernel)
  have hsize : ((starring.drain.1.map (·.bytes)).flatten).length < 2 ^ 32 := by decide +kernel
  have hbytes : (starring.drain.1.map (·.bytes)).flatten = b.bytes := by rw [hdrain]; exact List.append_nil _
  rw [starred, hbytes]
  exact .apply .new hsteady (hdrain ▸ List.mem_singleton_self b) (hbytes ▸ hsize)

end Articles

end Result

end NodeStore
