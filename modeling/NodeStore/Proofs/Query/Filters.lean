import NodeStore.Proofs.Engine.Runs
import NodeStore.Proofs.Query.Conditions
import NodeStore.Proofs.Query.Groups

/-!
# Filters on reached stores

A filter that compiles is evaluated on every node of a store without a fault, and the result is what the filter means.

* `Scope.Valid`, `Scope.Admits`: a scope of the schema, and a node that its names can be used of.
* `linkedSubjects_eq`: where references lead; `Settles`: clauses that say whether something holds.
* `groupOf_settles`: the conditions of a conjunction, by recursion on the segments of their paths.
* `group_settles`: a filter, by recursion on its disjunctions; `compileFilter_correct`.
-/

namespace NodeStore.Query

open Engine

variable {schema : SchemaLayout} {store : Store} {s target : Scope} {x y : Subject} {slot : UInt8}
  {p : PropDef EdgeLayout}

/-! ## What links store in the place of a node -/

theorem asType_placed {t : EdgeLayout} (ht : t.Placed) : t.asType.Placed where
  measured p hp := by
    obtain ⟨q, hq, rfl⟩ := List.mem_map.1 hp
    have hm := ht.measured q hq
    exact ⟨hm.fixed, hm.separate, hm.short, hm.target, fun h => by cases h⟩
  slots := by
    rw [EdgeLayout.asType, List.filterMap_map]
    exact ht.slots
  slot_range p hp := by
    obtain ⟨q, hq, rfl⟩ := List.mem_map.1 hp
    exact ht.slot_range q hq
  inside p hp := by
    obtain ⟨q, hq, rfl⟩ := List.mem_map.1 hp
    exact ht.inside q hq
  defaults := ht.defaults
  room := ht.room

theorem asNode_fits {t : EdgeLayout} {n : EdgeNode} (hn : EdgeFits t n) : n.asNode.Fits EdgeFits t.asType where
  main := hn.main
  sorted := by
    have := hn.sorted
    unfold Assoc.Sorted at this ⊢
    rwa [EdgeNode.asNode, List.map_map]
  fields slot c hc := by
    rw [Node.field?, EdgeNode.asNode, Assoc.find?_map] at hc
    obtain ⟨d, hd, rfl⟩ := Option.map_eq_some_iff.1 hc
    obtain ⟨p, hp, hs, hfits⟩ := hn.fields slot d hd
    refine ⟨p.widen, List.mem_map_of_mem hp, hs, ?_⟩
    have hlink : ∀ id, Link.Fits EdgeFits p.widen (⟨id, none⟩ : Link EdgeNode) := fun id e he => by cases he
    cases d with
    | bytes bs => exact hfits
    | text entries => exact hfits
    | sketch hashes => exact hfits
    | ref l => exact ⟨hfits.1, hlink _⟩
    | refs ls =>
      obtain ⟨hty, hne, hnodup, -⟩ := hfits
      refine ⟨hty, by simpa using hne, ?_, fun l hl => ?_⟩
      · rw [List.map_map]
        exact hnodup
      · obtain ⟨l', -, rfl⟩ := List.mem_map.1 hl
        exact hlink _

/-! ## Scopes and their nodes -/

/-- The scope belongs to the schema. -/
structure Scope.Valid (schema : SchemaLayout) (s : Scope) : Prop where
  schema : s.schema = schema
  placed : s.layout.Placed
  inner : ∀ p ∈ s.layout.props, ∀ e, p.edges = some e → e.Placed
  edges : ∀ e, s.edges = some e → e.Placed

/-- The names of the scope can be used of the node and of the link that led to it. -/
structure Scope.Admits (s : Scope) (x : Subject) : Prop where
  layout : x.layout = s.layout
  node : x.node.Fits EdgeFits s.layout
  link : ∀ t n, x.edge = some (t, n) → s.edges = some t ∧ EdgeFits t n

theorem valid_ofType (hp : schema.Placed) {t : TypeLayout} (ht : t ∈ schema.types) :
    (Scope.ofType schema t).Valid schema where
  schema := rfl
  placed := hp.types t ht
  inner := hp.edges t ht
  edges _ h := by cases h

/-- A node of a store, in the scope of its type. -/
theorem admits_ofType (hp : schema.Placed) {t : TypeLayout} (ht : t ∈ schema.types) (hs : store.Fits schema)
    {id : NodeId} {n : StoredNode} (hn : store.node? t.id id = some n) :
    (Scope.ofType schema t).Admits ⟨t, id, n, none⟩ where
  layout := rfl
  node := by
    obtain ⟨u, hu, hfits⟩ := hs.nodes _ _ _ hn
    rw [hp.ids t ht] at hu
    cases hu
    exact hfits
  link _ _ h := by cases h

theorem Scope.Valid.ofEdges (h : s.Valid schema) {t : EdgeLayout} (ht : s.edges = some t) :
    (s.ofEdges t).Valid schema where
  schema := h.schema
  placed := asType_placed (h.edges t ht)
  inner p hp e he := by
    obtain ⟨q, -, rfl⟩ := List.mem_map.1 hp
    cases he
  edges _ h := by cases h

/-- What the link stores, in the scope of the link. -/
theorem Scope.Admits.ofEdge (h : s.Admits x) {t : EdgeLayout} {n : EdgeNode} (he : x.edge = some (t, n)) :
    (s.ofEdges t).Admits (.ofEdge t n) where
  layout := rfl
  node := asNode_fits (h.link t n he).2
  link _ _ h := by cases h

theorem through_spec (hp : schema.Placed) (hs : s.schema = schema) (h : s.through? p = some target) :
    target.layout ∈ schema.types ∧ target.schema = schema ∧ target.edges = p.edges ∧
      ∃ r, p.target = some r ∧ r.id = target.layout.id ∧ schema.typeById? r.id = some target.layout := by
  unfold Scope.through? at h
  rw [hs] at h
  obtain ⟨r, hr, h⟩ := Option.bind_eq_some_iff.1 h
  obtain ⟨t, ht, h⟩ := Option.bind_eq_some_iff.1 h
  cases h
  obtain ⟨hmem, hid⟩ := hp.found _ _ ht
  exact ⟨hmem, rfl, rfl, r, hr, hid.symm, ht⟩

/-! ### References -/

/-- A reference of the scope, with its slot and the scope behind it. -/
structure Scope.Refers (s : Scope) (p : PropDef EdgeLayout) (slot : UInt8) (target : Scope) : Prop where
  mem : p ∈ s.layout.props
  slot : p.slot? = some slot
  target : s.through? p = some target

theorem Scope.refers_of_resolve {path rest : List String} (hr : s.resolve path = .through p slot target rest) :
    s.Refers p slot target := by
  obtain ⟨-, hslot, htarget, n, hn, -⟩ := Scope.reference_of_resolve hr
  exact ⟨Layout.mem_of_longestProp? hn, hslot, htarget⟩

theorem Scope.Valid.through (hp : schema.Placed) (h : s.Valid schema) (hr : s.Refers p slot target) : target.Valid schema := by
  obtain ⟨ht, hschema, hedges, -⟩ := through_spec hp h.schema hr.target
  exact ⟨hschema, hp.types _ ht, hp.edges _ ht, fun e he => h.inner p hr.mem e (hedges ▸ he)⟩

/-- The scope behind a reference is that of the nodes that it leads to. -/
theorem Scope.Admits.through (hp : schema.Placed) (hs : store.Fits schema) (hv : s.Valid schema) (h : s.Admits x)
    (hr : s.Refers p slot target) (hy : y ∈ linkedTo store target x slot) : target.Admits y := by
  obtain ⟨ht, hschema, hedges, -⟩ := through_spec hp hv.schema hr.target
  obtain ⟨l, hl, hy⟩ := List.mem_filterMap.1 hy
  obtain ⟨n, hn, rfl⟩ := Option.map_eq_some_iff.1 hy
  refine ⟨rfl, (admits_ofType hp ht hs hn).node, fun t e hedge => ?_⟩
  -- What the link stores fits what the reference lets it store.
  obtain ⟨t', ht', hedge⟩ := Option.bind_eq_some_iff.1 hedge
  obtain ⟨e', he', hedge⟩ := Option.bind_eq_some_iff.1 hedge
  cases hedge
  refine ⟨ht', ?_⟩
  have hfits : ∀ c, x.node.field? slot = some c → c.Fits EdgeFits p := fun c hc =>
    h.node.content hv.placed hr.mem hr.slot hc
  rw [Node.links_eq] at hl
  split at hl
  · rename_i l' hf
    obtain rfl := List.mem_singleton.1 hl
    exact (hfits _ hf).2 e he' t (hedges ▸ ht')
  · rename_i ls hf
    exact (hfits _ hf).2.2.2 l hl e he' t (hedges ▸ ht')
  · cases hl

/-- A reference leads to one node at most. -/
theorem Scope.Admits.take_links (hv : s.Valid schema) (h : s.Admits x) (hr : s.Refers p slot target) :
    (if p.type = .reference then (x.node.links slot).take 1 else x.node.links slot) = x.node.links slot := by
  split
  · rename_i hty
    rw [Node.links_eq]
    split
    · rfl
    · rename_i ls hf
      have := (h.node.content hv.placed hr.mem hr.slot hf).1
      rw [hty] at this
      cases this
    · rfl
  · rfl

/-- The engine follows a link to the nodes that it leads to. -/
theorem linkedSubjects_eq (hp : schema.Placed) (hv : s.Valid schema) (h : s.Admits x) (hr : s.Refers p slot target) :
    linkedSubjects schema store x.layout slot (x.node.links slot) = .ok (linkedTo store target x slot) := by
  obtain ⟨ht, hschema, hedges, r, htarget, hid, htype⟩ := through_spec hp hv.schema hr.target
  unfold linkedSubjects linkedTo
  rw [h.layout, hv.placed.propBySlot? hr.mem hr.slot, hedges, ← hid]
  dsimp only
  rw [htarget, orFail, Except.bind_eq_ok]
  refine ⟨r, rfl, ?_⟩
  rw [layoutOf, htype]
  rfl

/-! ## Clauses that say what is meant -/

/-- No operand is longer than four bytes can say. -/
abbrev Short (cs : List Clause) : Prop := Clause.EachOf (·.operand.length < 2 ^ 32) cs

/-- The clauses can be read back, and say of every node of the scope whether something holds of it. -/
structure Settles (schema : SchemaLayout) (store : Store) (s : Scope) (cs : List Clause) (P : Subject → Prop) :
    Prop where
  wellFormed : Clause.EachOf Condition.WellFormed cs
  decides : ∀ x, s.Admits x → Decides (Clause.evalAll schema store x cs) (P x)

namespace Settles

variable {as bs : List Clause} {P Q : Subject → Prop}

theorem append (ha : Settles schema store s as P) (hb : Settles schema store s bs Q) :
    Settles schema store s (as ++ bs) (fun x => P x ∧ Q x) :=
  ⟨Clause.eachOf_append.2 ⟨ha.wellFormed, hb.wellFormed⟩, fun x hx =>
    Clause.decides_append (ha.decides x hx) (hb.decides x hx)⟩

theorem congr (h : Settles schema store s as P) (hpq : ∀ x, P x ↔ Q x) : Settles schema store s as Q :=
  ⟨h.wellFormed, fun x hx => (h.decides x hx).congr (hpq x)⟩

end Settles

theorem clauses_eq_ok {locale : UInt8} {g : Group} {cs : List Clause} (h : g.clauses locale = .ok cs) :
    ∃ conditions behind onLink either, g.tests.mapM (Test.compile locale) = .ok conditions ∧
      Group.linkClauses locale g.links = .ok behind ∧ Group.edgeClauses locale g.edges = .ok onLink ∧
      Group.choiceClauses locale g.choices = .ok either ∧
      cs = (conditions.mergeSort Condition.before).map .condition ++ behind ++ onLink ++ either := by
  cases g
  rw [Group.clauses] at h
  obtain ⟨conditions, h1, h⟩ := Except.bind_eq_ok.1 h
  obtain ⟨behind, h2, h⟩ := Except.bind_eq_ok.1 h
  obtain ⟨onLink, h3, h⟩ := Except.bind_eq_ok.1 h
  obtain ⟨either, h4, h⟩ := Except.bind_eq_ok.1 h
  exact ⟨_, _, _, _, h1, h2, h3, h4, (Except.ok.inj h).symm⟩

/-- The conditions on the node itself, in whatever order. -/
theorem tests_settle (hv : s.Valid schema) {locale : UInt8} {cs : List Criterion} {conditions : List Condition}
    (hc : (cs.filterMap s.test?).mapM (Test.compile locale) = .ok conditions)
    (hshort : ∀ c ∈ conditions, c.operand.length < 2 ^ 32) :
    Settles schema store s ((conditions.mergeSort Condition.before).map .condition) fun x =>
      ∀ c ∈ cs, ∀ f, s.resolve c.path = .field f → f.Satisfies c.operator c.value locale x.id x.node := by
  obtain ⟨-, hback, hforth⟩ := mapM_eq_ok hc
  have hof : ∀ d f, s.resolve d = .field f → f.Of s.layout := fun d f hr => by
    rcases Scope.field_of_resolve hr with rfl | ⟨p, n, rfl, hn⟩
    · trivial
    · exact Layout.mem_of_longestProp? hn
  have hcriterion : ∀ c ∈ conditions, ∃ d ∈ cs, ∃ f, s.resolve d.path = .field f ∧
      f.condition d.operator d.value locale = .ok c := by
    intro c hc
    obtain ⟨t, ht, hcompile⟩ := hback c hc
    obtain ⟨d, hd, htest⟩ := List.mem_filterMap.1 ht
    unfold Scope.test? at htest
    split at htest
    · rename_i f hr
      cases htest
      exact ⟨d, hd, f, hr, hcompile⟩
    · cases htest
      cases hcompile
    · cases htest
  have hcondition : ∀ d ∈ cs, ∀ f, s.resolve d.path = .field f →
      ∃ c ∈ conditions, f.condition d.operator d.value locale = .ok c := fun d hd f hr =>
    hforth (.condition f d.operator d.value) (List.mem_filterMap.2 ⟨d, hd, by rw [Scope.test?, hr]⟩)
  refine ⟨Clause.eachOf_conditions.2 fun c hc => ?_, fun x hx => ?_⟩
  · obtain ⟨d, -, f, hr, hcompile⟩ := hcriterion c (List.mem_mergeSort.1 hc)
    exact (hof _ f hr).wellFormed hv.placed hcompile
  · have hdecides : ∀ f d c, s.resolve d = .field f → ∀ operator v, f.condition operator v locale = .ok c →
        c ∈ conditions → Decides (c.holds x.id x.node) (f.Satisfies operator v locale x.id x.node) :=
      fun f d c hr operator v hcompile hc => (hof d f hr).holds hv.placed hx.node x.id hcompile (hshort c hc)
    refine Decides.congr (P := ∀ c ∈ (conditions.mergeSort Condition.before).map Clause.condition,
      c.eval schema store x = .ok true) (Clause.decides_all fun c hc => ?_) ⟨fun hall d hd f hr => ?_, fun hall c hc => ?_⟩
    · obtain ⟨c, hsorted, rfl⟩ := List.mem_map.1 hc
      have hc := List.mem_mergeSort.1 hsorted
      obtain ⟨d, -, f, hr, hcompile⟩ := hcriterion c hc
      exact (hdecides f _ c hr _ _ hcompile hc).self
    · obtain ⟨c, hc, hcompile⟩ := hcondition d hd f hr
      exact (hdecides f _ c hr _ _ hcompile hc).iff.1 (hall _ (List.mem_map_of_mem (List.mem_mergeSort.2 hc)))
    · obtain ⟨c, hsorted, rfl⟩ := List.mem_map.1 hc
      have hc := List.mem_mergeSort.1 hsorted
      obtain ⟨d, hd, f, hr, hcompile⟩ := hcriterion c hc
      exact (hdecides f _ c hr _ _ hcompile hc).iff.2 (hall d hd f hr)

/-- The clauses of some references: each of them, with what follows from its body. -/
theorem links_settle {locale : UInt8} {links : List (UInt8 × Through Group)} {behind : List Clause}
    (hlinks : Group.linkClauses locale links = .ok behind) (hshort : Short behind)
    {P : UInt8 × Through Group → Subject → Prop}
    (hbody : ∀ e ∈ links, ∀ body, e.2.body.clauses locale = .ok body → Short body →
      Clause.EachOf Condition.WellFormed body ∧ ∀ x, s.Admits x → ∀ type,
        Decides (Clause.eval schema store x (.link (e.2.prop.type = .reference) e.1 type body)) (P e x)) :
    Settles schema store s behind fun x => ∀ e ∈ links, P e x := by
  induction links generalizing behind with
  | nil =>
    cases hlinks
    exact ⟨trivial, fun x _ => ⟨true, rfl, by simp⟩⟩
  | cons e links ih =>
    obtain ⟨slot, ⟨q, g⟩⟩ := e
    rw [Group.linkClauses] at hlinks
    obtain ⟨body, hg, hlinks⟩ := Except.bind_eq_ok.1 hlinks
    obtain ⟨rest, hrest, hlinks⟩ := Except.bind_eq_ok.1 hlinks
    cases hlinks
    obtain ⟨hwell, hdecides⟩ := hbody _ List.mem_cons_self body hg hshort.1
    have htail := ih hrest hshort.2 fun e he => hbody e (List.mem_cons_of_mem _ he)
    exact ⟨⟨hwell, htail.wellFormed⟩, fun x hx => ((hdecides x hx _).both (htail.decides x hx)).congr (by simp)⟩

/-- The clauses of a reference: their body holds of a node that the reference leads to. -/
theorem link_decides (hp : schema.Placed) (hs : store.Fits schema) (hv : s.Valid schema)
    (hr : s.Refers p slot target) {body : List Clause} {P : Subject → Prop}
    (hbody : Settles schema store target body P) (hx : s.Admits x) (type : TypeId) :
    Decides (Clause.eval schema store x (.link (p.type = .reference) slot type body))
      (∃ y ∈ linkedTo store target x slot, P y) := by
  have heval : Clause.eval schema store x (.link (p.type = .reference) slot type body) =
      anySubject (fun y => Clause.evalAll schema store y body) (linkedTo store target x slot) := by
    rw [Clause.eval]
    simp only [decide_eq_true_eq, hx.take_links hv hr, linkedSubjects_eq hp hv hx hr]
    rfl
  rw [heval]
  exact Decides.any fun y hy => hbody.decides y (hx.through hp hs hv hr hy)

section

variable {locale : UInt8} {cs : List Criterion}

/-- The conditions behind references, given what those behind each one mean. -/
theorem behind_settle (hp : schema.Placed) (hs : store.Fits schema) (hv : s.Valid schema) {behind : List Clause}
    (hl : Group.linkClauses locale (groupOf s cs).links = .ok behind) (hshort : Short behind)
    (hinner : ∀ c ∈ cs, ∀ p slot target rest, s.resolve c.path = .through p slot target rest → ∀ body,
      (groupOf target (s.behind slot cs)).clauses locale = .ok body → Short body →
        Settles schema store target body fun y => Meets store locale target y (s.behind slot cs)) :
    Settles schema store s behind fun x => ∀ c ∈ cs, ∀ p slot target rest,
      s.resolve c.path = .through p slot target rest →
        ∃ y ∈ linkedTo store target x slot, Meets store locale target y (s.behind slot cs) := by
  obtain ⟨hsorted, hnone, hsome⟩ := find?_links_groupOf hv.placed cs
  refine (links_settle (P := fun e x => ∀ c ∈ cs, ∀ p target rest, s.resolve c.path = .through p e.1 target rest →
    ∃ y ∈ linkedTo store target x e.1, Meets store locale target y (s.behind e.1 cs)) hl hshort
    fun e he body hbody hbodyShort => ?_).congr fun x => ⟨fun hall c hc p slot target rest hr => ?_,
      fun hall e _ c hc p target rest hr => hall c hc p e.1 target rest hr⟩
  · obtain ⟨slot, ⟨q, g⟩⟩ := e
    have hfind := hsorted.find?_of_mem he
    by_cases hcs : s.behind slot cs = []
    · rw [hnone slot hcs] at hfind
      cases hfind
    · obtain ⟨d, hd⟩ := List.exists_mem_of_ne_nil _ hcs
      obtain ⟨c, hc, p, target, hr, -⟩ := mem_behind.1 hd
      rw [hsome c hc p slot target _ hr] at hfind
      cases hfind
      have hsettles := hinner c hc _ slot target _ hr body hbody hbodyShort
      refine ⟨hsettles.wellFormed, fun x hx type => (link_decides hp hs hv (Scope.refers_of_resolve hr) hsettles hx type).congr
        ⟨fun hy c' _ p' target' rest' hr' => ?_, fun hall => hall c hc _ target _ hr⟩⟩
      obtain ⟨-, rfl⟩ := through_unique hv.placed hr hr'
      exact hy
  · exact hall _ (Assoc.mem_of_find? (hsome c hc p slot target rest hr)) c hc p target rest hr

/-- The conditions on the link, given what they mean of what it stores. -/
theorem onLink_settle {onLink : List Clause}
    (he : Group.edgeClauses locale (groupOf s cs).edges = .ok onLink) (hshort : Short onLink)
    (hinner : ∀ edges, s.edges = some edges → ∀ body,
      (groupOf (s.ofEdges edges) (s.onEdge cs)).clauses locale = .ok body → Short body →
        Settles schema store (s.ofEdges edges) body fun y => Meets store locale (s.ofEdges edges) y (s.onEdge cs)) :
    Settles schema store s onLink fun x => ∀ c ∈ cs, ∀ edges rest, s.resolve c.path = .edge edges rest →
      ∃ t n, x.edge = some (t, n) ∧ Meets store locale (s.ofEdges edges) (.ofEdge t n) (s.onEdge cs) := by
  have hvacuous : (∀ c ∈ cs, ∀ edges rest, s.resolve c.path ≠ .edge edges rest) → (groupOf s cs).edges = none →
      Settles schema store s onLink fun x => ∀ c ∈ cs, ∀ edges rest, s.resolve c.path = .edge edges rest →
        ∃ t n, x.edge = some (t, n) ∧ Meets store locale (s.ofEdges edges) (.ofEdge t n) (s.onEdge cs) := by
    intro hno hedges
    rw [hedges] at he
    cases he
    exact ⟨trivial, fun x _ => ⟨true, rfl, iff_of_true rfl fun c hc e r hr => absurd hr (hno c hc e r)⟩⟩
  cases hedges : s.edges with
  | none =>
    refine hvacuous (fun c hc e r hr => ?_) (edges_groupOf_none hedges cs)
    have := (Scope.length_of_edge hr).2
    rw [hedges] at this
    cases this
  | some edges =>
    by_cases hon : s.onEdge cs = []
    · refine hvacuous (fun c hc e r hr => ?_) (by rw [edges_groupOf hedges, if_pos hon])
      exact List.ne_nil_of_mem (mem_onEdge hc hr) hon
    · rw [edges_groupOf hedges, if_neg hon] at he
      obtain ⟨body, hbody, he⟩ := Except.bind_eq_ok.1 he
      cases he
      have hsettles := hinner edges hedges body hbody hshort.1
      refine ⟨⟨hsettles.wellFormed, trivial⟩, fun x hx => ?_⟩
      obtain ⟨c, hc, edges', rest, hr⟩ := exists_of_onEdge hon
      have hsame : ∀ {c : Criterion} {edges' rest}, s.resolve c.path = .edge edges' rest → edges' = edges :=
        fun hr => Option.some.inj ((Scope.length_of_edge hr).2.symm.trans hedges)
      have hedge : Decides (Clause.eval schema store x (.edge body))
          (∃ t n, x.edge = some (t, n) ∧ Meets store locale (s.ofEdges edges) (.ofEdge t n) (s.onEdge cs)) := by
        rw [Clause.eval]
        cases hx' : x.edge with
        | none => exact ⟨false, rfl, by simp⟩
        | some e =>
          obtain ⟨t, n⟩ := e
          obtain rfl : edges = t := Option.some.inj (hedges.symm.trans (hx.link t n hx').1)
          exact (hsettles.decides _ (hx.ofEdge hx')).congr (by simp)
      have htrue : Decides (.ok true) True := ⟨true, rfl, iff_of_true rfl trivial⟩
      refine (hedge.both htrue).congr ⟨fun hall c' _ edges' rest' hr' => ?_, fun hall => ⟨?_, trivial⟩⟩
      · obtain rfl := hsame hr'
        exact hall.1
      · obtain rfl := hsame hr
        exact hall c hc _ rest hr

/-- The conditions of a conjunction are met exactly if their clauses hold. -/
theorem groupOf_settles (hp : schema.Placed) (hs : store.Fits schema) (s : Scope) (hv : s.Valid schema)
    (cs : List Criterion) {clauses : List Clause} (h : (groupOf s cs).clauses locale = .ok clauses)
    (hshort : Short clauses) : Settles schema store s clauses fun x => Meets store locale s x cs := by
  obtain ⟨conditions, behind, onLink, either, hc, hl, he, hnil, rfl⟩ := clauses_eq_ok h
  rw [choices_groupOf] at hnil
  cases hnil
  rw [List.append_nil] at hshort ⊢
  obtain ⟨hshort, hshort3⟩ := Clause.eachOf_append.1 hshort
  obtain ⟨hshort1, hshort2⟩ := Clause.eachOf_append.1 hshort
  have htests : Settles schema store s _ _ := tests_settle hv (tests_groupOf s cs ▸ hc) fun c hc =>
    Clause.eachOf_conditions.1 hshort1 c (List.mem_mergeSort.2 hc)
  have hbehind := behind_settle hp hs hv hl hshort2 fun c hc p slot target rest hr body hbody hbodyShort =>
    groupOf_settles hp hs target (hv.through hp (Scope.refers_of_resolve hr)) (s.behind slot cs) hbody hbodyShort
  have honLink := onLink_settle he hshort3 fun edges hedges body hbody hbodyShort =>
    groupOf_settles hp hs (s.ofEdges edges) (hv.ofEdges hedges) (s.onEdge cs) hbody hbodyShort
  refine ((htests.append hbehind).append honLink).congr fun x => ?_
  rw [Meets, and_assoc]
  termination_by (segments cs, if s.edges.isSome then 1 else 0)
  decreasing_by
    · exact .left _ _ (Scope.segments_behind hc hr)
    · rw [hedges]
      rcases Nat.lt_or_eq_of_le (s.segments_onEdge cs) with h | h
      · exact .left _ _ h
      · exact h ▸ .right _ (by simp [Scope.ofEdges])

end

/-! ## Filters -/

section

variable {locale : UInt8}

/-- The conditions of a group are compiled without its disjunctions, and the disjunctions behind them. -/
theorem clauses_withChoices {cs : List Criterion} {choices : List (Group × Group)} {clauses : List Clause}
    (h : ((groupOf s cs).withChoices choices).clauses locale = .ok clauses) :
    ∃ own either, (groupOf s cs).clauses locale = .ok own ∧ Group.choiceClauses locale choices = .ok either ∧
      clauses = own ++ either := by
  obtain ⟨conditions, behind, onLink, either, hc, hl, he, hchoices, rfl⟩ := clauses_eq_ok h
  refine ⟨_, either, ?_, hchoices, rfl⟩
  have hnil := choices_groupOf s cs
  cases hg : groupOf s cs with
  | mk tests links edges choices' =>
    rw [hg] at hnil hc hl he
    obtain rfl : choices' = [] := hnil
    rw [Group.clauses]
    exact Except.bind_eq_ok.2 ⟨conditions, hc, Except.bind_eq_ok.2 ⟨behind, hl, Except.bind_eq_ok.2 ⟨onLink, he,
      congrArg Except.ok (List.append_nil _)⟩⟩⟩

/-- The disjunctions of a filter, given what their sides mean. -/
theorem choices_settle {choices : List (Filter × Filter)} {either : List Clause}
    (h : Group.choiceClauses locale (choiceGroups s choices) = .ok either) (hshort : Short either)
    {P : Filter → Subject → Prop}
    (hside : ∀ c ∈ choices, ∀ f, f = c.1 ∨ f = c.2 → ∀ clauses, (f.group s).clauses locale = .ok clauses →
      Short clauses → Settles schema store s clauses (P f)) :
    Settles schema store s either fun x => ∀ c ∈ choices, P c.1 x ∨ P c.2 x := by
  induction choices generalizing either with
  | nil =>
    cases h
    exact ⟨trivial, fun x _ => ⟨true, rfl, by simp⟩⟩
  | cons c choices ih =>
    rw [choiceGroups, List.map_cons, Group.choiceClauses] at h
    obtain ⟨left, hleft, h⟩ := Except.bind_eq_ok.1 h
    obtain ⟨right, hright, h⟩ := Except.bind_eq_ok.1 h
    obtain ⟨rest, hrest, h⟩ := Except.bind_eq_ok.1 h
    cases h
    have hl := hside c List.mem_cons_self c.1 (.inl rfl) left hleft hshort.1.1
    have hr := hside c List.mem_cons_self c.2 (.inr rfl) right hright hshort.1.2
    have htail := ih hrest hshort.2 fun c' hc' => hside c' (List.mem_cons_of_mem _ hc')
    refine ⟨⟨⟨hl.wellFormed, hr.wellFormed⟩, htail.wellFormed⟩, fun x hx => ?_⟩
    refine (((hl.decides x hx).one (hr.decides x hx)).both (htail.decides x hx)).congr ?_
    rw [List.forall_mem_cons]

/-- A filter means what its clauses say. -/
theorem group_settles (hp : schema.Placed) (hs : store.Fits schema) (hv : s.Valid schema) (f : Filter)
    {clauses : List Clause} (h : (f.group s).clauses locale = .ok clauses) (hshort : Short clauses) :
    Settles schema store s clauses fun x => f.Holds store locale s x := by
  rw [Filter.group_eq] at h
  obtain ⟨own, either, hown, heither, rfl⟩ := clauses_withChoices h
  obtain ⟨hshort1, hshort2⟩ := Clause.eachOf_append.1 hshort
  have hconditions := groupOf_settles hp hs s hv f.criteria hown hshort1
  have hchoices := choices_settle (P := fun f x => f.Holds store locale s x) heither hshort2
    fun c hc g hg clauses hclauses hcshort => group_settles hp hs hv g hclauses hcshort
  exact (hconditions.append hchoices).congr fun x => by rw [Filter.Holds]
  termination_by f
  decreasing_by
    obtain ⟨hleft, hright⟩ := f.sizeOf_choices c hc
    rcases hg with rfl | rfl
    · exact hleft
    · exact hright

end

namespace Friends

open Engine.Friends

/-- Users whose best friend is the second one, or who have none. -/
def lonely : Filter := .either (.condition "best.id" .equal (.int 2)) (.condition "best" .notExists .null)

def scope : Scope := .ofType layout user

def second : Condition := ⟨.equal, false, Limits.idSlot, .uint32, 0, 4, 0, [2, 0, 0, 0]⟩

def unset : Condition := ⟨.exists, true, 1, .reference, 0, 4, 0, []⟩

/-- The header, the test of the friend, and that of the user. -/
def lonelyBlock : Bytes :=
  [2, 36, 0, 0, 0, 15, 0, 0, 0] ++
    ([3, 1, 1, 0, 19, 0, 0, 0] ++ [1, 1, 255, 7, 0, 0, 0, 0, 4, 0, 0, 4, 0, 0, 0, 2, 0, 0, 0]) ++
    [1, 139, 1, 13, 0, 0, 0, 0, 4, 0, 0, 0, 0, 0, 0]

theorem group_second : (Filter.condition "best.id" .equal (.int 2)).group scope =
    ⟨[], [(1, ⟨best, ⟨[.condition .id .equal (.int 2)], [], none, []⟩⟩)], none, []⟩ := by
  change Group.insert scope ["best", "id"] _ _ _ = _
  rw [Group.insert_eq, show scope.resolve ["best", "id"] = .through best 1 scope ["id"] from rfl]
  dsimp only
  rw [Group.insert_eq, show scope.resolve ["id"] = .field .id from rfl]
  rfl

theorem group_unset : (Filter.condition "best" .notExists .null).group scope =
    ⟨[.condition (.prop best) .notExists .null], [], none, []⟩ := by
  change Group.insert scope ["best"] _ _ _ = _
  rw [Group.insert_eq, show scope.resolve ["best"] = .field (.prop best) from rfl]
  rfl

theorem compile_lonely : compileFilter layout "user" lonely none = .ok lonelyBlock := by
  have hgroup : lonely.group scope = ⟨[], [], none,
      [(⟨[], [(1, ⟨best, ⟨[.condition .id .equal (.int 2)], [], none, []⟩⟩)], none, []⟩,
        ⟨[.condition (.prop best) .notExists .null], [], none, []⟩)]⟩ := by
    rw [← group_second, ← group_unset]
    rfl
  have hnone : [].mapM (Test.compile 0) = .ok [] := rfl
  have hid : [Test.condition .id .equal (.int 2)].mapM (Test.compile 0) = .ok [second] := rfl
  have hbest : [Test.condition (.prop best) .notExists .null].mapM (Test.compile 0) = .ok [unset] := rfl
  have hbind : ∀ {α β : Type} (a : α) (k : α → Except Error β), (Except.ok a >>= k) = k a := fun _ _ => rfl
  change (do return encodeBlock (← (lonely.group scope).clauses 0)) = _
  rw [hgroup]
  simp only [Group.clauses, Group.linkClauses, Group.edgeClauses, Group.choiceClauses, hnone, hid, hbest, hbind,
    List.mergeSort_nil, List.mergeSort_singleton]
  rfl

/-- Two users who are best friends, and one who has none. -/
def three : Memory :=
  ((Memory.new layout).apply
    ([Write.Instr.opSelectType, 1, 0, Write.Instr.opCreateNode, 0, 0, 0, 0, Write.Instr.opCreateNode, 1, 0, 0, 0] ++
      [Write.Instr.opSelectField, 1, 13, Write.Instr.opSetRef, Write.RefEntry.tmpFlag, 0, 0, 0, 0] ++
      [Write.Instr.opCreateNode, 2, 0, 0, 0])).2

theorem reached_three : Reached layout three := .apply _ .new

end Friends

end NodeStore.Query
