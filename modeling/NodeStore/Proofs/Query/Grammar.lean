import NodeStore.Proofs.Query.Filters

/-!
# The grammar of filter blocks

The block of a filter can be read in exactly one way: as the items that the terms of the filter stand for, in the order
of their kinds, each size being that of what follows it, and each jump leading to where the right items start.

* `ItemAt`, `Parses`: the items between two positions of a block; `Parses.unique`: there is one way to read them.
* `parses_encodeBlock`: the bytes of some clauses are read as these clauses.
* `Conjoins`: the clauses that a conjunction stands for; `group_conjoins`: those of a filter.
* `compileFilter_parses`: the whole block.
-/

namespace NodeStore.Query

open Engine

/-! ## Reading blocks -/

/-- The first `stop` bytes of a block have an item at a position, and what follows it starts at `next`. -/
def ItemAt (block : Bytes) (pos stop : Nat) (item : Item) (next : Nat) : Prop :=
  ∃ r, Item.read (.ofBytes ((block.take stop).drop pos)) = .ok item r ∧ next = pos + r.pos

/-- The items from a position of a block up to another one. What stands behind a reference or a link is a block with
positions of its own; the sides of a disjunction are parts of the block that it stands in. -/
inductive Parses : Bytes → Nat → Nat → List Clause → Prop
  | nil {block : Bytes} {pos : Nat} (inside : pos ≤ block.length) : Parses block pos pos []
  | condition {block : Bytes} {pos next stop : Nat} {c : Condition} {cs : List Clause}
      (head : ItemAt block pos stop (.condition c) next) (rest : Parses block next stop cs) :
      Parses block pos stop (.condition c :: cs)
  | link {block body : Bytes} {pos next stop : Nat} {one : Bool} {slot : UInt8} {type : TypeId} {inner cs : List Clause}
      (head : ItemAt block pos stop (.link one slot body) next) (typed : (block.drop (pos + 2)).take 2 = leBytes 2 type.toNat)
      (nested : Parses body 0 body.length inner) (rest : Parses block next stop cs) :
      Parses block pos stop (.link one slot type inner :: cs)
  | edge {block body : Bytes} {pos next stop : Nat} {inner cs : List Clause}
      (head : ItemAt block pos stop (.edge body) next) (nested : Parses body 0 body.length inner)
      (rest : Parses block next stop cs) : Parses block pos stop (.edge inner :: cs)
  /-- The left items end and the right ones begin where the jump leads, and the disjunction ends behind as many bytes as
  the right items are said to take. -/
  | either {block : Bytes} {pos next jump size stop : Nat} {left right cs : List Clause}
      (head : ItemAt block pos stop (.either jump size) next) (forward : next ≤ jump) (inside : jump + size ≤ stop)
      (first : Parses block next jump left) (second : Parses block jump (jump + size) right)
      (rest : Parses block (jump + size) stop cs) : Parses block pos stop (.either left right :: cs)

section

variable {block : Bytes} {pos next stop : Nat} {item : Item}

theorem ItemAt.unique {item' : Item} {next' : Nat} (h : ItemAt block pos stop item next)
    (h' : ItemAt block pos stop item' next') : item = item' ∧ next = next' := by
  obtain ⟨r, hr, rfl⟩ := h
  obtain ⟨r', hr', rfl⟩ := h'
  rw [hr] at hr'
  cases hr'
  exact ⟨rfl, rfl⟩

/-- An item takes at least its opcode. -/
theorem ItemAt.lt (h : ItemAt block pos stop item next) : pos < next ∧ next ≤ stop := by
  obtain ⟨r, hr, rfl⟩ := h
  have htakes := Item.takes_read _ _ _ hr
  simp only [Wire.Reader.ofBytes, List.length_drop, List.length_take] at htakes
  omega

/-- There is one way to read a block. -/
theorem Parses.unique {cs ds : List Clause} (h : Parses block pos stop cs) (h' : Parses block pos stop ds) : cs = ds := by
  induction h generalizing ds with
  | nil =>
    cases h' with
    | nil => rfl
    | condition head | link head | edge head | either head =>
      have := head.lt
      omega
  | condition head _ ih =>
    cases h' with
    | nil =>
      have := head.lt
      omega
    | condition head' rest' =>
      obtain ⟨hitem, rfl⟩ := head.unique head'
      cases hitem
      rw [ih rest']
    | link head' | edge head' | either head' => cases (head.unique head').1
  | link head typed _ _ ihnested ih =>
    cases h' with
    | nil =>
      have := head.lt
      omega
    | link head' typed' nested' rest' =>
      obtain ⟨hitem, rfl⟩ := head.unique head'
      cases hitem
      have htype := congrArg leNat (typed.symm.trans typed')
      rw [leNat_leBytes_of_lt (UInt16.toNat_lt _), leNat_leBytes_of_lt (UInt16.toNat_lt _)] at htype
      rw [UInt16.toNat.inj htype, ihnested nested', ih rest']
    | condition head' | edge head' | either head' => cases (head.unique head').1
  | edge head _ _ ihnested ih =>
    cases h' with
    | nil =>
      have := head.lt
      omega
    | edge head' nested' rest' =>
      obtain ⟨hitem, rfl⟩ := head.unique head'
      cases hitem
      rw [ihnested nested', ih rest']
    | condition head' | link head' | either head' => cases (head.unique head').1
  | either head _ _ _ _ _ ihfirst ihsecond ih =>
    cases h' with
    | nil =>
      have := head.lt
      omega
    | either head' _ _ first' second' rest' =>
      obtain ⟨hitem, rfl⟩ := head.unique head'
      cases hitem
      rw [ihfirst first', ihsecond second', ih rest']
    | condition head' | link head' | edge head' => cases (head.unique head').1

/-! ### Blocks of clauses -/

theorem itemAt_of_reads {bs : Bytes} (hread : Wire.Reads Item.read bs item) (h : Stands block pos bs)
    (hstop : pos + bs.length ≤ stop) : ItemAt block pos stop item (pos + bs.length) := by
  obtain ⟨rest, hr⟩ := read_item hread h hstop
  exact ⟨_, hr, rfl⟩

mutual

/-- A clause is read where its bytes stand, and then what follows them. -/
theorem parses_clause (c : Clause) (hc : c.Each Condition.WellFormed) {block : Bytes} {pos stop : Nat} {cs : List Clause}
    (h : Stands block pos (c.encode pos)) (hstop : pos + (c.encode pos).length ≤ stop) (hblock : block.length < 2 ^ 32)
    (hrest : Parses block (pos + (c.encode pos).length) stop cs) : Parses block pos stop (c :: cs) :=
  match c, hc with
  | .condition c, hc => by
    have hle := h.le
    simp only [Clause.encode, List.length_cons, Condition.encode_eq, List.length_append, Wire.length_sized] at hle
    exact .condition (itemAt_of_reads (Item.reads_condition hc (by omega)) h hstop) hrest
  | .link one slot type body, hc => by
    have hle := h.le
    simp only [Clause.encode, List.length_cons, List.length_append, Wire.length_sized] at hle
    have hbody : (Clause.encodeFrom 0 body).length < 2 ^ 32 := by omega
    have hnested := parses_clauses body hc (stands_whole _) hbody
    rw [Nat.zero_add] at hnested
    refine .link (itemAt_of_reads (Item.reads_link hbody) h hstop) ?_ hnested hrest
    -- The type stands behind the opcode and the slot.
    obtain ⟨front, back, rfl, rfl⟩ := h
    rw [Clause.encode, List.append_assoc, List.drop_append, List.drop_of_length_le (by omega)]
    simp [List.take_left']
  | .edge body, hc => by
    have hle := h.le
    simp only [Clause.encode, List.length_cons, Wire.length_sized] at hle
    have hbody : (Clause.encodeFrom 0 body).length < 2 ^ 32 := by omega
    have hnested := parses_clauses body hc (stands_whole _) hbody
    rw [Nat.zero_add] at hnested
    exact .edge (itemAt_of_reads (Item.reads_edge hbody) h hstop) hnested hrest
  | .either left right, hc => by
    have hle := h.le
    rw [Clause.encode] at h hstop hrest hle
    have hfirst := h.left.right
    have hsecond := h.right
    rw [Clause.length_header] at hfirst
    rw [List.length_append, Clause.length_header, ← Nat.add_assoc] at hsecond
    rw [List.length_append, List.length_append, Clause.length_header, ← Nat.add_assoc, ← Nat.add_assoc] at hstop hrest hle
    have hhead : ItemAt block pos stop _ _ :=
      itemAt_of_reads (Item.reads_either (by omega) (by omega)) h.left.left (by rw [Clause.length_header]; omega)
    rw [Clause.length_header] at hhead
    exact .either hhead (by omega) hstop (parses_clauses left hc.1 hfirst hblock)
      (parses_clauses right hc.2 hsecond hblock) hrest

/-- The bytes of some clauses are read as these clauses. -/
theorem parses_clauses (cs : List Clause) (hcs : Clause.EachOf Condition.WellFormed cs) {block : Bytes} {pos : Nat}
    (h : Stands block pos (Clause.encodeFrom pos cs)) (hblock : block.length < 2 ^ 32) :
    Parses block pos (pos + (Clause.encodeFrom pos cs).length) cs :=
  match cs, hcs with
  | [], _ => .nil h.le
  | c :: cs, hcs => by
    rw [Clause.encodeFrom] at h ⊢
    have hrest := parses_clauses cs hcs.2 h.right hblock
    rw [List.length_append, ← Nat.add_assoc]
    exact parses_clause c hcs.1 h.left (by omega) hblock hrest

end

theorem parses_encodeBlock {cs : List Clause} (hcs : Clause.EachOf Condition.WellFormed cs)
    (hsize : (encodeBlock cs).length < 2 ^ 32) : Parses (encodeBlock cs) 0 (encodeBlock cs).length cs := by
  have h := parses_clauses cs hcs (stands_whole _) hsize
  rwa [Nat.zero_add] at h

end

/-! ## What conjunctions stand for -/

/-- The conditions on the node itself, with the fields that their paths lead to. -/
def Scope.onNode (s : Scope) (cs : List Criterion) : List (Field × Criterion) :=
  cs.filterMap fun c =>
    match s.resolve c.path with
    | .field f => some (f, c)
    | _ => none

/-- The field of one condition does not stand behind that of another. -/
def Condition.Precedes (a b : Condition) : Prop := a.slot < b.slot ∨ a.slot = b.slot ∧ a.start ≤ b.start

section

variable (locale : UInt8)

mutual

/-- The clauses of a conjunction with its disjunctions: the conditions on the node in the order of the places of their
fields, one block for each reference that conditions lead through, by slot, one for the conditions on the link, and the
disjunctions in their own order. -/
inductive Conjoins : Scope → List Criterion → List (Filter × Filter) → List Clause → Prop
  | intro {s : Scope} {cs : List Criterion} {choices : List (Filter × Filter)} {compiled conditions : List Condition}
      {slots : List UInt8} {links edge disjunctions : List Clause} (leads : ∀ c ∈ cs, s.resolve c.path ≠ .nowhere)
      (own : List.Forall₂ (fun fc d => fc.1.condition fc.2.operator fc.2.value locale = .ok d) (s.onNode cs) compiled)
      (reordered : conditions.Perm compiled) (ordered : conditions.Pairwise Condition.Precedes)
      (behind : LinksThrough s cs slots links) (ascending : slots.Pairwise (· < ·))
      (used : ∀ slot, slot ∈ slots ↔ s.behind slot cs ≠ []) (onLink : LinksOn s cs edge)
      (either : Disjoins s choices disjunctions) :
      Conjoins s cs choices (conditions.map .condition ++ links ++ edge ++ disjunctions)

/-- For each of some slots the block of the conditions that lead through its reference. -/
inductive LinksThrough : Scope → List Criterion → List UInt8 → List Clause → Prop
  | nil {s : Scope} {cs : List Criterion} : LinksThrough s cs [] []
  | cons {s target : Scope} {cs : List Criterion} {c : Criterion} {p : PropDef EdgeLayout} {slot : UInt8}
      {rest : List String} {slots : List UInt8} {body links : List Clause} (mem : c ∈ cs)
      (leads : s.resolve c.path = .through p slot target rest) (inner : Conjoins target (s.behind slot cs) [] body)
      (more : LinksThrough s cs slots links) :
      LinksThrough s cs (slot :: slots) (.link (p.type = .reference) slot target.layout.id body :: links)

/-- The block of the conditions on what the link stores, if there are any. -/
inductive LinksOn : Scope → List Criterion → List Clause → Prop
  | none {s : Scope} {cs : List Criterion} (unused : s.onEdge cs = []) : LinksOn s cs []
  | some {s : Scope} {cs : List Criterion} {edges : EdgeLayout} {body : List Clause} (stored : s.edges = .some edges)
      (used : s.onEdge cs ≠ []) (inner : Conjoins (s.ofEdges edges) (s.onEdge cs) [] body) : LinksOn s cs [.edge body]

/-- The sides of each disjunction are conjunctions of their own in the same scope. -/
inductive Disjoins : Scope → List (Filter × Filter) → List Clause → Prop
  | nil {s : Scope} : Disjoins s [] []
  | cons {s : Scope} {left right : Filter} {choices : List (Filter × Filter)} {first second rest : List Clause}
      (leftSide : Conjoins s left.criteria left.choices first) (rightSide : Conjoins s right.criteria right.choices second)
      (more : Disjoins s choices rest) : Disjoins s ((left, right) :: choices) (.either first second :: rest)

end

end

/-! ### Conditions -/

theorem precedes_mergeSort (conditions : List Condition) :
    (conditions.mergeSort Condition.before).Pairwise Condition.Precedes := by
  have hbefore : ∀ a b : Condition, a.before b = true ↔ a.Precedes b := fun a b => by
    simp [Condition.before, Condition.Precedes]
  refine (@List.pairwise_mergeSort _ Condition.before (fun a b c hab hbc => ?_) (fun a b => ?_) conditions).imp
    fun {a b} hab => (hbefore a b).1 hab
  · rw [hbefore] at hab hbc ⊢
    rcases hab with hab | ⟨hab, hab'⟩ <;> rcases hbc with hbc | ⟨hbc, hbc'⟩
    · exact .inl (Std.lt_trans hab hbc)
    · exact .inl (hbc ▸ hab)
    · exact .inl (hab ▸ hbc)
    · exact .inr ⟨hab.trans hbc, Nat.le_trans hab' hbc'⟩
  · rw [Bool.or_eq_true, hbefore, hbefore]
    by_cases hlt : a.slot < b.slot
    · exact .inl (.inl hlt)
    · by_cases hgt : b.slot < a.slot
      · exact .inr (.inl hgt)
      · have heq : a.slot = b.slot := UInt8.le_antisymm (UInt8.not_lt.1 hgt) (UInt8.not_lt.1 hlt)
        exact (Nat.le_total a.start b.start).imp (fun h => .inr ⟨heq, h⟩) fun h => .inr ⟨heq.symm, h⟩

/-- The conditions that compile lead somewhere, and those on the node become conditions on the wire, one by one. -/
theorem tests_compile {s : Scope} {locale : UInt8} {cs : List Criterion} {conditions : List Condition}
    (h : (cs.filterMap s.test?).mapM (Test.compile locale) = .ok conditions) :
    (∀ c ∈ cs, s.resolve c.path ≠ .nowhere) ∧
      List.Forall₂ (fun fc d => fc.1.condition fc.2.operator fc.2.value locale = .ok d) (s.onNode cs) conditions := by
  induction cs generalizing conditions with
  | nil =>
    cases h
    exact ⟨nofun, .nil⟩
  | cons c cs ih =>
    cases hr : s.resolve c.path with
    | field f =>
      have htest : s.test? c = some (.condition f c.operator c.value) := by rw [Scope.test?, hr]
      have hnode : s.onNode (c :: cs) = (f, c) :: s.onNode cs := by simp [Scope.onNode, hr]
      rw [List.filterMap_cons_some htest, List.mapM_cons] at h
      obtain ⟨d, hd, h⟩ := Except.bind_eq_ok.1 h
      obtain ⟨ds, hds, h⟩ := Except.bind_eq_ok.1 h
      cases h
      obtain ⟨hleads, hown⟩ := ih hds
      exact ⟨List.forall_mem_cons.2 ⟨by simp [hr], hleads⟩, hnode ▸ .cons hd hown⟩
    | nowhere =>
      have htest : s.test? c = some (.fault (s.unknown c.path)) := by rw [Scope.test?, hr]
      rw [List.filterMap_cons_some htest, List.mapM_cons] at h
      obtain ⟨d, hd, -⟩ := Except.bind_eq_ok.1 h
      cases hd
    | through | edge =>
      have htest : s.test? c = none := by rw [Scope.test?, hr]
      have hnode : s.onNode (c :: cs) = s.onNode cs := by simp [Scope.onNode, hr]
      rw [List.filterMap_cons_none htest] at h
      obtain ⟨hleads, hown⟩ := ih h
      exact ⟨List.forall_mem_cons.2 ⟨by simp [hr], hleads⟩, hnode ▸ hown⟩

/-! ### References -/

section

variable {schema : SchemaLayout} {s : Scope} {locale : UInt8} {cs : List Criterion}

/-- The blocks of some references, given what stands behind each of them. -/
theorem linksThrough_of_linkClauses (hp : schema.Placed) (hs : s.schema = schema)
    {links : List (UInt8 × Through Group)} {behind : List Clause} (h : Group.linkClauses locale links = .ok behind)
    (hleads : ∀ e ∈ links, ∃ c ∈ cs, ∃ target rest, s.resolve c.path = .through e.2.prop e.1 target rest ∧
      ∀ body, e.2.body.clauses locale = .ok body → Conjoins locale target (s.behind e.1 cs) [] body) :
    LinksThrough locale s cs (links.map (·.1)) behind := by
  induction links generalizing behind with
  | nil =>
    cases h
    exact .nil
  | cons e links ih =>
    obtain ⟨slot, ⟨p, g⟩⟩ := e
    rw [Group.linkClauses] at h
    obtain ⟨body, hbody, h⟩ := Except.bind_eq_ok.1 h
    obtain ⟨rest, hrest, h⟩ := Except.bind_eq_ok.1 h
    cases h
    obtain ⟨c, hc, target, path, hr, hinner⟩ := hleads _ List.mem_cons_self
    obtain ⟨-, -, htarget, -⟩ := Scope.reference_of_resolve hr
    obtain ⟨-, -, -, r, hr', hid, -⟩ := through_spec hp hs htarget
    have htype : (p.target.map (·.id)).getD 0 = target.layout.id := by
      change (p.target.map (·.id)).getD 0 = _
      rw [hr', ← hid]
      rfl
    rw [htype]
    exact .cons hc hr (hinner body hbody) (ih hrest fun e he => hleads e (List.mem_cons_of_mem _ he))

/-- The clauses of some conditions are those of their conjunction. -/
theorem groupOf_conjoins (hp : schema.Placed) (s : Scope) (hv : s.Valid schema) (cs : List Criterion)
    {clauses : List Clause} (h : (groupOf s cs).clauses locale = .ok clauses) : Conjoins locale s cs [] clauses := by
  obtain ⟨conditions, behind, onLink, either, hc, hl, he, hnil, rfl⟩ := clauses_eq_ok h
  rw [choices_groupOf] at hnil
  cases hnil
  rw [tests_groupOf] at hc
  obtain ⟨hleads, hown⟩ := tests_compile hc
  obtain ⟨hsorted, hnone, hsome⟩ := find?_links_groupOf hv.placed cs
  have hlink : ∀ e ∈ (groupOf s cs).links, ∃ c ∈ cs, ∃ target rest, s.resolve c.path = .through e.2.prop e.1 target rest ∧
      e.2.body = groupOf target (s.behind e.1 cs) := by
    rintro ⟨slot, through⟩ hmem
    have hfind := hsorted.find?_of_mem hmem
    have hcs : s.behind slot cs ≠ [] := fun hcs => by
      rw [hnone slot hcs] at hfind
      cases hfind
    obtain ⟨d, hd⟩ := List.exists_mem_of_ne_nil _ hcs
    obtain ⟨c, hc, p, target, hr, -⟩ := mem_behind.1 hd
    rw [hsome c hc p slot target _ hr] at hfind
    cases hfind
    exact ⟨c, hc, target, _, hr, rfl⟩
  refine .intro hleads hown (List.mergeSort_perm ..) (precedes_mergeSort _)
    (linksThrough_of_linkClauses hp hv.schema hl fun e hmem => ?_) hsorted (fun slot => ?_) ?_ .nil
  · obtain ⟨c, hc, target, rest, hr, hbody⟩ := hlink e hmem
    refine ⟨c, hc, target, rest, hr, fun body h => ?_⟩
    rw [hbody] at h
    exact groupOf_conjoins hp target (hv.through hp (Scope.refers_of_resolve hr)) (s.behind e.1 cs) h
  · refine ⟨fun hslot hcs => ?_, fun hcs => ?_⟩
    · obtain ⟨e, hmem, rfl⟩ := List.mem_map.1 hslot
      have hfind := hsorted.find?_of_mem hmem
      rw [hnone e.1 hcs] at hfind
      cases hfind
    · obtain ⟨d, hd⟩ := List.exists_mem_of_ne_nil _ hcs
      obtain ⟨c, hc, p, target, hr, -⟩ := mem_behind.1 hd
      exact List.mem_map_of_mem (f := Prod.fst) (Assoc.mem_of_find? (hsome c hc p slot target _ hr))
  · cases hedges : s.edges with
    | none =>
      rw [edges_groupOf_none hedges] at he
      cases he
      refine .none ?_
      by_contra hon
      obtain ⟨c, -, edges, rest, hr⟩ := exists_of_onEdge hon
      have := (Scope.length_of_edge hr).2
      rw [hedges] at this
      cases this
    | some edges =>
      rw [edges_groupOf hedges] at he
      split at he
      · rename_i hon
        cases he
        exact .none hon
      · rename_i hon
        obtain ⟨body, hbody, he⟩ := Except.bind_eq_ok.1 he
        cases he
        exact .some hedges hon (groupOf_conjoins hp (s.ofEdges edges) (hv.ofEdges hedges) (s.onEdge cs) hbody)
  termination_by (segments cs, if s.edges.isSome then 1 else 0)
  decreasing_by
    · exact .left _ _ (Scope.segments_behind hc hr)
    · rw [hedges]
      rcases Nat.lt_or_eq_of_le (s.segments_onEdge cs) with h | h
      · exact .left _ _ h
      · exact h ▸ .right _ (by simp [Scope.ofEdges])

/-! ### Filters -/

/-- Disjunctions stand behind the conditions that they are joined with. -/
theorem Conjoins.withChoices {choices : List (Filter × Filter)} {own disjunctions : List Clause}
    (h : Conjoins locale s cs [] own) (hchoices : Disjoins locale s choices disjunctions) :
    Conjoins locale s cs choices (own ++ disjunctions) := by
  cases h with
  | intro leads own reordered ordered behind ascending used onLink either =>
    cases either
    rw [List.append_nil]
    exact .intro leads own reordered ordered behind ascending used onLink hchoices

/-- The clauses of some disjunctions, given those of their sides. -/
theorem disjoins_of_choiceClauses {choices : List (Filter × Filter)} {disjunctions : List Clause}
    (h : Group.choiceClauses locale (choiceGroups s choices) = .ok disjunctions)
    (hside : ∀ c ∈ choices, ∀ f, f = c.1 ∨ f = c.2 → ∀ clauses, (f.group s).clauses locale = .ok clauses →
      Conjoins locale s f.criteria f.choices clauses) : Disjoins locale s choices disjunctions := by
  induction choices generalizing disjunctions with
  | nil =>
    cases h
    exact .nil
  | cons c choices ih =>
    rw [choiceGroups, List.map_cons, Group.choiceClauses] at h
    obtain ⟨left, hleft, h⟩ := Except.bind_eq_ok.1 h
    obtain ⟨right, hright, h⟩ := Except.bind_eq_ok.1 h
    obtain ⟨rest, hrest, h⟩ := Except.bind_eq_ok.1 h
    cases h
    exact .cons (hside c List.mem_cons_self c.1 (.inl rfl) left hleft)
      (hside c List.mem_cons_self c.2 (.inr rfl) right hright)
      (ih hrest fun c' hc' => hside c' (List.mem_cons_of_mem _ hc'))

/-- The clauses of a filter are those of its conjunction. -/
theorem group_conjoins (hp : schema.Placed) (hv : s.Valid schema) (f : Filter) {clauses : List Clause}
    (h : (f.group s).clauses locale = .ok clauses) : Conjoins locale s f.criteria f.choices clauses := by
  rw [Filter.group_eq] at h
  obtain ⟨own, either, hown, heither, rfl⟩ := clauses_withChoices h
  exact (groupOf_conjoins hp s hv f.criteria hown).withChoices
    (disjoins_of_choiceClauses heither fun c hc g hg clauses hclauses => group_conjoins hp hv g hclauses)
  termination_by f
  decreasing_by
    obtain ⟨hleft, hright⟩ := f.sizeOf_choices c hc
    rcases hg with rfl | rfl
    · exact hleft
    · exact hright

end

/-- The block of a filter that compiles is read in exactly one way, as clauses that the filter stands for. Sizes and jumps
have four bytes, and so has the length with which a block reaches its reader. -/
theorem compileFilter_parses {decl : SchemaDecl} {priority : Priority} {schema : SchemaLayout}
    (hc : decl.compile priority = .ok schema) {type : String} {f : Filter} {code : Option String} {block : Bytes}
    (hf : compileFilter schema type f code = .ok block) :
    ∃ t locale clauses, schema.typeByName? type = some t ∧ localeId schema code = .ok locale ∧
      Conjoins locale (.ofType schema t) f.criteria f.choices clauses ∧
      (block.length < 2 ^ 32 →
        Parses block 0 block.length clauses ∧ ∀ cs, Parses block 0 block.length cs → cs = clauses) := by
  have hp := compile_placed hc
  unfold compileFilter at hf
  split at hf
  · cases hf
  · rename_i t ht
    have hv := valid_ofType hp (List.mem_of_find?_eq_some ht)
    obtain ⟨locale, hlocale, hf⟩ := Except.bind_eq_ok.1 hf
    obtain ⟨clauses, hclauses, hf⟩ := Except.bind_eq_ok.1 hf
    cases hf
    refine ⟨t, locale, clauses, ht, hlocale, group_conjoins hp hv f hclauses, fun hsize => ?_⟩
    -- Whether conditions can be read back does not depend on a store.
    have hsettles := group_settles hp Store.Fits.empty hv f hclauses (Clause.eachOf_of_length clauses 0 hsize)
    have hparses := parses_encodeBlock hsettles.wellFormed hsize
    exact ⟨hparses, fun cs hcs => hcs.unique hparses⟩

open Engine.Friends Friends in
/-- A disjunction with a reference on its left side: the jump leads over the block behind the reference. -/
theorem compileFilter_parses_lonely :
    decl.compile = .ok layout ∧ compileFilter layout "user" lonely none = .ok lonelyBlock ∧
      ∃ t locale clauses, layout.typeByName? "user" = some t ∧ localeId layout none = .ok locale ∧
        Conjoins locale (.ofType layout t) lonely.criteria lonely.choices clauses ∧
        (lonelyBlock.length < 2 ^ 32 →
          Parses lonelyBlock 0 lonelyBlock.length clauses ∧ ∀ cs, Parses lonelyBlock 0 lonelyBlock.length cs → cs = clauses) :=
  ⟨compile_decl, compile_lonely, compileFilter_parses compile_decl compile_lonely⟩

end NodeStore.Query
