import NodeStore.Proofs.Engine.MainBlocks
import NodeStore.Proofs.Schema.WellFormed
import NodeStore.Proofs.Write.Deliveries
import NodeStore.Proofs.Write.ReadBack

/-!
# Counters

A call adds an amount to a number without reading it, and the engine holds the number at the ends of its range. The
amount travels in the width of the number, so what is added is the asked for amount wherever that lies in the range.

* `readInt_addDelta`: one addition or subtraction, for any amount.
* `CountCall.About.effect`: what one call does to a main block; `countsOnto`: a run of calls.
* `CountCall.brings`: what one call makes of a store; `countAll_brings`: a run of calls.
* `counts_accumulate`: the numbers are the left folds of what was asked for, and nothing else changes.
-/

namespace NodeStore

/-! ### Numbers of the main block -/

theorem PropType.isNumeric_of_range {type : PropType} {range : Int × Int} (h : type.intRange? = some range) :
    type.isNumeric = true := by
  cases type <;> first | rfl | cases h

/-! ### One step -/

namespace Engine

/-- The amount as the engine reads it from the bytes of a number. -/
def carried (type : PropType) (width : Nat) (amount : Int) : Int := readInt type.isSigned (intBytes width amount)

/-- What a counter of a range is after one step. -/
def stepped (range : Int × Int) (decrement : Bool) (amount v : Int) : Int :=
  clamp range.1 range.2 (if decrement then v - amount else v + amount)

/-- An amount of the range is carried as it is. -/
theorem carried_of_range {type : PropType} {low high : Int} (hrange : type.intRange? = some (low, high)) {w : Nat}
    (hw : type.fixedWidth = some w) {amount : Int} (hlow : low ≤ amount) (hhigh : amount ≤ high) :
    carried type w amount = amount := readInt_intBytes hrange hw hlow hhigh

theorem ne_number_of_range {type : PropType} {range : Int × Int} (h : type.intRange? = some range) : type ≠ .number := by
  rintro rfl
  cases h

theorem low_le_high {type : PropType} {low high : Int} (h : type.intRange? = some (low, high)) : low ≤ high := by
  cases type <;> cases h <;> decide

theorem le_clamp {low high : Int} (i : Int) : low ≤ clamp low high i := by
  unfold clamp
  omega

theorem clamp_le {low high : Int} (h : low ≤ high) (i : Int) : clamp low high i ≤ high := by
  unfold clamp
  omega

/-- The engine adds what was carried, and stays in the range. -/
theorem readInt_addDelta {type : PropType} {low high : Int} (hrange : type.intRange? = some (low, high)) {w : Nat}
    (hw : type.fixedWidth = some w) (decrement : Bool) (amount : Int) {field : Bytes} (hfield : field.length = w) :
    readInt type.isSigned (addDelta type decrement (intBytes w amount) field) =
      stepped (low, high) decrement (carried type w amount) (readInt type.isSigned field) := by
  unfold addDelta
  rw [if_neg (ne_number_of_range hrange)]
  simp only [hrange, hfield]
  exact readInt_intBytes hrange hw (le_clamp _) (clamp_le (low_le_high hrange) _)

end Engine

namespace Write

open Engine

/-- A call that adds an integer to a number of a node, or subtracts it. -/
structure CountCall where
  type : String
  target : NodeRef
  field : String
  amount : Int64
  decrement : Bool

namespace CountCall

def act (c : CountCall) : SessionM Unit := Session.count c.type c.target c.field (.int c.amount) c.decrement

/-- The amount in the bytes that a property has. -/
def delta (c : CountCall) (p : PropDef EdgeLayout) : Bytes :=
  if p.type = .number then (Binary64.ofInt c.amount.toInt).toBytes else intBytes p.len c.amount.toInt

/-- A main block after the call has changed a property of it. -/
def onProp (c : CountCall) (p : PropDef EdgeLayout) (main : Bytes) : Bytes :=
  Bytes.overwrite (p.offset?.getD 0) (addDelta p.type c.decrement (c.delta p) (p.slice main)) main

/-- The main block of a node of some type after the call. -/
def onMain (c : CountCall) (t : TypeLayout) (main : Bytes) : Bytes :=
  match t.prop? c.field with
  | some p => c.onProp p main
  | none => main

end CountCall

/-! ### Main blocks -/

section

variable {t : TypeLayout} {c : CountCall} {p q : PropDef EdgeLayout} {main : Bytes}

theorem amountBytes_int (c : CountCall) (p : PropDef EdgeLayout) : amountBytes p (.int c.amount) = .ok (c.delta p) := by
  unfold amountBytes CountCall.delta
  split <;> rfl

theorem length_delta (c : CountCall) (hm : p.Measured) (hn : p.type.isNumeric = true) : (c.delta p).length = p.len := by
  unfold CountCall.delta
  split
  · rename_i htype
    have hw := (hm.number hn).1
    rw [htype] at hw
    rw [Binary64.length_toBytes]
    exact Option.some.inj hw
  · exact length_intBytes ..

theorem length_addDelta_slice (c : CountCall) (hm : p.Measured) (hn : p.type.isNumeric = true) {a : Nat} (ha : p.offset? = some a)
    (hin : a + p.len ≤ main.length) : (addDelta p.type c.decrement (c.delta p) (p.slice main)).length = p.len := by
  have hw : p.type.fixedWidth.getD 0 = p.len := by rw [(hm.number hn).1, Option.getD_some]
  rw [← hw]
  exact length_addDelta (hw ▸ length_slice ha hin)

/-- The call is about a number of the type. -/
def CountCall.About (c : CountCall) (t : TypeLayout) (p : PropDef EdgeLayout) : Prop :=
  t.prop? c.field = some p ∧ p.type.isNumeric = true

theorem CountCall.About.mem (h : c.About t p) : p ∈ t.props := List.mem_of_find?_eq_some h.1

theorem CountCall.About.name (h : c.About t p) : p.name = c.field := by
  have := List.find?_some h.1
  simpa using this

theorem CountCall.About.onMain (h : c.About t p) (main : Bytes) : c.onMain t main = c.onProp p main := by
  unfold CountCall.onMain
  rw [h.1]

theorem CountCall.About.length_onMain (h : c.About t p) (ht : t.Placed) (hmain : main.length = t.mainLen) :
    (c.onMain t main).length = main.length := by
  have hm := ht.measured p h.mem
  obtain ⟨-, a, ha⟩ := hm.number h.2
  have hin : a + p.len ≤ main.length := hmain ▸ ht.inside p h.mem a ha
  have hlen := length_addDelta_slice c hm h.2 ha hin
  rw [h.onMain, CountCall.onProp, ha, Option.getD_some]
  exact Bytes.length_overwrite (by omega)

/-- What a call leaves of the main block. -/
structure CountCall.Effect (c : CountCall) (t : TypeLayout) (p : PropDef EdgeLayout) (main main' : Bytes) : Prop where
  length : main'.length = main.length
  here : p.slice main' = addDelta p.type c.decrement (c.delta p) (p.slice main)
  elsewhere : ∀ q ∈ t.props, q ≠ p → q.isMain = true → q.slice main' = q.slice main
  outside : ∀ k, (∀ a, p.offset? = some a → k < a ∨ a + p.len ≤ k) → main'[k]? = main[k]?

/-- A call changes one number and nothing else. -/
theorem CountCall.About.effect (h : c.About t p) (ht : t.Placed) (hk : t.Packed) (hmain : main.length = t.mainLen) :
    c.Effect t p main (c.onMain t main) := by
  have hm := ht.measured p h.mem
  obtain ⟨-, a, ha⟩ := hm.number h.2
  have hin : a + p.len ≤ main.length := hmain ▸ ht.inside p h.mem a ha
  have hlen := length_addDelta_slice c hm h.2 ha hin
  have hblock : c.onMain t main = Bytes.overwrite a (addDelta p.type c.decrement (c.delta p) (p.slice main)) main := by
    rw [h.onMain, CountCall.onProp, ha, Option.getD_some]
  refine ⟨h.length_onMain ht hmain, ?_, fun q hq hne hqm => ?_, fun k hk => ?_⟩
  · rw [hblock]
    exact slice_overwrite_self ha hlen hin
  · obtain ⟨b, hb⟩ := PropDef.offset?_of_isMain hqm
    obtain ⟨i, hi⟩ := List.getElem?_of_mem h.mem
    obtain ⟨j, hj⟩ := List.getElem?_of_mem hq
    have hij : j ≠ i := by
      rintro rfl
      exact hne (Option.some.inj (hj.symm.trans hi))
    rw [hblock]
    refine slice_overwrite_of_apart hb (by omega) ?_
    rw [hlen]
    exact hk.disjoint hj hi hij hb ha
  · rw [hblock, Bytes.getElem?_overwrite (by omega), hlen]
    rcases hk a ha with hlt | hle
    · rw [if_pos hlt]
    · rw [if_neg (by omega), if_neg (by omega)]

/-- The main block of a node of some type after some calls. -/
def onMainAll (t : TypeLayout) (calls : List CountCall) (main : Bytes) : Bytes :=
  calls.foldl (fun main c => c.onMain t main) main

/-- What some calls leave of the main block: the numbers are the left folds of what was carried to them. -/
structure CountsOnto (t : TypeLayout) (calls : List CountCall) (main main' : Bytes) : Prop where
  length : main'.length = main.length
  numbers : ∀ p ∈ t.props, ∀ range, p.type.intRange? = some range →
    readInt p.type.isSigned (p.slice main') =
      (calls.filter (·.field = p.name)).foldl
        (fun v c => stepped range c.decrement (carried p.type p.len c.amount.toInt) v) (readInt p.type.isSigned (p.slice main))
  outside : ∀ k, (∀ c ∈ calls, ∀ p, t.prop? c.field = some p → ∀ a, p.offset? = some a → k < a ∨ a + p.len ≤ k) →
    main'[k]? = main[k]?

theorem countsOnto (ht : t.Placed) (hk : t.Packed) (ha : t.Addressed) {calls : List CountCall}
    (h : ∀ c ∈ calls, ∃ p, c.About t p) (hmain : main.length = t.mainLen) :
    CountsOnto t calls main (onMainAll t calls main) := by
  induction calls generalizing main with
  | nil => exact ⟨rfl, fun _ _ _ _ => rfl, fun _ _ => rfl⟩
  | cons c calls ih =>
    obtain ⟨q, hq⟩ := h c List.mem_cons_self
    have hfirst := hq.effect ht hk hmain
    have hrest := ih (fun c' hc' => h c' (List.mem_cons_of_mem _ hc')) (hfirst.length.trans hmain)
    refine ⟨hrest.length.trans hfirst.length, fun p hp range hrange => ?_, fun k hout => ?_⟩
    · have hnumeric := PropType.isNumeric_of_range hrange
      obtain ⟨hw, b, hb⟩ := (ht.measured p hp).number hnumeric
      have hin : b + p.len ≤ main.length := hmain ▸ ht.inside p hp b hb
      rw [onMainAll, List.foldl_cons]
      refine (hrest.numbers p hp range hrange).trans ?_
      by_cases hname : c.field = p.name
      · -- The call is about this number, so it is the first step of the fold.
        obtain rfl : q = p := by
          have := hq.1
          rw [hname, ha.prop?_name hp] at this
          exact (Option.some.inj this).symm
        have hdelta : c.delta q = intBytes q.len c.amount.toInt := if_neg (ne_number_of_range hrange)
        have hstep := readInt_addDelta hrange hw c.decrement c.amount.toInt (length_slice hb hin)
        rw [List.filter_cons_of_pos (by simpa using hname), List.foldl_cons, hfirst.here, hdelta, hstep]
      · have hne : p ≠ q := by
          rintro rfl
          exact hname hq.name.symm
        rw [List.filter_cons_of_neg (by simpa using hname), hfirst.elsewhere p hp hne (PropDef.isMain_of_offset? hb)]
    · rw [onMainAll, List.foldl_cons]
      refine (hrest.outside k fun c' hc' => hout c' (List.mem_cons_of_mem _ hc')).trans ?_
      exact hfirst.outside k fun a hqa => hout c List.mem_cons_self q hq.1 a hqa

end

/-! ### Sessions -/

/-- The id of a node, if it has one. -/
def Registry.idOf? (r : Registry) (target : NodeRef) : Option NodeId :=
  match r.wireTarget target with
  | .ok (.id id) => some id
  | _ => none

theorem Registry.idOf?_eq_some {r : Registry} {target : NodeRef} {id : NodeId} :
    r.idOf? target = some id ↔ r.wireTarget target = .ok (.id id) := by
  unfold idOf?
  split
  · rename_i hwire
    rw [hwire]
    simp
  · rename_i hwire
    exact iff_of_false nofun (hwire id)

/-- An id stays. -/
theorem Registry.Later.idOf? {r r' : Registry} (h : r.Later r') {target : NodeRef} {id : NodeId}
    (hid : r.idOf? target = some id) : r'.idOf? target = some id := by
  rw [idOf?_eq_some] at hid ⊢
  cases target with
  | id n => exact hid
  | pending p =>
    obtain ⟨e, he, ⟨_, -, hw⟩ | ⟨_, -, hw⟩ | ⟨n, hs, hw⟩⟩ := wireTarget_pending.1 hid
    · cases hw
    · cases hw
    · obtain ⟨e', he', hs'⟩ := status_eq_ok.1 (h.status_resolved (status_eq_ok.2 ⟨e, he, hs⟩))
      exact wireTarget_pending.2 ⟨e', he', .inr (.inr ⟨n, hs', hw⟩)⟩

namespace Session

variable {s s' : Session} {m : Memory} {store : Store} {c : CountCall} {calls : List CountCall}

/-- A call that succeeds is about a number of its type; it writes to its node, or waits for it. -/
theorem count_eq_ok (hc : s.Compiled) (h : c.act s = .ok () s') :
    ∃ t p s₀ enc hs waits, s.schema.typeByName? c.type = some t ∧ c.About t p ∧ s.Opened s₀ ∧
      writeTo t.id c.target (fun _ => writeCount p (.int c.amount) c.decrement) s₀.context ⟨s₀.encoder, []⟩ =
        .ok waits ⟨enc, hs⟩ ∧
      s' = match waits with
        | none => { s₀ with encoder := enc, registry := hs.foldl (fun r x => r.oblige c.target t.id x) s₀.registry }
        | some q => { s₀ with
          encoder := enc, registry := s₀.registry.queue q (.increment c.field (.int c.amount) c.decrement) } := by
  unfold CountCall.act Session.count countNode at h
  obtain ⟨t, s₁, ht, h⟩ := EStateM.bind_eq_ok.1 h
  obtain ⟨hname, rfl⟩ := typeNamed_eq_ok.1 ht
  obtain ⟨t', s₂, ht', h⟩ := EStateM.bind_eq_ok.1 h
  obtain ⟨hid, rfl⟩ := typeWithId_eq_ok.1 ht'
  obtain rfl : t = t' := Option.some.inj ((hc.placed.ids t (List.mem_of_find?_eq_some hname)).symm.trans hid)
  cases hp : t.prop? c.field with
  | none =>
    rw [hp] at h
    cases h
  | some p =>
    rw [hp] at h
    dsimp only at h
    split at h
    · cases h
    · rename_i hcounter
      obtain ⟨s₀, enc, hs, waits, hopened, hcall, rfl⟩ := perform_eq_ok h
      refine ⟨t, p, s₀, enc, hs, waits, hname, ⟨hp, ?_⟩, hopened, hcall, rfl⟩
      simp only [Bool.or_eq_true, Bool.not_eq_true', not_or, Bool.not_eq_false] at hcounter
      exact hcounter.1.2

theorem CountCall.follows (hc : s.Compiled) (c : CountCall) : s.Follows (after c.act s) :=
  (called_of_typeNamed c.type fun _ => (countNode_wrote hc c.field (.int c.amount) c.decrement).called).follows

/-- One call counts on the stored node. -/
theorem CountCall.brings (hc : s.Compiled) (h : s.Brings m store) (hsized : store.Sized s.schema) {t : TypeLayout}
    (ht : s.schema.typeByName? c.type = some t) {id : NodeId} (hid : s.registry.idOf? c.target = some id) {n : StoredNode}
    (hn : store.node? t.id id = some n) (hact : c.act s = .ok () s') :
    (∃ p, c.About t p) ∧ s'.Brings m (store.setNode t.id id { n with main := c.onMain t n.main }) := by
  obtain ⟨t', p, s₀, enc, hs, waits, ht', habout, hopened, hwrite, rfl⟩ := count_eq_ok hc hact
  obtain rfl : t = t' := Option.some.inj (ht.symm.trans ht')
  have htype := hc.placed.ids t (List.mem_of_find?_eq_some ht)
  have hplaced := hc.placed.types t (List.mem_of_find?_eq_some ht)
  have hm := hplaced.measured p habout.mem
  obtain ⟨hw, a, ha⟩ := hm.number habout.2
  have hfollows := hopened.called.follows
  have hwire := Registry.idOf?_eq_some.1 (hfollows.sends.later.idOf? hid)
  rw [writeTo_of_node hwire rfl] at hwrite
  obtain ⟨_, d₁, hselect, hwrite⟩ := EStateM.bind_eq_ok.1 hwrite
  obtain ⟨_, d₂, hinstr, hreturn⟩ := EStateM.bind_eq_ok.1 hwrite
  cases hreturn
  unfold writeCount at hinstr
  rw [ha] at hinstr
  simp only [habout.2, Bool.not_true, Bool.false_eq_true, if_false, amountBytes_int] at hinstr
  have hboth : (do selectNode t.id (.id id); nodeInstr (.count c.decrement p.type.tag a (c.delta p)) : EncodeM Unit)
      ⟨s₀.encoder, []⟩ = .ok () ⟨enc, hs⟩ := EStateM.bind_eq_ok.2 ⟨_, d₁, hselect, hinstr⟩
  have hlen := length_delta c hm habout.2
  have hin : a + p.len ≤ n.main.length := (hsized.node htype hn).symm ▸ hplaced.inside p habout.mem a ha
  have hroom := hplaced.room
  have hmax : Limits.maxMainLength = 65535 := rfl
  have hmain := hsized.node htype hn
  have hexecutes : ∀ r : Run, r.On t id n → Executes s₀.schema (.count c.decrement p.type.tag a (c.delta p)) r
      (r.setNode t id { n with main := c.onMain t n.main }) := by
    intro r hon
    have hwidth : (c.delta p).length = p.type.fixedWidth.getD 0 := by
      rw [hlen, hw]
      rfl
    have hexec : Executes s₀.schema (.count c.decrement p.type.tag a (c.delta p)) r _ :=
      executes_count hon habout.2 c.decrement (by omega) hwidth (by omega)
    rw [hlen] at hexec
    rwa [habout.onMain, CountCall.onProp, PropDef.slice, ha]
  obtain ⟨rfl, hbrings⟩ := (h.opened hopened).onNode (hfollows.alike.schema ▸ htype) hn hboth hexecutes s₀.registry
  exact ⟨⟨p, habout⟩, hbrings⟩

/-! ### Runs of calls -/

/-- The calls of a list, one after the other. -/
def countAll (calls : List CountCall) : SessionM Unit := calls.forM CountCall.act

/-- The call goes to that node. -/
def hits (s : Session) (type : TypeId) (id : NodeId) (c : CountCall) : Bool :=
  (s.schema.typeByName? c.type).map (·.id) == some type && s.registry.idOf? c.target == some id

/-- The node that the call goes to is stored. -/
def Stored (s : Session) (store : Store) (c : CountCall) : Prop :=
  ∃ t id n, s.schema.typeByName? c.type = some t ∧ s.registry.idOf? c.target = some id ∧ store.node? t.id id = some n

theorem hits_iff {t : TypeLayout} (ht : s.schema.typeByName? c.type = some t) {id : NodeId}
    (hid : s.registry.idOf? c.target = some id) {type : TypeId} {k : NodeId} :
    s.hits type k c = true ↔ t.id = type ∧ id = k := by
  simp [hits, ht, hid]

theorem Compiled.eq_of_id (hc : s.Compiled) {t u : TypeLayout} (ht : t ∈ s.schema.types) (hu : u ∈ s.schema.types)
    (h : t.id = u.id) : t = u := by
  have hfound := hc.placed.ids u hu
  rw [← h, hc.placed.ids t ht] at hfound
  exact Option.some.inj hfound

/-- Some calls count on the stored nodes that they go to, and on no other. -/
theorem countAll_brings (hc : s.Compiled) (h : s.Brings m store) (hsized : store.Sized s.schema)
    (hstored : ∀ c ∈ calls, s.Stored store c) (hact : countAll calls s = .ok () s') :
    ∃ store', s'.Brings m store' ∧ ∀ t ∈ s.schema.types, ∀ id,
      (∀ c ∈ calls, s.hits t.id id c = true → ∃ p, c.About t p) ∧
      store'.node? t.id id = (store.node? t.id id).map fun n =>
        { n with main := onMainAll t (calls.filter (s.hits t.id id)) n.main } := by
  induction calls generalizing s store with
  | nil =>
    cases hact
    refine ⟨store, h, fun t _ id => ⟨nofun, ?_⟩⟩
    cases store.node? t.id id <;> rfl
  | cons c calls ih =>
    obtain ⟨_, s₁, hfirst, hrest⟩ := EStateM.bind_eq_ok.1 (hact : (c.act >>= fun _ => countAll calls) s = _)
    obtain ⟨t, id, n, ht, hid, hn⟩ := hstored c List.mem_cons_self
    obtain ⟨habout, hbrings⟩ := CountCall.brings hc h hsized ht hid hn hfirst
    have hfollows : s.Follows s₁ := after_of_ok hfirst ▸ CountCall.follows hc c
    have hschema := hfollows.alike.schema
    -- The nodes that the other calls go to are the same ones in the next session.
    have hnext : ∀ c' ∈ calls, s₁.Stored (store.setNode t.id id { n with main := c.onMain t n.main }) c' ∧
        ∀ type k, s₁.hits type k c' = s.hits type k c' := by
      intro c' hc'
      obtain ⟨t', id', n', ht', hid', hn'⟩ := hstored c' (List.mem_cons_of_mem _ hc')
      have hid₁ := hfollows.sends.later.idOf? hid'
      refine ⟨?_, fun type k => by rw [hits, hits, hschema, hid₁, hid']⟩
      by_cases hsame : t'.id = t.id ∧ id' = id
      · exact ⟨t', id', _, hschema ▸ ht', hid₁, by rw [Store.node?_setNode, if_pos hsame]⟩
      · exact ⟨t', id', n', hschema ▸ ht', hid₁, by rw [Store.node?_setNode, if_neg hsame]; exact hn'⟩
    have hmem := List.mem_of_find?_eq_some ht
    obtain ⟨p, hp⟩ := habout
    have hsized₁ := hsized.change hn (m := { n with main := c.onMain t n.main })
      (hp.length_onMain (hc.placed.types t hmem) (hsized.node (hc.placed.ids t hmem) hn))
    obtain ⟨store', hbrings', hnodes⟩ := ih (hc.congr hfollows.alike) hbrings (hschema ▸ hsized₁)
      (fun c' hc' => (hnext c' hc').1) hrest
    refine ⟨store', hbrings', fun u hu k => ?_⟩
    obtain ⟨habouts, hnode⟩ := hnodes u (hschema ▸ hu) k
    have hfilter : calls.filter (s₁.hits u.id k) = calls.filter (s.hits u.id k) :=
      List.filter_congr fun c' hc' => (hnext c' hc').2 _ _
    rw [hfilter, Store.node?_setNode] at hnode
    have hfirsthit : s.hits u.id k c = true ↔ t.id = u.id ∧ id = k := hits_iff ht hid
    refine ⟨fun c' hc' hhit => ?_, hnode.trans ?_⟩
    · rcases List.mem_cons.1 hc' with rfl | hc'
      · obtain rfl := hc.eq_of_id hmem hu (hfirsthit.1 hhit).1
        exact ⟨p, hp⟩
      · exact habouts c' hc' ((hnext c' hc').2 _ _ ▸ hhit)
    · by_cases hhit : t.id = u.id ∧ id = k
      · obtain ⟨htu, rfl⟩ := hhit
        obtain rfl := hc.eq_of_id hmem hu htu
        rw [if_pos ⟨rfl, rfl⟩, hn, List.filter_cons_of_pos (hfirsthit.2 ⟨rfl, rfl⟩)]
        rfl
      · rw [if_neg fun h => hhit ⟨h.1.symm, h.2.symm⟩, List.filter_cons_of_neg fun h => hhit (hfirsthit.1 h)]

end Session

end Write

end NodeStore
