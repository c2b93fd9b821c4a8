import Mathlib.Logic.Basic
import NodeStore.Proofs.Engine.Entry

/-!
# Both sides of every link

In a schema whose references are reciprocal, a link on one side of a relation stands on the other side too, and both
store the same. Every operation on links keeps it so: what it changes on one side it changes on the other.

* `Opposite`, `Reciprocal`: the two properties of a relation.
* `End`, `Store.link?`, `Faces`: the two ends of a possible link, and what stands there.
* `Store.Sound`: all nodes fit, and facing ends hold the same.
* `connect_sound`, `disconnect_spec`, `deleteNode_sound`: one lemma for each operation.
-/

namespace NodeStore.Engine

/-! ## Relations -/

/-- Two references that name each other as their inverses. -/
structure Opposite (schema : SchemaLayout) (t : TypeLayout) (p : PropDef EdgeLayout) (u : TypeLayout)
    (q : PropDef EdgeLayout) : Prop where
  source : t ∈ schema.types
  prop : p ∈ t.props
  isReference : p.type.isReference = true
  inverse : inverseOf schema p = .ok (some (u.id, q))
  target : u ∈ schema.types
  back : q ∈ u.props
  backIsReference : q.type.isReference = true
  backInverse : inverseOf schema q = .ok (some (t.id, p))

/-- The inverse of every reference is a reference back, whose inverse is the first. -/
def Reciprocal (schema : SchemaLayout) : Prop :=
  ∀ t ∈ schema.types, ∀ p ∈ t.props, p.type.isReference = true → ∃ u q, Opposite schema t p u q

variable {schema : SchemaLayout} {t u : TypeLayout} {p q : PropDef EdgeLayout}

theorem Opposite.symm (h : Opposite schema t p u q) : Opposite schema u q t p :=
  ⟨h.target, h.back, h.backIsReference, h.backInverse, h.source, h.prop, h.isReference, h.inverse⟩

theorem Opposite.slot (h : Opposite schema t p u q) (hs : schema.Placed) : p.slot? = some (slotOf p) := by
  obtain ⟨slot, hslot⟩ := ((hs.types t h.source).measured p h.prop).slot_of_reference h.isReference
  rw [slotOf_eq hslot, hslot]

/-- The id of a type is its own. -/
theorem type_unique (hs : schema.Placed) (ht : t ∈ schema.types) (hu : u ∈ schema.types) (h : t.id = u.id) : t = u := by
  have h1 := hs.ids t ht
  rw [h, hs.ids u hu] at h1
  exact (Option.some.inj h1).symm

theorem inverseOf_spec {type : TypeId} (h : inverseOf schema p = .ok (some (type, q))) :
    ∃ r u, p.target = some r ∧ r.id = type ∧ r.inverse = some q.name ∧ schema.typeById? type = some u ∧ q ∈ u.props := by
  unfold inverseOf at h
  split at h
  · rename_i name target id name' ht
    obtain ⟨u, hu, h⟩ := Except.bind_eq_ok.1 h
    split at h
    · rename_i q' hq
      cases h
      obtain ⟨hmem, hname⟩ := Layout.mem_of_prop? hq
      unfold layoutOf at hu
      split at hu
      · rename_i hid
        cases hu
        exact ⟨_, u, ht, rfl, by rw [hname], hid, hmem⟩
      · cases hu
    · cases h
  · cases h

/-- The order of the two ends does not matter for the key. -/
theorem orderedPair_comm (a b c d : String) :
    (if a < c ∨ (a = c ∧ b ≤ d) then ((a, b), (c, d)) else ((c, d), (a, b))) =
      if c < a ∨ (c = a ∧ d ≤ b) then ((c, d), (a, b)) else ((a, b), (c, d)) := by
  rcases Std.lt_trichotomy a c with h | h | h
  · rw [if_pos (.inl h), if_neg]
    rintro (h' | ⟨rfl, -⟩)
    · exact Std.lt_irrefl (Std.lt_trans h h')
    · exact Std.lt_irrefl h
  · subst h
    by_cases h1 : b ≤ d <;> by_cases h2 : d ≤ b
    · obtain rfl := Std.le_antisymm h1 h2
      rfl
    · simp [h1, h2]
    · simp [h1, h2]
    · exact absurd ((Std.le_total (a := b) (b := d)).resolve_left h1) h2
  · rw [if_neg, if_pos (.inl h)]
    rintro (h' | ⟨rfl, -⟩)
    · exact Std.lt_irrefl (Std.lt_trans h h')
    · exact Std.lt_irrefl h

/-- A reference leads to the type of its opposite, which is its inverse there. -/
theorem Opposite.leads (hs : schema.Placed) (h : Opposite schema t p u q) :
    ∃ r, p.target = some r ∧ r.type = u.name ∧ r.inverse = some q.name := by
  obtain ⟨r, v, hr, hid, hinv, hv, -⟩ := inverseOf_spec h.inverse
  obtain ⟨w, hw, hname⟩ := hs.targets t h.source p h.prop r hr
  rw [hid, hs.ids u h.target] at hw
  cases hw
  exact ⟨r, hr, hname.symm, hinv⟩

/-- Both ends of a relation have its key. -/
theorem Opposite.relationKey (hs : schema.Placed) (h : Opposite schema t p u q) :
    Schema.relationKey t.name p.name p.target = Schema.relationKey u.name q.name q.target := by
  obtain ⟨r, hr, htype, hinv⟩ := h.leads hs
  obtain ⟨r', hr', htype', hinv'⟩ := h.symm.leads hs
  rw [hr, hr', Schema.relationKey, Schema.relationKey]
  dsimp only
  rw [htype, htype', hinv, hinv', Option.getD_some, Option.getD_some]
  exact orderedPair_comm ..

/-- A reference has one opposite. -/
theorem Opposite.unique {u' : TypeLayout} {q' : PropDef EdgeLayout} (hs : schema.Placed)
    (h : Opposite schema t p u q) (h' : Opposite schema t p u' q') : u = u' ∧ q = q' := by
  have := h.inverse
  rw [h'.inverse] at this
  simp only [Except.ok.injEq, Option.some.injEq, Prod.mk.injEq] at this
  exact ⟨type_unique hs h.target h'.target this.1.symm, this.2.symm⟩

/-! ## Ends -/

/-- One end of a possible link: a field of a node, and the node that it may lead to. -/
structure End where
  type : TypeId
  slot : UInt8
  id : NodeId
  target : NodeId
  deriving DecidableEq

/-- The end of the link to `target` in the field of a property. -/
def endOf (t : TypeLayout) (p : PropDef EdgeLayout) (id target : NodeId) : End := ⟨t.id, slotOf p, id, target⟩

/-- What the link at an end stores, if there is one. -/
def Store.link? (s : Store) (x : End) : Option (Option EdgeNode) :=
  (s.node? x.type x.id).bind fun n => n.link? x.slot x.target

/-- The two ends of one possible link. -/
inductive Faces (schema : SchemaLayout) : End → End → Prop where
  | mk {t : TypeLayout} {p : PropDef EdgeLayout} {u : TypeLayout} {q : PropDef EdgeLayout}
    (h : Opposite schema t p u q) (id target : NodeId) : Faces schema (endOf t p id target) (endOf u q target id)

theorem Faces.symm {x y : End} (h : Faces schema x y) : Faces schema y x := by
  obtain ⟨h, id, target⟩ := h
  exact .mk h.symm target id

theorem Faces.unique {x y z : End} (hs : schema.Placed) (h : Faces schema x y) (h' : Faces schema x z) : y = z := by
  obtain ⟨h, id, target⟩ := h
  generalize hx : endOf _ _ id target = x at h'
  obtain ⟨h', id', target'⟩ := h'
  simp only [endOf, End.mk.injEq] at hx
  obtain ⟨htype, hslot, rfl, rfl⟩ := hx
  obtain rfl := type_unique hs h.source h'.source htype
  obtain rfl := (hs.types _ h.source).slot_unique h.prop h'.prop (h.slot hs) (by rw [h'.slot hs, hslot])
  obtain ⟨rfl, rfl⟩ := h.unique hs h'
  rfl

theorem Faces.eq_iff {x y c d : End} (hs : schema.Placed) (h : Faces schema x y) (hc : Faces schema c d) :
    x = c ↔ y = d := by
  constructor
  · rintro rfl
    exact h.unique hs hc
  · rintro rfl
    exact h.symm.unique hs hc.symm

/-- What stands at every end. -/
abbrev View := End → Option (Option EdgeNode)

/-- Facing ends hold the same. -/
def Mirrored (schema : SchemaLayout) (v : View) : Prop := ∀ x y, Faces schema x y → v x = v y

namespace Mirrored

variable {v v' : View}

theorem congr (h : Mirrored schema v) (hv : ∀ x y, Faces schema x y → v' x = v x) : Mirrored schema v' := by
  intro x y hxy
  rw [hv x y hxy, hv y x hxy.symm, h x y hxy]

/-- Two facing ends may be changed together. -/
theorem update (hs : schema.Placed) (h : Mirrored schema v) {c d : End} (hc : Faces schema c d)
    (w : Option (Option EdgeNode)) (hv : ∀ x, v' x = if x = c ∨ x = d then w else v x) : Mirrored schema v' := by
  intro x y hxy
  have h1 := hxy.eq_iff hs hc
  have h2 := hxy.eq_iff hs hc.symm
  rw [hv x, hv y]
  exact if_congr (by rw [h1, h2, or_comm]) rfl (h x y hxy)

/-- A link may be put at one end and then at the other, while anything else that is changed stays mirrored. What the link
stored before counts on both sides alike. -/
theorem putBoth (hs : schema.Placed) (h : Mirrored schema v) {x y : End} (hxy : Faces schema x y)
    {e : Option EdgeNode} {v₁ v₂ v₃ w : View} (h₁ : ∀ z, v₁ z = if z = x then some (e <|> (v z).join) else v z)
    (hx : v₂ x = v₁ x) (hy : v₂ y = v₁ y) (hw : Mirrored schema w) (hrest : ∀ z, z ≠ x → z ≠ y → v₂ z = w z)
    (h₃ : ∀ z, v₃ z = if z = y then some (e <|> (v₂ z).join) else v₂ z) : Mirrored schema v₃ := by
  refine hw.update hs hxy (some (e <|> (v x).join)) fun z => ?_
  rw [h₃]
  by_cases hzy : z = y
  · subst hzy
    rw [if_pos rfl, if_pos (.inr rfl), hy, h₁]
    by_cases hzx : z = x
    · subst hzx
      rw [if_pos rfl]
      cases e <;> rfl
    · rw [if_neg hzx, h x z hxy]
  · rw [if_neg hzy]
    by_cases hzx : z = x
    · subst hzx
      rw [if_pos (.inl rfl), hx, h₁, if_pos rfl]
    · rw [if_neg (by simp [hzx, hzy]), hrest z hzx hzy]

end Mirrored

/-! ## Stores -/

/-- All nodes fit the layouts of their types; their ids have been given out. -/
structure Store.Fits (schema : SchemaLayout) (s : Store) : Prop where
  sorted : ∀ type, Assoc.Sorted (s.table type).nodes
  bounded : ∀ type id n, s.node? type id = some n → id ≤ (s.table type).lastId
  nodes : ∀ type id n, s.node? type id = some n → ∃ t, schema.typeById? type = some t ∧ n.Fits EdgeFits t

/-- All nodes fit, and facing ends hold the same. -/
structure Store.Sound (schema : SchemaLayout) (s : Store) : Prop where
  fits : s.Fits schema
  mirrored : Mirrored schema s.link?

namespace Store

variable {s : Store}

theorem table_setTable (s : Store) (type : TypeId) (t : Table) (j : TypeId) :
    (s.setTable type t).table j = if j = type then t else s.table j := by
  rw [table, setTable, Assoc.find?_insert]
  split
  · rfl
  · rfl

theorem node?_setNode (s : Store) (type : TypeId) (id : NodeId) (n : StoredNode) (j : TypeId) (k : NodeId) :
    (s.setNode type id n).node? j k = if j = type ∧ k = id then some n else s.node? j k := by
  rw [node?, setNode, table_setTable]
  by_cases hj : j = type
  · subst hj
    rw [if_pos rfl, Assoc.find?_insert, node?]
    simp
  · rw [if_neg hj, if_neg (by simp [hj]), node?]

theorem lastId_setNode (s : Store) (type : TypeId) (id : NodeId) (n : StoredNode) (j : TypeId) :
    ((s.setNode type id n).table j).lastId = (s.table j).lastId := by
  rw [setNode, table_setTable]
  split
  · rename_i h
    rw [h]
  · rfl

theorem node?_remove (hs : s.Fits schema) (type : TypeId) (id : NodeId) (j : TypeId) (k : NodeId) :
    (s.remove type id).node? j k = if j = type ∧ k = id then none else s.node? j k := by
  rw [node?, remove, table_setTable]
  by_cases hj : j = type
  · subst hj
    rw [if_pos rfl, Assoc.find?_erase (hs.sorted j), node?]
    simp
  · rw [if_neg hj, if_neg (by simp [hj]), node?]

theorem node?_create (s : Store) (t : TypeLayout) (j : TypeId) (k : NodeId) :
    (s.create t).2.node? j k = if j = t.id ∧ k = (s.create t).1 then some (.fresh t) else s.node? j k := by
  rw [node?, create, table_setTable]
  by_cases hj : j = t.id
  · subst hj
    rw [if_pos rfl, Assoc.find?_insert, node?]
    simp
  · rw [if_neg hj, if_neg (by simp [hj]), node?]

theorem node_eq_ok {type : TypeId} {id : NodeId} {n : StoredNode} : s.node type id = .ok n ↔ s.node? type id = some n := by
  unfold node
  split <;> simp_all

theorem modifyNode_eq_ok {type : TypeId} {id : NodeId} {f : StoredNode → StoredNode} {s' : Store} :
    s.modifyNode type id f = .ok s' ↔ ∃ n, s.node? type id = some n ∧ s' = s.setNode type id (f n) := by
  unfold modifyNode
  rw [Except.bind_eq_ok]
  constructor
  · rintro ⟨n, hn, h⟩
    exact ⟨n, node_eq_ok.1 hn, (Except.ok.inj h).symm⟩
  · rintro ⟨n, hn, rfl⟩
    exact ⟨n, node_eq_ok.2 hn, rfl⟩

theorem link?_setNode (s : Store) (type : TypeId) (id : NodeId) (n : StoredNode) (x : End) :
    (s.setNode type id n).link? x = if x.type = type ∧ x.id = id then n.link? x.slot x.target else s.link? x := by
  rw [link?, node?_setNode]
  split <;> rfl

/-- The node at an existing place fits the layout of its type. -/
theorem Fits.node (hs : s.Fits schema) (hp : schema.Placed) (ht : t ∈ schema.types) {id : NodeId} {n : StoredNode}
    (hn : s.node? t.id id = some n) : n.Fits EdgeFits t := by
  obtain ⟨t', ht', hfits⟩ := hs.nodes _ _ _ hn
  rw [hp.ids t ht] at ht'
  cases ht'
  exact hfits

theorem Fits.setNode (hs : s.Fits schema) (hp : schema.Placed) (ht : t ∈ schema.types) {id : NodeId}
    {n m : StoredNode} (hn : s.node? t.id id = some n) (hm : m.Fits EdgeFits t) : (s.setNode t.id id m).Fits schema where
  sorted j := by
    rw [Store.setNode, table_setTable]
    split
    · exact (hs.sorted t.id).insert ..
    · exact hs.sorted j
  bounded j k n' h := by
    rw [lastId_setNode]
    rw [node?_setNode] at h
    split at h
    · rename_i hj
      rw [hj.1, hj.2]
      exact hs.bounded _ _ _ hn
    · exact hs.bounded _ _ _ h
  nodes j k n' h := by
    rw [node?_setNode] at h
    split at h
    · rename_i hj
      cases h
      exact ⟨t, by rw [hj.1]; exact hp.ids t ht, hm⟩
    · exact hs.nodes _ _ _ h

theorem Fits.empty : Store.empty.Fits schema where
  sorted _ := List.Pairwise.nil
  bounded _ _ _ h := by cases h
  nodes _ _ _ h := by cases h

theorem Sound.empty : Store.empty.Sound schema := ⟨.empty, fun _ _ _ => rfl⟩

end Store

/-! ## One side -/

section

variable {s s' : Store}

/-- The ends in the field of a reference are told apart by their nodes. -/
theorem endOf_eq_iff {x : End} {id target : NodeId} :
    x = endOf t p id target ↔ (x.type = t.id ∧ x.id = id) ∧ x.slot = slotOf p ∧ x.target = target := by
  cases x
  simp [endOf]
  grind

theorem unlink_spec (hp : schema.Placed) (hs : s.Fits schema) (h : Opposite schema t p u q) {id : NodeId}
    {n : StoredNode} (hn : s.node? t.id id = some n) (target : NodeId) :
    (s.setNode t.id id (n.removeLink (slotOf p) target)).Fits schema ∧
      ∀ x, (s.setNode t.id id (n.removeLink (slotOf p) target)).link? x =
        if x = endOf t p id target then none else s.link? x := by
  have hfits := hs.node hp h.source hn
  refine ⟨hs.setNode hp h.source hn (hfits.removeLink _ _), fun x => ?_⟩
  rw [Store.link?_setNode, Node.link?_removeLink hfits.sorted]
  by_cases hx : x.type = t.id ∧ x.id = id
  · have hlink : s.link? x = n.link? x.slot x.target := by
      rw [Store.link?, hx.1, hx.2, hn]
      rfl
    rw [if_pos hx, hlink]
    exact if_congr (by rw [endOf_eq_iff, and_iff_right hx]) rfl rfl
  · rw [if_neg hx, if_neg fun h => hx (endOf_eq_iff.1 h).1]

theorem link_spec (hp : schema.Placed) (hs : s.Fits schema) (h : Opposite schema t p u q) {id : NodeId}
    {n : StoredNode} (hn : s.node? t.id id = some n) {l : Link EdgeNode} (hl : l.Fits EdgeFits p)
    (hroom : p.type = .reference → ∀ j, (s.link? (endOf t p id j)).isSome = true → j = l.id) :
    (s.setNode t.id id (n.putLink p (slotOf p) l)).Fits schema ∧
      ∀ x, (s.setNode t.id id (n.putLink p (slotOf p) l)).link? x =
        if x = endOf t p id l.id then some (l.edges <|> (s.link? x).join) else s.link? x := by
  have hfits := hs.node hp h.source hn
  have hplaced := hp.types t h.source
  have hslot := h.slot hp
  have hlink : ∀ x : End, x.type = t.id ∧ x.id = id → s.link? x = n.link? x.slot x.target := fun x hx => by
    rw [Store.link?, hx.1, hx.2, hn]
    rfl
  have hroom' : n.Room p (slotOf p) l.id := fun hty j hj =>
    hroom hty j (by rwa [hlink (endOf t p id j) ⟨rfl, rfl⟩])
  refine ⟨hs.setNode hp h.source hn (hfits.putLink hplaced h.prop hslot h.isReference hl), fun x => ?_⟩
  rw [Store.link?_setNode, Node.link?_putLink hfits hplaced h.prop hslot h.isReference hroom']
  by_cases hx : x.type = t.id ∧ x.id = id
  · rw [if_pos hx, hlink x hx]
    exact if_congr (by rw [endOf_eq_iff, and_iff_right hx]) rfl rfl
  · rw [if_neg hx, if_neg fun h => hx (endOf_eq_iff.1 h).1]

/-! ## Both sides -/

/-- Taking a link away takes it away on both sides, and nothing else. -/
theorem disconnect_spec (hp : schema.Placed) (hs : s.Fits schema) (h : Opposite schema t p u q) {id target : NodeId}
    (hd : disconnect schema t.id id p target s = .ok s') :
    s'.Fits schema ∧
      ∀ x, s'.link? x = if x = endOf t p id target ∨ x = endOf u q target id then none else s.link? x := by
  unfold disconnect at hd
  obtain ⟨s₁, h₁, hd⟩ := Except.bind_eq_ok.1 hd
  obtain ⟨n, hn, rfl⟩ := Store.modifyNode_eq_ok.1 h₁
  obtain ⟨hfits, hlinks⟩ := unlink_spec hp hs h hn target
  obtain ⟨r, hr, hd⟩ := Except.bind_eq_ok.1 hd
  rw [h.inverse] at hr
  cases hr
  dsimp only at hd
  split at hd
  · rename_i hnone
    cases hd
    refine ⟨hfits, fun x => ?_⟩
    by_cases hx : x = endOf u q target id
    · subst hx
      rw [if_pos (.inr rfl)]
      exact Option.bind_eq_none_iff.2 fun n hn => absurd (hnone.symm.trans hn) nofun
    · rw [hlinks]
      exact if_congr (by simp [hx]) rfl rfl
  · rename_i m hm
    cases hd
    obtain ⟨hfits', hlinks'⟩ := unlink_spec hp hfits h.symm hm id
    refine ⟨hfits', fun x => ?_⟩
    rw [hlinks', hlinks]
    by_cases h1 : x = endOf t p id target <;> by_cases h2 : x = endOf u q target id <;> simp [h1, h2]

/-- What a step on links does to what stands at the ends: nothing new. -/
def Shrinks (v v' : View) : Prop := ∀ x, v' x = none ∨ v' x = v x

theorem Shrinks.refl (v : View) : Shrinks v v := fun _ => .inr rfl

theorem Shrinks.trans {v v' v'' : View} (h : Shrinks v v') (h' : Shrinks v' v'') : Shrinks v v'' := by
  intro x
  rcases h' x with h1 | h1
  · exact .inl h1
  · rw [h1]
    exact h x

theorem Shrinks.none {v v' : View} (h : Shrinks v v') {x : End} (hx : v x = none) : v' x = none := by
  rcases h x with h | h
  · exact h
  · rw [h, hx]

theorem disconnect_sound (hp : schema.Placed) (hs : s.Sound schema) (h : Opposite schema t p u q) {id target : NodeId}
    (hd : disconnect schema t.id id p target s = .ok s') :
    s'.Sound schema ∧ Shrinks s.link? s'.link? ∧ s'.link? (endOf t p id target) = none := by
  obtain ⟨hfits, hlinks⟩ := disconnect_spec hp hs.fits h hd
  refine ⟨⟨hfits, hs.mirrored.update hp (.mk h id target) none hlinks⟩, fun x => ?_, by rw [hlinks]; simp⟩
  rw [hlinks]
  split
  · exact .inl rfl
  · exact .inr rfl

theorem disconnectAll_sound (hp : schema.Placed) (hs : s.Sound schema) (h : Opposite schema t p u q) {id : NodeId}
    {targets : List NodeId} (hd : disconnectAll schema t.id id p targets s = .ok s') :
    s'.Sound schema ∧ Shrinks s.link? s'.link? ∧ ∀ j ∈ targets, s'.link? (endOf t p id j) = none := by
  unfold disconnectAll at hd
  induction targets generalizing s with
  | nil =>
    cases hd
    exact ⟨hs, .refl _, nofun⟩
  | cons j targets ih =>
    rw [List.foldlM_cons] at hd
    obtain ⟨s₁, h₁, hd⟩ := Except.bind_eq_ok.1 hd
    obtain ⟨hs₁, hshrinks₁, hgone⟩ := disconnect_sound hp hs h h₁
    obtain ⟨hs', hshrinks, hall⟩ := ih hs₁ hd
    refine ⟨hs', hshrinks₁.trans hshrinks, fun k hk => ?_⟩
    rcases List.mem_cons.1 hk with rfl | hk
    · exact hshrinks.none hgone
    · exact hall k hk

theorem linkedIds_eq_ok {type : TypeId} {id : NodeId} {slot : UInt8} {ids : List NodeId} :
    linkedIds s type id slot = .ok ids ↔ ∃ n, s.node? type id = some n ∧ ids = (n.links slot).map (·.id) := by
  unfold linkedIds
  rw [Except.bind_eq_ok]
  constructor
  · rintro ⟨n, hn, h⟩
    exact ⟨n, Store.node_eq_ok.1 hn, (Except.ok.inj h).symm⟩
  · rintro ⟨n, hn, rfl⟩
    exact ⟨n, Store.node_eq_ok.2 hn, rfl⟩

/-- A field links to the ids that are listed for it. -/
theorem link?_isSome_iff {id j : NodeId} {n : StoredNode} (hn : s.node? t.id id = some n) :
    (s.link? (endOf t p id j)).isSome = true ↔ j ∈ (n.links (slotOf p)).map (·.id) := by
  have : s.link? (endOf t p id j) = n.link? (slotOf p) j := by
    change (s.node? t.id id).bind _ = _
    rw [hn]
    rfl
  rw [this, Node.link?_isSome, List.mem_map]

theorem disconnectField_sound (hp : schema.Placed) (hs : s.Sound schema) (h : Opposite schema t p u q) {id : NodeId}
    (hd : disconnectField schema t.id id p s = .ok s') :
    s'.Sound schema ∧ Shrinks s.link? s'.link? ∧ ∀ j, s'.link? (endOf t p id j) = none := by
  unfold disconnectField at hd
  obtain ⟨ids, hids, hd⟩ := Except.bind_eq_ok.1 hd
  obtain ⟨n, hn, rfl⟩ := linkedIds_eq_ok.1 hids
  obtain ⟨hs', hshrinks, hall⟩ := disconnectAll_sound hp hs h hd
  refine ⟨hs', hshrinks, fun j => ?_⟩
  by_cases hj : j ∈ (n.links (slotOf p)).map (·.id)
  · exact hall j hj
  · refine hshrinks.none (Option.not_isSome_iff_eq_none.1 ?_)
    rwa [link?_isSome_iff hn]

/-! ## Connecting -/

/-- Making room takes away at most one other link, on both sides. -/
theorem release_spec (hp : schema.Placed) (hs : s.Fits schema) (h : Opposite schema t p u q) {id target : NodeId}
    (hr : release schema t.id id p target s = .ok s') :
    s'.Fits schema ∧ (p.type = .reference → ∀ j, (s'.link? (endOf t p id j)).isSome = true → j = target) ∧
      (s' = s ∨ ∃ old, old ≠ target ∧
        ∀ x, s'.link? x = if x = endOf t p id old ∨ x = endOf u q old id then none else s.link? x) := by
  unfold release at hr
  split at hr
  · rename_i hty
    obtain ⟨ids, hids, hr⟩ := Except.bind_eq_ok.1 hr
    obtain ⟨n, hn, rfl⟩ := linkedIds_eq_ok.1 hids
    have hfits := hs.node hp h.source hn
    have hlinks : n.links (slotOf p) = [] ∨ ∃ l, n.links (slotOf p) = [l] := by
      rw [Node.links_eq]
      split
      · exact .inr ⟨_, rfl⟩
      · rename_i ls hf
        have := (hfits.content (hp.types t h.source) h.prop (h.slot hp) hf).1
        rw [hty] at this
        cases this
      · exact .inl rfl
    rcases hlinks with hl | ⟨l, hl⟩
    · rw [hl] at hr
      cases hr
      refine ⟨hs, fun _ j hj => ?_, .inl rfl⟩
      rw [link?_isSome_iff hn, hl] at hj
      cases hj
    · rw [hl] at hr
      simp only [List.map_cons, List.map_nil, List.head?_cons] at hr
      split at hr
      · rename_i hid
        cases hr
        refine ⟨hs, fun _ j hj => ?_, .inl rfl⟩
        rw [link?_isSome_iff hn, hl] at hj
        rw [← hid]
        simpa using hj
      · rename_i hid
        obtain ⟨hs', hlinks'⟩ := disconnect_spec hp hs h hr
        refine ⟨hs', fun _ j hj => ?_, .inr ⟨l.id, hid, hlinks'⟩⟩
        rw [hlinks'] at hj
        split at hj
        · cases hj
        · rename_i hne
          rw [link?_isSome_iff hn, hl] at hj
          exact absurd (.inl (by simp_all)) hne
  · rename_i hty
    cases hr
    exact ⟨hs, fun h => absurd h hty, .inl rfl⟩

/-- Making room keeps facing ends alike. -/
theorem release_mirrored (hp : schema.Placed) (h : Opposite schema t p u q) {id : NodeId} {v v' : View}
    (hm : Mirrored schema v) {target : NodeId} (hv : v' = v ∨ ∃ old, old ≠ target ∧
      ∀ x, v' x = if x = endOf t p id old ∨ x = endOf u q old id then none else v x) : Mirrored schema v' := by
  rcases hv with rfl | ⟨old, -, hv⟩
  · exact hm
  · exact hm.update hp (.mk h id old) none hv

/-- A link fits on both sides of a relation, since they share one layout. -/
theorem Opposite.fits_back (hp : schema.Placed) (h : Opposite schema t p u q) {l : Link EdgeNode}
    (hl : l.Fits EdgeFits p) (hedges : l.edges.isSome = true → p.edges.isSome = true) (id : NodeId) :
    Link.Fits EdgeFits q ⟨id, l.edges⟩ := by
  intro e he f hf
  obtain ⟨g, hg⟩ := Option.isSome_iff_exists.1 (hedges (by rw [show l.edges = some e from he]; rfl))
  have hkey := h.relationKey hp
  rw [← hp.shared t h.source p h.prop u h.target q h.back g f hg hf hkey]
  exact hl e he g hg

/-- Connecting keeps both sides alike: each of the two puts may first take away another link, which is not the new one. -/
theorem connect_sound (hp : schema.Placed) (hs : s.Sound schema) (h : Opposite schema t p u q) {id : NodeId}
    {l : Link EdgeNode} (hl : l.Fits EdgeFits p) (hedges : l.edges.isSome = true → p.edges.isSome = true)
    (hc : connect schema t.id id p l s = .ok s') : s'.Sound schema := by
  unfold connect at hc
  obtain ⟨s₁, h₁, hc⟩ := Except.bind_eq_ok.1 hc
  obtain ⟨s₂, h₂, hc⟩ := Except.bind_eq_ok.1 hc
  obtain ⟨n, hn, hs₂⟩ := Store.modifyNode_eq_ok.1 h₂
  obtain ⟨r, hr, hc⟩ := Except.bind_eq_ok.1 hc
  rw [h.inverse] at hr
  cases hr
  dsimp only at hc
  obtain ⟨s₃, h₃, hc⟩ := Except.bind_eq_ok.1 hc
  obtain ⟨m, hm, rfl⟩ := Store.modifyNode_eq_ok.1 hc
  subst hs₂
  obtain ⟨hs₁, hroom₁, hv₁⟩ := release_spec hp hs.fits h h₁
  have hm₁ : Mirrored schema s₁.link? := release_mirrored hp h hs.mirrored (hv₁.imp_left fun h => by rw [h])
  obtain ⟨hs₂, hv₂⟩ := link_spec hp hs₁ h hn hl hroom₁
  obtain ⟨hs₃, hroom₃, hv₃⟩ := release_spec hp hs₂ h.symm h₃
  obtain ⟨hs₄, hv₄⟩ := link_spec hp hs₃ h.symm hm (h.fits_back hp hl hedges id) hroom₃
  refine ⟨hs₄, ?_⟩
  have hfaces : Faces schema (endOf t p id l.id) (endOf u q l.id id) := .mk h id l.id
  rcases hv₃ with rfl | ⟨old, hold, hv₃⟩
  · exact hm₁.putBoth hp hfaces hv₂ rfl rfl hm₁ (fun z hx _ => by rw [hv₂, if_neg hx]) hv₄
  · -- what is taken away between the two puts is neither end of the new link
    have hx : ∀ z, z = endOf t p id l.id ∨ z = endOf u q l.id id →
        ¬(z = endOf u q l.id old ∨ z = endOf t p old l.id) := by
      simp only [endOf]
      rintro z (rfl | rfl) <;> simp only [End.mk.injEq] <;> grind
    refine hm₁.putBoth hp hfaces hv₂ (by rw [hv₃, if_neg (hx _ (.inl rfl))]) (by rw [hv₃, if_neg (hx _ (.inr rfl))])
      (hm₁.update hp (.mk h.symm l.id old) none fun _ => rfl) (fun z hz _ => ?_) hv₄
    rw [hv₃, hv₂, if_neg hz]

theorem connectAll_sound (hp : schema.Placed) (hs : s.Sound schema) (h : Opposite schema t p u q) {id : NodeId}
    {ls : List (Link EdgeNode)} (hl : ∀ l ∈ ls, l.Fits EdgeFits p ∧ (l.edges.isSome = true → p.edges.isSome = true))
    (hc : connectAll schema t.id id p ls s = .ok s') : s'.Sound schema :=
  foldlM_invariant hc hs fun l hmem _ _ hs hc => connect_sound hp hs h (hl l hmem).1 (hl l hmem).2 hc

/-! ## Nodes -/

/-- A node may change in everything but its references. -/
theorem setNode_sound (hp : schema.Placed) (hs : s.Sound schema) (ht : t ∈ schema.types) {id : NodeId}
    {n m : StoredNode} (hn : s.node? t.id id = some n) (hm : m.Fits EdgeFits t)
    (hlinks : ∀ p ∈ t.props, p.type.isReference = true → m.field? (slotOf p) = n.field? (slotOf p)) :
    (s.setNode t.id id m).Sound schema := by
  refine ⟨hs.fits.setNode hp ht hn hm, hs.mirrored.congr ?_⟩
  rintro _ _ ⟨h, j, k⟩
  rename_i t' p u q
  rw [Store.link?_setNode]
  split
  · rename_i hj
    obtain rfl := type_unique hp h.source ht hj.1
    obtain rfl : j = id := hj.2
    have hlink : s.link? (endOf t' p j k) = n.link? (slotOf p) k := by
      change (s.node? t'.id j).bind _ = _
      rw [hn]
      rfl
    rw [hlink]
    exact Node.link?_congr (hlinks p h.prop h.isReference) k
  · rfl

/-- A node without links may be removed. -/
theorem remove_sound (hp : schema.Placed) (hs : s.Sound schema) (ht : t ∈ schema.types) {id : NodeId}
    (hnone : ∀ p ∈ t.props, p.type.isReference = true → ∀ j, s.link? (endOf t p id j) = none) :
    (s.remove t.id id).Sound schema := by
  have hnode := fun j k => Store.node?_remove hs.fits t.id id j k
  refine ⟨⟨fun j => ?_, fun j k n hn => ?_, fun j k n hn => ?_⟩, hs.mirrored.congr ?_⟩
  · rw [Store.remove, Store.table_setTable]
    split
    · exact (hs.fits.sorted t.id).erase _
    · exact hs.fits.sorted j
  · rw [hnode] at hn
    split at hn
    · cases hn
    · rw [Store.remove, Store.table_setTable]
      split
      · rename_i hj
        subst hj
        exact hs.fits.bounded _ _ _ hn
      · exact hs.fits.bounded _ _ _ hn
  · rw [hnode] at hn
    split at hn
    · cases hn
    · exact hs.fits.nodes _ _ _ hn
  · rintro _ _ ⟨h, j, k⟩
    rename_i t' p u q
    have hlink : (s.remove t.id id).link? (endOf t' p j k) =
        if t'.id = t.id ∧ j = id then none else s.link? (endOf t' p j k) := by
      change ((s.remove t.id id).node? t'.id j).bind _ = _
      rw [hnode]
      split <;> rfl
    rw [hlink]
    split
    · rename_i hj
      obtain rfl := type_unique hp h.source ht hj.1
      obtain rfl := hj.2
      exact (hnone p h.prop h.isReference k).symm
    · rfl

/-- Deleting a node takes away all its links on both sides. -/
theorem deleteNode_sound (hp : schema.Placed) (hrec : Reciprocal schema) (hs : s.Sound schema)
    (ht : t ∈ schema.types) {id : NodeId} (hd : deleteNode schema t id s = .ok s') : s'.Sound schema := by
  unfold deleteNode at hd
  obtain ⟨s₁, h₁, hd⟩ := Except.bind_eq_ok.1 hd
  cases hd
  have hall : ∀ (ps : List (PropDef EdgeLayout)) (s s₁ : Store), (∀ p ∈ ps, p ∈ t.props ∧ p.type.isReference = true) →
      s.Sound schema → ps.foldlM (fun s p => disconnectField schema t.id id p s) s = .ok s₁ →
      s₁.Sound schema ∧ Shrinks s.link? s₁.link? ∧ ∀ p ∈ ps, ∀ j, s₁.link? (endOf t p id j) = none := by
    intro ps
    induction ps with
    | nil =>
      intro s s₁ _ hs h
      rw [List.foldlM_nil] at h
      cases h
      exact ⟨hs, .refl _, fun p hp => absurd hp List.not_mem_nil⟩
    | cons p ps ih =>
      intro s s₁ hps hs h
      rw [List.foldlM_cons] at h
      obtain ⟨s₂, h₂, h⟩ := Except.bind_eq_ok.1 h
      obtain ⟨hmem, href⟩ := hps p List.mem_cons_self
      obtain ⟨u, q, hopp⟩ := hrec t ht p hmem href
      obtain ⟨hs₂, hshrinks₂, hgone⟩ := disconnectField_sound hp hs hopp h₂
      obtain ⟨hs₁, hshrinks, hnone⟩ := ih s₂ s₁ (fun x hx => hps x (List.mem_cons_of_mem _ hx)) hs₂ h
      refine ⟨hs₁, hshrinks₂.trans hshrinks, fun x hx j => ?_⟩
      rcases List.mem_cons.1 hx with rfl | hx
      · exact hshrinks.none (hgone j)
      · exact hnone x hx j
  obtain ⟨hs₁, -, hnone⟩ := hall _ s s₁ (fun p hp => by simpa using hp) hs h₁
  exact remove_sound hp hs₁ ht fun p hmem href => hnone p (by simp [hmem, href])

/-- A new node has a new id and no links. -/
theorem create_sound (hp : schema.Placed) (hs : s.Sound schema) (ht : t ∈ schema.types)
    (hroom : s.exhausted t.id = false) : (s.create t).2.Sound schema := by
  have hlast : (s.table t.id).lastId.toNat < (s.create t).1.toNat ∧ (s.create t).1 = (s.table t.id).lastId + 1 := by
    refine ⟨?_, rfl⟩
    have hne : (s.table t.id).lastId + 1 ≠ 0 := by simpa [Store.exhausted] using hroom
    have h1 : ((s.table t.id).lastId + 1).toNat ≠ 0 := fun h => hne (UInt32.toNat.inj h)
    change _ < ((s.table t.id).lastId + 1).toNat
    rw [UInt32.toNat_add] at h1 ⊢
    have h2 := (s.table t.id).lastId.toNat_lt
    have h3 : (1 : UInt32).toNat = 1 := rfl
    rw [h3] at h1 ⊢
    omega
  have hfresh : s.node? t.id (s.create t).1 = none := by
    cases hn : s.node? t.id (s.create t).1 with
    | none => rfl
    | some n =>
      have := UInt32.le_iff_toNat_le.1 (hs.fits.bounded _ _ _ hn)
      omega
  have hnode := Store.node?_create s t
  have htable : ∀ j, ((s.create t).2.table j).lastId = if j = t.id then (s.create t).1 else (s.table j).lastId := by
    intro j
    rw [Store.create, Store.table_setTable]
    split <;> rfl
  refine ⟨⟨fun j => ?_, fun j k n hn => ?_, fun j k n hn => ?_⟩, hs.mirrored.congr ?_⟩
  · rw [Store.create, Store.table_setTable]
    split
    · exact (hs.fits.sorted t.id).insert ..
    · exact hs.fits.sorted j
  · rw [htable]
    rw [hnode] at hn
    split at hn
    · rename_i hj
      rw [if_pos hj.1, hj.2]
      exact Std.le_refl _
    · have := hs.fits.bounded _ _ _ hn
      split
      · rename_i hj
        subst hj
        rw [UInt32.le_iff_toNat_le] at this ⊢
        omega
      · exact this
  · rw [hnode] at hn
    split at hn
    · rename_i hj
      cases hn
      exact ⟨t, hj.1 ▸ hp.ids t ht, Node.Fits.fresh (hp.types t ht)⟩
    · exact hs.fits.nodes _ _ _ hn
  · rintro _ _ ⟨h, j, k⟩
    rename_i t' p u q
    change ((s.create t).2.node? t'.id j).bind _ = (s.node? t'.id j).bind _
    rw [hnode]
    split
    · rename_i hj
      rw [hj.1, hj.2, hfresh]
      rfl
    · rfl

end

end NodeStore.Engine
