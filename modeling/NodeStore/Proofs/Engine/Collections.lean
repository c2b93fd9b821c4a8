import NodeStore.Proofs.Engine.Relations

/-!
# Collections

What is done to the links of one collection of a node: links are joined to it in the order in which they are given, and
taken out of it. The other side of the relation follows, also where the node is linked to itself.

* `Node.joinAll`, `Node.ids_joinAll`, `Node.edges_joinAll`: the links after some were joined.
* `Node.updatedLinks`, `Node.ids_updatedLinks`, `Node.edges_updatedLinks`: the links after others replaced them, some were
  joined and some were taken out.
* `Store.linksOf`: the links of a field, in their order.
* `Collects`: what steps on a collection leave of the node; `Collects.trans` puts steps together,
  `Collects.others`: they leave the other nodes alone.
* `disconnect_collects`: one link is taken out. `connect_collects`: one link is joined, by the steps of `Joins`.
* `disconnectAll_collects`, `connectAll_collects`: many of them.
-/

namespace NodeStore.Engine

/-! ### Joined links -/

namespace Node

variable {E : Type}

/-- Links joined to others one after the other. -/
def joinAll (ls old : List (Link E)) : List (Link E) := ls.foldl (fun acc l => joinLinks l acc) old

/-- What a link to a node stores after some links were joined: the latest of what they store for that node, or what was
stored before. -/
def supplied (ls : List (Link E)) (id : NodeId) (before : Option E) : Option E :=
  (ls.filter (·.id = id)).foldl (fun e l => l.edges <|> e) before

/-- Joining the same link again changes nothing. -/
theorem joinLinks_joinLinks (l : Link E) (ls : List (Link E)) : joinLinks l (joinLinks l ls) = joinLinks l ls := by
  have hor : ∀ e e' : Option E, e.or (e.or e') = e.or e' := by
    intro e e'
    cases e <;> rfl
  induction ls with
  | nil =>
    obtain ⟨id, edges⟩ := l
    cases edges <;> simp [joinLinks]
  | cons l' ls ih =>
    by_cases h : l'.id = l.id
    · simp [joinLinks, h, hor]
    · simp only [joinLinks, if_neg h, ih]

/-- The ids of joined links: those of before, and behind them the new ones, each where it comes first. -/
theorem ids_joinAll (ls old : List (Link E)) : (joinAll ls old).map (·.id) =
    old.map (·.id) ++ ((ls.map (·.id)).filter fun id => id ∉ old.map (·.id)).eraseDups := by
  induction ls generalizing old with
  | nil => simp [joinAll]
  | cons l ls ih =>
    have hstep : (joinAll (l :: ls) old).map (·.id) = (joinAll ls (joinLinks l old)).map (·.id) := rfl
    rw [hstep, ih, ids_joinLinks, List.map_cons]
    by_cases hmem : l.id ∈ old.map (·.id)
    · rw [if_pos hmem, List.filter_cons_of_neg (by simpa using hmem)]
    · rw [if_neg hmem, List.filter_cons_of_pos (by simpa using hmem), List.eraseDups_cons, List.append_assoc,
        List.singleton_append, List.filter_filter]
      congr 4
      funext id
      simp only [List.mem_append, List.mem_singleton, not_or, Bool.decide_and, Bool.and_comm]
      congr 1
      by_cases hid : id = l.id <;> simp [hid]

/-- What the link to a node stores after some were joined. -/
theorem edges_joinAll (ls old : List (Link E)) (k : NodeId) : ((joinAll ls old).find? (·.id = k)).bind (·.edges) =
    supplied ls k ((old.find? (·.id = k)).bind (·.edges)) := by
  have hbind : ∀ x : Option (Link E), x.bind (·.edges) = (x.map (·.edges)).join := by
    intro x
    cases x <;> rfl
  induction ls generalizing old with
  | nil => rfl
  | cons l ls ih =>
    refine (ih (joinLinks l old)).trans ?_
    unfold supplied
    rw [hbind, find?_joinLinks, ← hbind]
    by_cases hk : k = l.id
    · rw [if_pos hk, List.filter_cons_of_pos (by simp [hk])]
      rfl
    · rw [if_neg hk, List.filter_cons_of_neg (by simpa using Ne.symm hk), hbind]

theorem nodup_joinAll {old : List (Link E)} (h : (old.map (·.id)).Nodup) (ls : List (Link E)) :
    ((joinAll ls old).map (·.id)).Nodup := by
  induction ls generalizing old with
  | nil => exact h
  | cons l ls ih =>
    have hjoined : ((joinLinks l old).map (·.id)).Nodup := by
      rw [ids_joinLinks]
      split
      · exact h
      · rename_i hnew
        exact List.nodup_append.2 ⟨h, List.nodup_singleton _, by simpa using hnew⟩
    exact ih hjoined

/-- The latest of two lists of links counts first. -/
theorem supplied_append (ls ls' : List (Link E)) (id : NodeId) (before : Option E) :
    supplied (ls ++ ls') id before = supplied ls' id (supplied ls id before) := by
  rw [supplied, List.filter_append, List.foldl_append]
  rfl

/-- Where the links store nothing for a node, what was stored before stays. -/
theorem supplied_of_none {ls : List (Link E)} {id : NodeId} (h : ∀ l ∈ ls, l.id = id → l.edges = none) (before : Option E) :
    supplied ls id before = before := by
  unfold supplied
  generalize hkept : ls.filter (·.id = id) = kept
  have hnone : ∀ l ∈ kept, l.edges = none := by
    rw [← hkept]
    intro l hl
    obtain ⟨hmem, hid⟩ := List.mem_filter.1 hl
    exact h l hmem (by simpa using hid)
  clear hkept
  induction kept with
  | nil => rfl
  | cons l kept ih =>
    rw [List.foldl_cons, hnone l List.mem_cons_self]
    exact ih fun l' hl' => hnone l' (List.mem_cons_of_mem _ hl')

/-! ### Updates -/

/-- The ids of a collection after others replaced it: those of before that stay, and behind them the new ones, each where
it comes first. -/
def replacedIds (replace : Option (List NodeId)) (old : List NodeId) : List NodeId :=
  match replace with
  | none => old
  | some ids => old.filter (· ∈ ids) ++ (ids.filter (· ∉ old)).eraseDups

/-- The ids of a collection after an update: what is added comes last, and what is removed goes. -/
def updatedIds (replace : Option (List NodeId)) (add remove old : List NodeId) : List NodeId :=
  (replacedIds replace old ++ (add.filter (· ∉ replacedIds replace old)).eraseDups).filter (· ∉ remove)

/-- The links of a collection that stay when others replace it. -/
def kept (replace : Option (List (Link E))) (old : List (Link E)) : List (Link E) :=
  match replace with
  | none => old
  | some ls => old.filter fun l => decide (l.id ∈ ls.map (·.id))

/-- The links of a collection after an update. -/
def updatedLinks (replace : Option (List (Link E))) (add : List (Link E)) (remove : List NodeId) (old : List (Link E)) :
    List (Link E) :=
  (joinAll add (joinAll (replace.getD []) (kept replace old))).filter fun l => decide (l.id ∉ remove)

theorem nodup_kept {old : List (Link E)} (h : (old.map (·.id)).Nodup) (replace : Option (List (Link E))) :
    ((kept replace old).map (·.id)).Nodup := by
  cases replace with
  | none => exact h
  | some ls => exact h.sublist (List.filter_sublist.map _)

theorem map_id_filter (P : NodeId → Bool) (ls : List (Link E)) :
    (ls.filter fun l => P l.id).map (·.id) = (ls.map (·.id)).filter P := by
  rw [List.filter_map]
  rfl

theorem ids_replaced (replace : Option (List (Link E))) (old : List (Link E)) :
    (joinAll (replace.getD []) (kept replace old)).map (·.id) =
      replacedIds (replace.map (·.map (·.id))) (old.map (·.id)) := by
  cases replace with
  | none => rfl
  | some ls =>
    rw [Option.getD_some, ids_joinAll, kept, map_id_filter (fun id => decide (id ∈ ls.map (·.id)))]
    congr 2
    refine List.filter_congr fun id hid => ?_
    rw [decide_eq_decide, not_iff_not, List.mem_filter]
    exact and_iff_left (decide_eq_true hid)

theorem ids_updatedLinks (replace : Option (List (Link E))) (add : List (Link E)) (remove : List NodeId) (old : List (Link E)) :
    (updatedLinks replace add remove old).map (·.id) =
      updatedIds (replace.map (·.map (·.id))) (add.map (·.id)) remove (old.map (·.id)) := by
  rw [updatedLinks, map_id_filter (fun id => decide (id ∉ remove)), ids_joinAll, ids_replaced]
  rfl

/-- What a link of a collection stores after an update. -/
theorem edges_updatedLinks {old : List (Link E)} (h : (old.map (·.id)).Nodup) {replace : Option (List (Link E))}
    {add : List (Link E)} {remove : List NodeId} {l : Link E} (hl : l ∈ updatedLinks replace add remove old) :
    l.edges = supplied (replace.getD [] ++ add) l.id (((kept replace old).find? (·.id = l.id)).bind (·.edges)) := by
  obtain ⟨hmem, -⟩ := List.mem_filter.1 hl
  have hfound := find?_id_of_mem (nodup_joinAll (nodup_joinAll (nodup_kept h replace) (replace.getD [])) add) hmem
  have hedges := edges_joinAll add (joinAll (replace.getD []) (kept replace old)) l.id
  rwa [hfound, edges_joinAll, ← supplied_append] at hedges

/-- A link that stays stores what it stored where nothing else is given for it. -/
theorem edges_updatedLinks_of_mem {old : List (Link E)} (h : (old.map (·.id)).Nodup) {replace : Option (List (Link E))}
    {add : List (Link E)} {remove : List NodeId} {l l₀ : Link E} (hl : l ∈ updatedLinks replace add remove old) (hl₀ : l₀ ∈ old)
    (hid : l₀.id = l.id) (hstays : ∀ ls, replace = some ls → l.id ∈ ls.map (·.id))
    (hnone : ∀ l' ∈ replace.getD [] ++ add, l'.id = l.id → l'.edges = none) : l.edges = l₀.edges := by
  have hkept : l₀ ∈ kept replace old := by
    cases replace with
    | none => exact hl₀
    | some ls => exact List.mem_filter.2 ⟨hl₀, decide_eq_true (hid ▸ hstays ls rfl)⟩
  rw [edges_updatedLinks h hl, supplied_of_none hnone, ← hid, find?_id_of_mem (nodup_kept h replace) hkept]
  rfl

/-! ### Links that are put in -/

section

variable {L : Type} {pay : L → E → Prop} {t : Layout L} {n : Node E} {p : PropDef L} {slot : UInt8}

/-- A link that is put into a field changes no other one. -/
theorem links_putLink_of_ne (n : Node E) (p : PropDef L) (l : Link E) {j : UInt8} (hj : j ≠ slot) :
    (n.putLink p slot l).links j = n.links j := by
  refine links_congr ?_
  unfold Node.putLink
  split
  · split <;> rw [field?_setField, if_neg hj]
  · split
    · rw [field?_setField, if_neg hj]
    · rw [field?_setField, if_neg hj]
    · rfl

/-- A link that is put into a collection joins the links there. -/
theorem links_putLink (h : n.Fits pay t) (ht : t.Placed) (hp : p ∈ t.props) (hs : p.slot? = some slot)
    (hmany : p.type = .references) (l : Link E) : (n.putLink p slot l).links slot = joinLinks l (n.links slot) := by
  have hset : ∀ ls, (n.setField slot (.refs ls)).links slot = ls := fun ls => by
    rw [links_eq, field?_setField, if_pos rfl]
  unfold Node.putLink
  rw [if_neg (by rw [hmany]; nofun)]
  cases hf : n.field? slot with
  | none =>
    rw [hset, links_eq, hf]
    rfl
  | some c =>
    have hc := h.content ht hp hs hf
    cases c with
    | refs ls => rw [hset, mem_links_refs hf]
    | ref l' => simp [Content.Fits, hmany] at hc
    | text entries => simp [Content.Fits, hmany] at hc
    | sketch hashes => simp [Content.Fits, hmany] at hc
    | bytes bs => simp [Content.Fits, hmany] at hc

/-- A reference leads to the node of the link that was put in, and to no other one. -/
theorem links_putLink_of_reference (n : Node E) (hone : p.type = .reference) (l : Link E) :
    ∃ edges, (n.putLink p slot l).links slot = [⟨l.id, edges⟩] := by
  unfold Node.putLink
  rw [if_pos hone]
  split
  · exact ⟨_, by rw [links_eq, field?_setField, if_pos rfl]⟩
  · exact ⟨l.edges, by rw [links_eq, field?_setField, if_pos rfl]⟩

end

end Node

/-! ### The links of a field -/

/-- The links of a field of a node, in their order. -/
def Store.linksOf (s : Store) (type : TypeId) (id : NodeId) (slot : UInt8) : List (Link EdgeNode) :=
  ((s.node? type id).map (·.links slot)).getD []

/-- The same nodes exist. -/
def SameNodes (s s' : Store) : Prop := ∀ type id, (s'.node? type id).isSome = (s.node? type id).isSome

variable {schema : SchemaLayout} {t u : TypeLayout} {p q : PropDef EdgeLayout} {s s' s'' : Store} {id target : NodeId}

theorem SameNodes.refl (s : Store) : SameNodes s s := fun _ _ => rfl

theorem SameNodes.trans (h : SameNodes s s') (h' : SameNodes s' s'') : SameNodes s s'' :=
  fun type id => (h' type id).trans (h type id)

theorem SameNodes.setNode {type : TypeId} (hn : (s.node? type id).isSome = true) (n : StoredNode) :
    SameNodes s (s.setNode type id n) := by
  intro j k
  rw [Store.node?_setNode]
  split
  · rename_i h
    rw [h.1, h.2, hn]
    rfl
  · rfl

namespace Store

theorem linksOf_of_node? {type : TypeId} {n : StoredNode} (hn : s.node? type id = some n) (slot : UInt8) :
    s.linksOf type id slot = n.links slot := by
  rw [linksOf, hn]
  rfl

theorem linksOf_setNode (s : Store) (type : TypeId) (id : NodeId) (n : StoredNode) (j : TypeId) (k : NodeId) (slot : UInt8) :
    (s.setNode type id n).linksOf j k slot = if j = type ∧ k = id then n.links slot else s.linksOf j k slot := by
  rw [linksOf, node?_setNode]
  split <;> rfl

theorem link?_eq (s : Store) (x : End) :
    s.link? x = ((s.linksOf x.type x.id x.slot).find? (·.id = x.target)).map (·.edges) := by
  rw [link?, linksOf]
  cases s.node? x.type x.id <;> rfl

theorem link?_isSome (s : Store) (x : End) :
    (s.link? x).isSome = true ↔ x.target ∈ (s.linksOf x.type x.id x.slot).map (·.id) := by
  rw [link?_eq, List.mem_map]
  simp

end Store

/-! ### Taking links away -/

/-- Taking away a link of a node that exists succeeds. -/
theorem disconnect_succeeds (h : Opposite schema t p u q) (hn : (s.node? t.id id).isSome = true) (target : NodeId) :
    ∃ s', disconnect schema t.id id p target s = .ok s' ∧ SameNodes s s' := by
  obtain ⟨n, hn'⟩ := Option.isSome_iff_exists.1 hn
  have hsame := SameNodes.setNode hn (n.removeLink (slotOf p) target)
  have hmodify : s.modifyNode t.id id (·.removeLink (slotOf p) target) = .ok (s.setNode t.id id _) :=
    Store.modifyNode_eq_ok.2 ⟨n, hn', rfl⟩
  unfold disconnect
  rw [hmodify, h.inverse]
  dsimp only [bind, Except.bind]
  split
  · exact ⟨_, rfl, hsame⟩
  · rename_i m hm
    exact ⟨_, rfl, hsame.trans (.setNode (by rw [hm]; rfl) _)⟩

/-- One side loses the link at an end; all others stay in their order. -/
theorem linksOf_unlink {n : StoredNode} (hsorted : Assoc.Sorted n.fields) (hn : s.node? t.id id = some n) (target : NodeId)
    (type : TypeId) (k : NodeId) (slot : UInt8) :
    (s.setNode t.id id (n.removeLink (slotOf p) target)).linksOf type k slot =
      (s.linksOf type k slot).filter fun l => decide (⟨type, slot, k, l.id⟩ ≠ endOf t p id target) := by
  rw [Store.linksOf_setNode]
  by_cases hnode : type = t.id ∧ k = id
  · obtain ⟨rfl, rfl⟩ := hnode
    rw [if_pos ⟨rfl, rfl⟩, Node.links_removeLink hsorted, Store.linksOf_of_node? hn]
    by_cases hslot : slot = slotOf p
    · rw [if_pos hslot, hslot]
      refine List.filter_congr fun l _ => ?_
      by_cases hl : l.id = target <;> simp [endOf, hl]
    · rw [if_neg hslot, List.filter_eq_self.2]
      simp [endOf, hslot]
  · rw [if_neg hnode, List.filter_eq_self.2]
    intro l _
    rw [decide_eq_true_iff]
    exact fun h => hnode (endOf_eq_iff.1 h).1

/-- The links that remain are those at neither of the two ends, in their order. -/
theorem linksOf_disconnect (hp : schema.Placed) (hs : s.Fits schema) (h : Opposite schema t p u q)
    (hd : disconnect schema t.id id p target s = .ok s') (type : TypeId) (k : NodeId) (slot : UInt8) :
    s'.linksOf type k slot = (s.linksOf type k slot).filter fun l =>
      decide (⟨type, slot, k, l.id⟩ ≠ endOf t p id target) && decide (⟨type, slot, k, l.id⟩ ≠ endOf u q target id) := by
  unfold disconnect at hd
  obtain ⟨s₁, h₁, hd⟩ := Except.bind_eq_ok.1 hd
  obtain ⟨n, hn, rfl⟩ := Store.modifyNode_eq_ok.1 h₁
  have hfirst := linksOf_unlink (p := p) (hs.node hp h.source hn).sorted hn target
  obtain ⟨r, hr, hd⟩ := Except.bind_eq_ok.1 hd
  rw [h.inverse] at hr
  cases hr
  dsimp only at hd
  split at hd
  · rename_i hnone
    cases hd
    rw [hfirst]
    -- No link stands at the end of a node that does not exist.
    by_cases hnode : type = u.id ∧ k = target
    · obtain ⟨rfl, rfl⟩ := hnode
      have hempty : Store.linksOf (s.setNode t.id id (n.removeLink (slotOf p) k)) u.id k slot = [] := by
        rw [Store.linksOf, hnone]
        rfl
      rw [hfirst, List.filter_eq_nil_iff] at hempty
      rw [List.filter_eq_nil_iff.2 hempty, eq_comm, List.filter_eq_nil_iff]
      intro l hl hboth
      exact hempty l hl (Bool.and_eq_true_iff.1 hboth).1
    · refine List.filter_congr fun l _ => ?_
      have hne : (⟨type, slot, k, l.id⟩ : End) ≠ endOf u q target id := fun heq => hnode (endOf_eq_iff.1 heq).1
      rw [decide_eq_true hne, Bool.and_true]
  · rename_i m hm
    cases hd
    obtain ⟨hfits, -⟩ := unlink_spec hp hs h hn target
    rw [linksOf_unlink (p := q) (hfits.node hp h.target hm).sorted hm id, hfirst, List.filter_filter]
    exact List.filter_congr fun l _ => Bool.and_comm _ _

/-! ### Steps on one collection -/

/-- What a step on the collection `p` of a node may do, where `q` is the other side: the links of the collection become
`f` of what they were, which lead to no other nodes than before but for the `joined` ones. Another field of the node
changes only where the node is linked to itself, or where this makes it lose a link that has to give way. -/
structure Collects (schema : SchemaLayout) (t : TypeLayout) (p : PropDef EdgeLayout) (u : TypeLayout) (q : PropDef EdgeLayout)
    (id : NodeId) (joined : List NodeId) (f : List (Link EdgeNode) → List (Link EdgeNode)) (s s' : Store) : Prop where
  sound : s'.Sound schema
  nodes : SameNodes s s'
  here : s'.linksOf t.id id (slotOf p) = f (s.linksOf t.id id (slotOf p))
  bounded : ∀ l' ∈ s'.linksOf t.id id (slotOf p), l'.id ∈ joined ∨ ∃ l ∈ s.linksOf t.id id (slotOf p), l.id = l'.id
  elsewhere : ∀ slot, slot ≠ slotOf p →
    (t.id = u.id → slot = slotOf q → id ∉ joined ∧ ∀ l ∈ s.linksOf t.id id (slotOf p), l.id ≠ id) →
    s'.linksOf t.id id slot = s.linksOf t.id id slot
  displaced : ∀ slot, slot ≠ slotOf p → ∀ k, k ≠ id → s'.link? ⟨t.id, slot, id, k⟩ = s.link? ⟨t.id, slot, id, k⟩ ∨
    q.type = .reference ∧ s'.link? ⟨t.id, slot, id, k⟩ = none

namespace Collects

variable {joined joined' : List NodeId} {f g : List (Link EdgeNode) → List (Link EdgeNode)}

theorem refl (hs : s.Sound schema) : Collects schema t p u q id [] (fun ls => ls) s s where
  sound := hs
  nodes := .refl s
  here := rfl
  bounded l hl := .inr ⟨l, hl, rfl⟩
  elsewhere _ _ _ := rfl
  displaced _ _ _ _ := .inl rfl

theorem trans (h : Collects schema t p u q id joined f s s') (h' : Collects schema t p u q id joined' g s' s'') :
    Collects schema t p u q id (joined ++ joined') (fun ls => g (f ls)) s s'' where
  sound := h'.sound
  nodes := h.nodes.trans h'.nodes
  here := by rw [h'.here, h.here]
  bounded l'' hl'' := by
    rcases h'.bounded l'' hl'' with hnew | ⟨l', hl', hid⟩
    · exact .inl (List.mem_append_right _ hnew)
    · rw [← hid]
      exact (h.bounded l' hl').imp_left (List.mem_append_left _)
  elsewhere slot hslot hself := by
    rw [h'.elsewhere slot hslot fun htype hq => ?_, h.elsewhere slot hslot fun htype hq => ?_]
    · obtain ⟨hjoined, hold⟩ := hself htype hq
      exact ⟨fun hmem => hjoined (List.mem_append_left _ hmem), hold⟩
    · obtain ⟨hjoined, hold⟩ := hself htype hq
      refine ⟨fun hmem => hjoined (List.mem_append_right _ hmem), fun l' hl' hid => ?_⟩
      rcases h.bounded l' hl' with hnew | ⟨l, hl, hl'⟩
      · exact hjoined (List.mem_append_left _ (hid ▸ hnew))
      · exact hold l hl (hl'.trans hid)
  displaced slot hslot k hk := by
    rcases h'.displaced slot hslot k hk with heq | hgone
    · rw [heq]
      exact h.displaced slot hslot k hk
    · exact .inr hgone

/-- What becomes of the links that there are is all that counts. -/
theorem congr (h : Collects schema t p u q id joined f s s')
    (hfg : f (s.linksOf t.id id (slotOf p)) = g (s.linksOf t.id id (slotOf p))) :
    Collects schema t p u q id joined g s s' :=
  ⟨h.sound, h.nodes, h.here.trans hfg, h.bounded, h.elsewhere, h.displaced⟩

/-- Another field of the node shows the same links, unless it is the other side and the node is or was linked to itself.
Even then its links to other nodes stay, or give way to a single one. -/
theorem others (hp : schema.Placed) (hopp : Opposite schema t p u q) (h : Collects schema t p u q id joined f s s')
    {slot : UInt8} (hslot : slot ≠ slotOf p) : s'.linksOf t.id id slot = s.linksOf t.id id slot ∨
      t = u ∧ slot = slotOf q ∧ (id ∈ joined ∨ id ∈ (s.linksOf t.id id (slotOf p)).map (·.id)) ∧
        ∀ k, k ≠ id → s'.link? ⟨t.id, slot, id, k⟩ = s.link? ⟨t.id, slot, id, k⟩ ∨
          q.type = .reference ∧ s'.link? ⟨t.id, slot, id, k⟩ = none := by
  by_cases hself : t.id = u.id ∧ slot = slotOf q ∧
      (id ∈ joined ∨ id ∈ (s.linksOf t.id id (slotOf p)).map (·.id))
  · obtain ⟨htype, hq, hlinked⟩ := hself
    exact .inr ⟨type_unique hp hopp.source hopp.target htype, hq, hlinked, fun k hk => h.displaced slot hslot k hk⟩
  · refine .inl (h.elsewhere slot hslot fun htype hq => ?_)
    obtain ⟨hjoined, hold⟩ := not_or.1 fun hlinked => hself ⟨htype, hq, hlinked⟩
    exact ⟨hjoined, fun l hl hlid => hold (List.mem_map.2 ⟨l, hl, hlid⟩)⟩

end Collects

/-- Of a collection, one link is taken away. -/
theorem disconnect_collects (hp : schema.Placed) (hs : s.Sound schema) (h : Opposite schema t p u q)
    (hn : (s.node? t.id id).isSome = true) (target : NodeId) :
    ∃ s', disconnect schema t.id id p target s = .ok s' ∧
      Collects schema t p u q id [] (·.filter fun l => decide (l.id ≠ target)) s s' := by
  obtain ⟨s', hd, hnodes⟩ := disconnect_succeeds h hn target
  have hlinks := linksOf_disconnect hp hs.fits h hd
  have hhere : s'.linksOf t.id id (slotOf p) = (s.linksOf t.id id (slotOf p)).filter fun l => decide (l.id ≠ target) := by
    rw [hlinks]
    refine List.filter_congr fun l _ => ?_
    simp only [endOf, ne_eq, End.mk.injEq]
    grind
  refine ⟨s', hd, (disconnect_sound hp hs h hd).1, hnodes, hhere, fun l' hl' => ?_, fun slot hslot hself => ?_,
    fun slot hslot k hk => ?_⟩
  · rw [hhere] at hl'
    exact .inr ⟨l', (List.mem_filter.1 hl').1, rfl⟩
  · rw [hlinks, List.filter_eq_self]
    intro l hl
    simp only [endOf, ne_eq, End.mk.injEq, Bool.and_eq_true, decide_eq_true_eq]
    refine ⟨fun hat => hslot hat.2.1, ?_⟩
    rintro ⟨htype, hq, hid, hl'⟩
    -- The node would be linked to itself from this side, and so from the other one.
    have hback : s.link? (endOf t p id id) = s.link? (endOf u q id id) := hs.mirrored _ _ (.mk h id id)
    have hsome : (s.link? (endOf u q id id)).isSome = true := by
      rw [Store.link?_isSome, List.mem_map]
      refine ⟨l, ?_, hl'⟩
      rw [endOf, ← htype, ← hq]
      exact hl
    rw [← hback, Store.link?_isSome, List.mem_map] at hsome
    obtain ⟨l₀, hl₀, hself'⟩ := hsome
    exact (hself htype hq).2 l₀ hl₀ hself'
  · rw [(disconnect_spec hp hs.fits h hd).2, if_neg]
    · exact .inl rfl
    · simp only [endOf, End.mk.injEq]
      grind

/-- Making room at a node that exists succeeds: nothing has to give way, or a link of a reference to another node does. -/
theorem release_succeeds (h : Opposite schema t p u q) (hn : (s.node? t.id id).isSome = true) (target : NodeId) :
    ∃ s', release schema t.id id p target s = .ok s' ∧ (s' = s ∨
      p.type = .reference ∧ ∃ old, old ≠ target ∧ disconnect schema t.id id p old s = .ok s' ∧ SameNodes s s') := by
  obtain ⟨n, hn'⟩ := Option.isSome_iff_exists.1 hn
  unfold release
  by_cases hone : p.type = .reference
  · rw [if_pos hone, linkedIds_eq_ok.2 ⟨n, hn', rfl⟩]
    dsimp only [bind, Except.bind]
    split
    · rename_i old _
      by_cases hold : old = target
      · rw [if_pos hold]
        exact ⟨s, rfl, .inl rfl⟩
      · rw [if_neg hold]
        obtain ⟨s', hd, hnodes⟩ := disconnect_succeeds h hn old
        exact ⟨s', hd, .inr ⟨hone, old, hold, hd, hnodes⟩⟩
    · exact ⟨s, rfl, .inl rfl⟩
  · rw [if_neg hone]
    exact ⟨s, rfl, .inl rfl⟩

/-- The two sides of a relation are in one field only if they are one property. -/
theorem Opposite.same_of_slot (hp : schema.Placed) (h : Opposite schema t p u q) (htype : t.id = u.id)
    (hslot : slotOf p = slotOf q) : t = u ∧ p = q := by
  obtain rfl := type_unique hp h.source h.target htype
  exact ⟨rfl, (hp.types t h.source).slot_unique h.prop h.back (h.slot hp) (by rw [h.symm.slot hp, hslot])⟩

/-- The first steps of a connection from a collection: the link is put in at `n`, and the other side makes room at `m`. -/
structure Joins (schema : SchemaLayout) (t : TypeLayout) (p : PropDef EdgeLayout) (u : TypeLayout) (q : PropDef EdgeLayout)
    (id : NodeId) (l : Link EdgeNode) (s s' : Store) (n m : StoredNode) : Prop where
  source : s.node? t.id id = some n
  target : s'.node? u.id l.id = some m
  nodes : SameNodes s s'
  room : s' = s.setNode t.id id (n.putLink p (slotOf p) l) ∨ q.type = .reference ∧ ∃ old, old ≠ id ∧
    disconnect schema u.id l.id q old (s.setNode t.id id (n.putLink p (slotOf p) l)) = .ok s'

/-- A connection from a collection succeeds: after these steps, the other side is linked back. -/
theorem connect_succeeds (h : Opposite schema t p u q) (hmany : p.type = .references) (l : Link EdgeNode)
    (hn : (s.node? t.id id).isSome = true) (hm : (s.node? u.id l.id).isSome = true) :
    ∃ n m s', Joins schema t p u q id l s s' n m ∧
      connect schema t.id id p l s = .ok (s'.setNode u.id l.id (m.putLink q (slotOf q) ⟨id, l.edges⟩)) := by
  obtain ⟨n, hn'⟩ := Option.isSome_iff_exists.1 hn
  have hput : SameNodes s (s.setNode t.id id (n.putLink p (slotOf p) l)) := .setNode hn _
  obtain ⟨s', hr, hroom⟩ := release_succeeds h.symm ((hput _ _).trans hm) id
  have hnodes : SameNodes s s' := by
    rcases hroom with rfl | ⟨-, -, -, -, hsame⟩
    · exact hput
    · exact hput.trans hsame
  obtain ⟨m, hm'⟩ := Option.isSome_iff_exists.1 ((hnodes _ _).trans hm)
  refine ⟨n, m, s', ⟨hn', hm', hnodes, hroom.imp_right fun ⟨hone, old, hold, hd, _⟩ => ⟨hone, old, hold, hd⟩⟩, ?_⟩
  have hfirst : release schema t.id id p l.id s = .ok s := by
    rw [release, if_neg (by rw [hmany]; nofun)]
    rfl
  unfold connect
  rw [hfirst, Except.bind_eq_ok]
  refine ⟨s, rfl, Except.bind_eq_ok.2 ⟨_, Store.modifyNode_eq_ok.2 ⟨n, hn', rfl⟩, ?_⟩⟩
  rw [h.inverse]
  exact Except.bind_eq_ok.2 ⟨_, rfl, Except.bind_eq_ok.2 ⟨s', hr, Store.modifyNode_eq_ok.2 ⟨m, hm', rfl⟩⟩⟩

namespace Joins

variable {l : Link EdgeNode} {n m : StoredNode} (hp : schema.Placed) (hs : s.Fits schema) (h : Opposite schema t p u q)
  (hmany : p.type = .references) (hl : l.Fits EdgeFits p) (hj : Joins schema t p u q id l s s' n m)

include hp hs h hmany hl hj

theorem fits : s'.Fits schema := by
  have hput := link_spec hp hs h hj.source hl (by rw [hmany]; nofun)
  rcases hj.room with rfl | ⟨-, old, -, hd⟩
  · exact hput.1
  · exact (disconnect_spec hp hput.1 h.symm hd).1

/-- The other side makes room only where it is the side of a reference. -/
theorem links {slot : UInt8} (hfree : ¬(t.id = u.id ∧ slot = slotOf q ∧ id = l.id ∧ q.type = .reference)) :
    s'.linksOf t.id id slot = (n.putLink p (slotOf p) l).links slot := by
  have hput := link_spec hp hs h hj.source hl (by rw [hmany]; nofun)
  have hfirst : Store.linksOf (s.setNode t.id id (n.putLink p (slotOf p) l)) t.id id slot =
      (n.putLink p (slotOf p) l).links slot := by
    rw [Store.linksOf_setNode, if_pos ⟨rfl, rfl⟩]
  rcases hj.room with rfl | ⟨hone, old, hold, hd⟩
  · exact hfirst
  · rw [linksOf_disconnect hp hput.1 h.symm hd, List.filter_eq_self.2, hfirst]
    intro l' _
    simp only [endOf, ne_eq, End.mk.injEq]
    grind

theorem links_of_ne {slot : UInt8} (hslot : slot ≠ slotOf p)
    (hfree : ¬(t.id = u.id ∧ slot = slotOf q ∧ id = l.id ∧ q.type = .reference)) :
    s'.linksOf t.id id slot = s.linksOf t.id id slot := by
  rw [hj.links hp hs h hmany hl hfree, Node.links_putLink_of_ne n p _ hslot, Store.linksOf_of_node? hj.source]

theorem links_joined (hfree : ¬(t.id = u.id ∧ slotOf p = slotOf q ∧ id = l.id ∧ q.type = .reference)) :
    s'.linksOf t.id id (slotOf p) = Node.joinLinks l (s.linksOf t.id id (slotOf p)) := by
  rw [hj.links hp hs h hmany hl hfree,
    Node.links_putLink (hs.node hp h.source hj.source) (hp.types t h.source) h.prop (h.slot hp) hmany,
    Store.linksOf_of_node? hj.source]

omit hp hs h hmany hl in
theorem links_self (hloop : t.id = u.id ∧ id = l.id) (slot : UInt8) : s'.linksOf t.id id slot = m.links slot := by
  rw [hloop.1, hloop.2, Store.linksOf_of_node? hj.target]

/-- In the end, the link has joined the collection once, also where it is linked back by the same collection. -/
theorem here : (s'.setNode u.id l.id (m.putLink q (slotOf q) ⟨id, l.edges⟩)).linksOf t.id id (slotOf p) =
    Node.joinLinks l (s.linksOf t.id id (slotOf p)) := by
  rw [Store.linksOf_setNode]
  by_cases hloop : t.id = u.id ∧ id = l.id
  · rw [if_pos hloop]
    by_cases hslot : slotOf p = slotOf q
    · -- A collection that is its own inverse gets the link twice.
      obtain ⟨rfl, rfl⟩ := h.same_of_slot hp hloop.1 hslot
      rw [Node.links_putLink ((hj.fits hp hs h hmany hl).node hp h.target hj.target) (hp.types t h.source) h.prop (h.slot hp)
        hmany, ← hj.links_self hloop, hj.links_joined hp hs h hmany hl (by rw [hmany]; simp)]
      obtain ⟨_, edges⟩ := l
      obtain rfl : id = _ := hloop.2
      exact Node.joinLinks_joinLinks ..
    · rw [Node.links_putLink_of_ne m q _ hslot, ← hj.links_self hloop,
        hj.links_joined hp hs h hmany hl fun hat => hslot hat.2.1]
  · rw [if_neg hloop, hj.links_joined hp hs h hmany hl fun hat => hloop ⟨hat.1, hat.2.2.1⟩]

theorem elsewhere {slot : UInt8} (hslot : slot ≠ slotOf p) (hfree : t.id = u.id → slot = slotOf q → id ≠ l.id) :
    (s'.setNode u.id l.id (m.putLink q (slotOf q) ⟨id, l.edges⟩)).linksOf t.id id slot = s.linksOf t.id id slot := by
  have hother := hj.links_of_ne hp hs h hmany hl hslot fun hat => hfree hat.1 hat.2.1 hat.2.2.1
  rw [Store.linksOf_setNode]
  split
  · rename_i hloop
    rw [Node.links_putLink_of_ne m q _ fun hq => hfree hloop.1 hq hloop.2, ← hj.links_self hloop, hother]
  · exact hother

/-- Where the node is linked back to itself by another field, a reference gives way, and a collection keeps the rest. -/
theorem displaced (htype : t.id = u.id) (hslot : slotOf q ≠ slotOf p) (hid : id = l.id) {k : NodeId} (hk : k ≠ id) :
    let store := s'.setNode u.id l.id (m.putLink q (slotOf q) ⟨id, l.edges⟩)
    store.link? ⟨t.id, slotOf q, id, k⟩ = s.link? ⟨t.id, slotOf q, id, k⟩ ∨
      q.type = .reference ∧ store.link? ⟨t.id, slotOf q, id, k⟩ = none := by
  intro store
  rw [Store.link?_eq, Store.link?_eq]
  dsimp only
  rw [Store.linksOf_setNode, if_pos ⟨htype, hid⟩]
  by_cases hone : q.type = .reference
  · obtain ⟨edges, hlinks⟩ : ∃ edges, (m.putLink q (slotOf q) ⟨id, l.edges⟩).links (slotOf q) = [⟨id, edges⟩] :=
      Node.links_putLink_of_reference m hone _
    refine .inr ⟨hone, ?_⟩
    rw [hlinks]
    simp [Ne.symm hk]
  · have hrefs : q.type = .references := by
      have := h.backIsReference
      cases hq : q.type <;> simp_all [PropType.isReference]
    rw [Node.links_putLink ((hj.fits hp hs h hmany hl).node hp h.target hj.target) (hp.types u h.target) h.back (h.symm.slot hp)
      hrefs, Node.find?_joinLinks, if_neg hk, ← hj.links_self ⟨htype, hid⟩,
      hj.links_of_ne hp hs h hmany hl hslot fun hat => hone hat.2.2.2]
    exact .inl rfl

end Joins

/-- To a collection, one link is joined. -/
theorem connect_collects (hp : schema.Placed) (hs : s.Sound schema) (h : Opposite schema t p u q) (hmany : p.type = .references)
    {l : Link EdgeNode} (hl : l.Fits EdgeFits p) (hedges : l.edges.isSome = true → p.edges.isSome = true)
    (hn : (s.node? t.id id).isSome = true) (hm : (s.node? u.id l.id).isSome = true) :
    ∃ s', connect schema t.id id p l s = .ok s' ∧ Collects schema t p u q id [l.id] (Node.joinLinks l) s s' := by
  obtain ⟨n, m, s₂, hj, hc⟩ := connect_succeeds h hmany l hn hm
  have hhere := hj.here hp hs.fits h hmany hl
  refine ⟨_, hc, connect_sound hp hs h hl hedges hc, hj.nodes.trans (.setNode (by rw [hj.target]; rfl) _), hhere,
    fun l' hl' => ?_, fun slot hslot hfree => ?_, fun slot hslot k hk => ?_⟩
  · rw [hhere] at hl'
    rcases Node.mem_joinLinks hl' with rfl | hold | ⟨l₀, hold, -, rfl⟩
    · exact .inl (List.mem_singleton.2 rfl)
    · exact .inr ⟨l', hold, rfl⟩
    · exact .inr ⟨l₀, hold, rfl⟩
  · exact hj.elsewhere hp hs.fits h hmany hl hslot fun htype hq heq => (hfree htype hq).1 (List.mem_singleton.2 heq)
  · by_cases hat : t.id = u.id ∧ slot = slotOf q ∧ id = l.id
    · obtain ⟨htype, rfl, hid⟩ := hat
      exact hj.displaced hp hs.fits h hmany hl htype hslot hid hk
    · rw [Store.link?_eq, Store.link?_eq]
      dsimp only
      rw [hj.elsewhere hp hs.fits h hmany hl hslot fun htype hq hid => hat ⟨htype, hq, hid⟩]
      exact .inl rfl

/-! ### Many steps -/

/-- Of a collection, some links are taken away. -/
theorem disconnectAll_collects (hp : schema.Placed) (hs : s.Sound schema) (h : Opposite schema t p u q)
    (hn : (s.node? t.id id).isSome = true) (targets : List NodeId) :
    ∃ s', disconnectAll schema t.id id p targets s = .ok s' ∧
      Collects schema t p u q id [] (·.filter fun l => decide (l.id ∉ targets)) s s' := by
  induction targets generalizing s with
  | nil => exact ⟨s, rfl, (Collects.refl hs).congr (by simp)⟩
  | cons target targets ih =>
    obtain ⟨s₁, hd, hfirst⟩ := disconnect_collects hp hs h hn target
    obtain ⟨s', hall, hrest⟩ := ih hfirst.sound ((hfirst.nodes _ _).trans hn)
    refine ⟨s', ?_, (hfirst.trans hrest).congr ?_⟩
    · rw [disconnectAll, List.foldlM_cons, hd]
      exact hall
    · rw [List.filter_filter]
      refine List.filter_congr fun l _ => ?_
      by_cases hl : l.id = target <;> simp [hl]

/-- To a collection, some links are joined. -/
theorem connectAll_collects (hp : schema.Placed) (hs : s.Sound schema) (h : Opposite schema t p u q) (hmany : p.type = .references)
    (hn : (s.node? t.id id).isSome = true) {ls : List (Link EdgeNode)}
    (hls : ∀ l ∈ ls, (l.Fits EdgeFits p ∧ (l.edges.isSome = true → p.edges.isSome = true)) ∧ (s.node? u.id l.id).isSome = true) :
    ∃ s', connectAll schema t.id id p ls s = .ok s' ∧
      Collects schema t p u q id (ls.map (·.id)) (Node.joinAll ls) s s' := by
  induction ls generalizing s with
  | nil => exact ⟨s, rfl, .refl hs⟩
  | cons l ls ih =>
    obtain ⟨⟨hfits, hedges⟩, hm⟩ := hls l List.mem_cons_self
    obtain ⟨s₁, hc, hfirst⟩ := connect_collects hp hs h hmany hfits hedges hn hm
    obtain ⟨s', hall, hrest⟩ := ih hfirst.sound ((hfirst.nodes _ _).trans hn) fun l' hl' => by
      obtain ⟨hl, hm⟩ := hls l' (List.mem_cons_of_mem _ hl')
      exact ⟨hl, (hfirst.nodes _ _).trans hm⟩
    refine ⟨s', ?_, hfirst.trans hrest⟩
    rw [connectAll, List.foldlM_cons, hc]
    exact hall

end NodeStore.Engine
