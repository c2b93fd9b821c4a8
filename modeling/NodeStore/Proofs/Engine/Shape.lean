import Mathlib.Data.List.Perm.Subperm
import NodeStore.Engine.Batch
import NodeStore.Proofs.Schema.Placement

/-!
# The shape of nodes

A node fits its layout: the main block has its length, and every field belongs to a property and holds the kind of
content that the property takes. What links store fits the layout of the links in the same way.

* `Content.Fits`, `Node.Fits`, `EdgeFits`.
* `Node.link?`: what the link to a node stores, if there is one; `link?_putLink` and `link?_removeLink` say how it
  changes.
* One `Fits` lemma for each operation on nodes.
-/

namespace NodeStore.Engine

variable {E L : Type}

/-! ## Fitting -/

/-- What a link stores fits what the property lets it store. -/
def Link.Fits (pay : L → E → Prop) (p : PropDef L) (l : Link E) : Prop :=
  ∀ e, l.edges = some e → ∀ t, p.edges = some t → pay t e

/-- The content is of the kind that the property takes; `pay` says what its links may store. -/
def Content.Fits (pay : L → E → Prop) (p : PropDef L) : Content E → Prop
  | .bytes bs => p.type = .string ∨ p.type = .alias ∨ p.type = .binary ∨
      (p.type = .vector ∨ p.type = .colvec) ∧ bs.length = p.len
  | .text _ => p.type = .text
  | .sketch _ => p.type = .cardinality
  | .ref l => p.type = .reference ∧ l.Fits pay p
  | .refs ls => p.type = .references ∧ ls ≠ [] ∧ (ls.map (·.id)).Nodup ∧ ∀ l ∈ ls, l.Fits pay p

/-- The main block has its length, and every field holds what its property takes. -/
structure Node.Fits (pay : L → E → Prop) (t : Layout L) (n : Node E) : Prop where
  main : n.main.length = t.mainLen
  sorted : Assoc.Sorted n.fields
  fields : ∀ slot c, n.field? slot = some c → ∃ p ∈ t.props, p.slot? = some slot ∧ c.Fits pay p

/-- What links store on links: nothing. -/
def NothingFits : Empty → Empty → Prop := fun _ _ => True

/-- What a link stores fits the layout of the links. -/
def EdgeFits (t : EdgeLayout) (n : EdgeNode) : Prop := n.Fits NothingFits t

/-- The field of a slot holds what the property of the slot takes. -/
theorem Node.Fits.content {pay : L → E → Prop} {t : Layout L} {n : Node E} (h : n.Fits pay t) (ht : t.Placed)
    {p : PropDef L} (hp : p ∈ t.props) {slot : UInt8} (hs : p.slot? = some slot) {c : Content E}
    (hc : n.field? slot = some c) : c.Fits pay p := by
  obtain ⟨q, hq, hqs, hfits⟩ := h.fields slot c hc
  rwa [ht.slot_unique hp hq hs hqs]

/-! ## Fields -/

namespace Node

variable {n : Node E}

@[simp] theorem field?_setField (slot j : UInt8) (c : Content E) :
    (n.setField slot c).field? j = if j = slot then some c else n.field? j := Assoc.find?_insert ..

theorem field?_dropField (h : Assoc.Sorted n.fields) (slot j : UInt8) :
    (n.dropField slot).field? j = if j = slot then none else n.field? j := Assoc.find?_erase h ..

@[simp] theorem main_setField (slot : UInt8) (c : Content E) : (n.setField slot c).main = n.main := rfl

@[simp] theorem main_dropField (slot : UInt8) : (n.dropField slot).main = n.main := rfl

namespace Fits

variable {pay : L → E → Prop} {t : Layout L}

theorem fresh (ht : t.Placed) : (Node.fresh t : Node E).Fits pay t where
  main := ht.defaults
  sorted := List.Pairwise.nil
  fields _ _ h := by cases h

theorem withMain (h : n.Fits pay t) {main : Bytes} (hm : main.length = t.mainLen) :
    Node.Fits pay t { n with main } where
  main := hm
  sorted := h.sorted
  fields := h.fields

theorem setField (h : n.Fits pay t) {p : PropDef L} (hp : p ∈ t.props) {slot : UInt8} (hs : p.slot? = some slot)
    {c : Content E} (hc : c.Fits pay p) : (n.setField slot c).Fits pay t where
  main := h.main
  sorted := h.sorted.insert ..
  fields j d hd := by
    rw [field?_setField] at hd
    split at hd
    · rename_i hj
      cases hd
      exact ⟨p, hp, hj ▸ hs, hc⟩
    · exact h.fields j d hd

theorem dropField (h : n.Fits pay t) (slot : UInt8) : (n.dropField slot).Fits pay t where
  main := h.main
  sorted := h.sorted.erase _
  fields j d hd := by
    rw [field?_dropField h.sorted] at hd
    split at hd
    · cases hd
    · exact h.fields j d hd

end Fits

end Node

/-! ## Payloads -/

/-- A payload becomes content of the kind that the property takes. -/
theorem store_fits {pay : L → E → Prop} {p : PropDef L} {payload : Bytes} {existing : Option (Content E)}
    {c : Content E} (h : p.store payload existing = .ok c) : c.Fits pay p := by
  unfold PropDef.store at h
  cases ht : p.type <;> simp only [ht] at h
  all_goals first
    | cases h
    | skip
  case vector | colvec =>
    split at h
    · rename_i hlen
      cases h
      exact .inr (.inr (.inr ⟨by simp [ht], hlen⟩))
    · cases h
  all_goals
    obtain ⟨a, -, h⟩ := Except.bind_eq_ok.1 h
    try split at h
    all_goals
      cases h
      simp [Content.Fits, ht]

namespace Node

variable {n n' : Node E} {pay : L → E → Prop} {t : Layout L}

theorem Fits.writePayload (h : n.Fits pay t) {p : PropDef L} (hp : p ∈ t.props) {slot : UInt8}
    (hs : p.slot? = some slot) {payload : Bytes} (hw : n.writePayload p slot payload = .ok n') : n'.Fits pay t := by
  obtain ⟨c, hc, hn⟩ := Except.bind_eq_ok.1 hw
  cases hn
  exact h.setField hp hs (store_fits hc)

theorem Fits.dropText (h : n.Fits pay t) (slot locale : UInt8) : (n.dropText slot locale).Fits pay t := by
  unfold Node.dropText
  split
  · rename_i entries hf
    obtain ⟨p, hp, hs, hc⟩ := h.fields _ _ hf
    split
    · exact h.dropField slot
    · exact h.setField hp hs hc
  · exact h

/-- Writing a payload changes one field, which is no reference. -/
theorem field?_writePayload {p : PropDef L} {slot : UInt8} {payload : Bytes}
    (hw : n.writePayload p slot payload = .ok n') :
    p.type.isReference = false ∧ ∀ j, j ≠ slot → n'.field? j = n.field? j := by
  obtain ⟨c, hc, hn⟩ := Except.bind_eq_ok.1 hw
  cases hn
  refine ⟨?_, fun j hj => by rw [field?_setField, if_neg hj]⟩
  cases ht : p.type <;> first
    | rfl
    | simp [PropDef.store, ht] at hc

/-- Dropping a text leaves a field that holds none as it is. -/
theorem field?_dropText (h : Assoc.Sorted n.fields) (slot locale : UInt8) {j : UInt8}
    (hj : ∀ entries, n.field? j ≠ some (.text entries)) : (n.dropText slot locale).field? j = n.field? j := by
  unfold Node.dropText
  split
  · rename_i entries hf
    have hne : j ≠ slot := fun hjs => hj entries (hjs ▸ hf)
    split
    · rw [field?_dropField h, if_neg hne]
    · rw [field?_setField, if_neg hne]
  · rfl

/-! ## Links -/

/-- What the link to a node stores, if the field has one. -/
def link? (n : Node E) (slot : UInt8) (target : NodeId) : Option (Option E) :=
  ((n.links slot).find? (·.id = target)).map (·.edges)

theorem links_eq (n : Node E) (slot : UInt8) : n.links slot =
    match n.field? slot with
    | some (.ref l) => [l]
    | some (.refs ls) => ls
    | _ => [] := rfl

theorem links_congr {m : Node E} {slot j : UInt8} (h : m.field? j = n.field? slot) : m.links j = n.links slot := by
  rw [links_eq, links_eq, h]

theorem link?_congr {m : Node E} {slot : UInt8} (h : m.field? slot = n.field? slot) (j : NodeId) :
    m.link? slot j = n.link? slot j := by
  rw [link?, link?, links_congr h]

theorem link?_isSome {slot : UInt8} {j : NodeId} : (n.link? slot j).isSome = true ↔ ∃ l ∈ n.links slot, l.id = j := by
  simp [link?]

theorem mem_links_ref {slot : UInt8} {l : Link E} (h : n.field? slot = some (.ref l)) : n.links slot = [l] := by
  rw [links_eq, h]

theorem mem_links_refs {slot : UInt8} {ls : List (Link E)} (h : n.field? slot = some (.refs ls)) :
    n.links slot = ls := by
  rw [links_eq, h]

/-- A field links to a node once. -/
theorem Fits.nodup_links (h : n.Fits pay t) (slot : UInt8) : ((n.links slot).map (·.id)).Nodup := by
  rw [links_eq]
  split
  · simp
  · rename_i ls hf
    obtain ⟨p, -, -, -, -, hnodup, -⟩ := h.fields _ _ hf
    exact hnodup
  · simp

/-- A field links to no more nodes than there are ids. -/
theorem Fits.length_links_le (h : n.Fits pay t) (slot : UInt8) : (n.links slot).length ≤ 2 ^ 32 := by
  have hnodup : ((n.links slot).map fun l => l.id.toNat).Nodup := by
    have := (h.nodup_links slot).map fun _ _ => UInt32.toNat.inj
    rwa [List.map_map] at this
  have hlt : ((n.links slot).map fun l => l.id.toNat) ⊆ List.range (2 ^ 32) := fun k hk => by
    obtain ⟨l, -, rfl⟩ := List.mem_map.1 hk
    exact List.mem_range.2 l.id.toNat_lt
  have hle := (List.Nodup.subperm hnodup hlt).length_le
  rwa [List.length_map, List.length_range] at hle

/-- Among links to different nodes, a link is the one that is found for its node. -/
theorem find?_id_of_mem {ls : List (Link E)} (h : (ls.map (·.id)).Nodup) {l : Link E} (hl : l ∈ ls) :
    ls.find? (·.id = l.id) = some l := by
  induction ls with
  | nil => cases hl
  | cons x xs ih =>
    obtain ⟨hx, hxs⟩ := List.nodup_cons.1 h
    rcases List.mem_cons.1 hl with rfl | hmem
    · simp
    · have hne : x.id ≠ l.id := fun heq => hx (by
        dsimp only
        rw [heq]
        exact List.mem_map_of_mem hmem)
      rw [List.find?_cons_of_neg (by simpa using hne)]
      exact ih hxs hmem

/-- The link of a field to a node is the one that is found. -/
theorem Fits.link?_of_mem (h : n.Fits pay t) {slot : UInt8} {l : Link E} (hl : l ∈ n.links slot) :
    n.link? slot l.id = some l.edges := by
  rw [link?, find?_id_of_mem (h.nodup_links slot) hl]
  rfl

/-! ### Taking a link out -/

theorem Fits.removeLink (h : n.Fits pay t) (slot : UInt8) (target : NodeId) : (n.removeLink slot target).Fits pay t := by
  unfold Node.removeLink
  split
  · split
    · exact h.dropField slot
    · exact h
  · rename_i ls hf
    split
    · exact h.dropField slot
    · rename_i hne
      obtain ⟨p, hp, hs, ht, -, hnodup, hfits⟩ := h.fields _ _ hf
      refine h.setField hp hs ⟨ht, hne, hnodup.sublist (List.filter_sublist.map _), fun l hl => ?_⟩
      exact hfits l (List.mem_filter.1 hl).1
  · exact h

theorem links_removeLink (h : Assoc.Sorted n.fields) (slot j : UInt8) (target : NodeId) :
    (n.removeLink slot target).links j =
      if j = slot then (n.links slot).filter (fun l => !decide (l.id = target)) else n.links j := by
  have hset : ∀ c : Content E, j ≠ slot → (n.setField slot c).links j = n.links j := fun c hj =>
    links_congr (by rw [field?_setField, if_neg hj])
  have hdrop : j ≠ slot → (n.dropField slot).links j = n.links j := fun hj =>
    links_congr (by rw [field?_dropField h, if_neg hj])
  have hgone : (n.dropField slot).links slot = [] := by
    rw [links_eq, field?_dropField h, if_pos rfl]
  by_cases hj : j = slot
  · subst hj
    rw [if_pos rfl]
    unfold Node.removeLink
    split
    · rename_i l hf
      rw [mem_links_ref hf]
      by_cases hl : l.id = target
      · rw [if_pos hl, hgone]
        simp [hl]
      · rw [if_neg hl, mem_links_ref hf]
        simp [hl]
    · rename_i ls hf
      rw [mem_links_refs hf]
      split
      · rename_i hnil
        rw [hgone, hnil]
      · rw [links_eq, field?_setField, if_pos rfl]
    · rename_i h1 h2
      rw [links_eq]
      split
      · rename_i l hf
        exact absurd hf (h1 l)
      · rename_i ls hf
        exact absurd hf (h2 ls)
      · rfl
  · rw [if_neg hj]
    unfold Node.removeLink
    split
    · split
      · exact hdrop hj
      · rfl
    · split
      · exact hdrop hj
      · exact hset _ hj
    · rfl

/-- Taking a link out changes nothing else. -/
theorem link?_removeLink (h : Assoc.Sorted n.fields) (slot j : UInt8) (target k : NodeId) :
    (n.removeLink slot target).link? j k = if j = slot ∧ k = target then none else n.link? j k := by
  unfold link?
  rw [links_removeLink h]
  by_cases hj : j = slot
  · subst hj
    rw [if_pos rfl]
    by_cases hk : k = target
    · subst hk
      simp
    · rw [if_neg (by simp [hk]), List.find?_filter]
      congr 2
      funext l
      by_cases hl : l.id = k
      · simp [hl, hk]
      · simp [hl]
  · rw [if_neg hj, if_neg (by simp [hj])]

/-! ### Putting a link in -/

theorem ids_joinLinks (l : Link E) (ls : List (Link E)) :
    (joinLinks l ls).map (·.id) = if l.id ∈ ls.map (·.id) then ls.map (·.id) else ls.map (·.id) ++ [l.id] := by
  induction ls with
  | nil => rfl
  | cons l' ls ih =>
    rw [joinLinks]
    by_cases h : l'.id = l.id
    · rw [if_pos h, if_pos (by simp [h])]
      rfl
    · rw [if_neg h, List.map_cons, ih]
      by_cases hm : l.id ∈ ls.map (·.id)
      · rw [if_pos hm, List.map_cons, if_pos (List.mem_cons_of_mem _ hm)]
      · rw [if_neg hm, List.map_cons, if_neg (by simpa [Ne.symm h] using hm), List.cons_append]

theorem joinLinks_ne_nil (l : Link E) (ls : List (Link E)) : joinLinks l ls ≠ [] := by
  cases ls with
  | nil => simp [joinLinks]
  | cons l' ls =>
    rw [joinLinks]
    split <;> simp

theorem mem_joinLinks {l x : Link E} {ls : List (Link E)} (h : x ∈ joinLinks l ls) :
    x = l ∨ x ∈ ls ∨ ∃ l' ∈ ls, l'.id = l.id ∧ x = ⟨l'.id, l.edges <|> l'.edges⟩ := by
  induction ls with
  | nil => exact .inl (List.mem_singleton.1 h)
  | cons l' ls ih =>
    rw [joinLinks] at h
    split at h
    · rename_i hid
      rcases List.mem_cons.1 h with rfl | h
      · exact .inr (.inr ⟨l', List.mem_cons_self, hid, rfl⟩)
      · exact .inr (.inl (List.mem_cons_of_mem _ h))
    · rcases List.mem_cons.1 h with rfl | h
      · exact .inr (.inl List.mem_cons_self)
      · rcases ih h with h | h | ⟨m, hm, hid, hx⟩
        · exact .inl h
        · exact .inr (.inl (List.mem_cons_of_mem _ h))
        · exact .inr (.inr ⟨m, List.mem_cons_of_mem _ hm, hid, hx⟩)

theorem find?_joinLinks (l : Link E) (ls : List (Link E)) (k : NodeId) :
    ((joinLinks l ls).find? (·.id = k)).map (·.edges) =
      if k = l.id then some (l.edges <|> ((ls.find? (·.id = k)).map (·.edges)).join)
      else (ls.find? (·.id = k)).map (·.edges) := by
  induction ls with
  | nil =>
    by_cases h : k = l.id
    · simp [joinLinks, h]
    · simp [joinLinks, h, Ne.symm h]
  | cons l' ls ih =>
    rw [joinLinks]
    by_cases hid : l'.id = l.id
    · rw [if_pos hid]
      by_cases hk : k = l.id
      · simp [hk, hid]
      · have : l.id ≠ k := Ne.symm hk
        simp [hk, hid, this]
    · rw [if_neg hid]
      by_cases hl : l'.id = k
      · have : k ≠ l.id := hl ▸ hid
        simp [hl, this]
      · simpa [hl] using ih

/-- What a link stores after another for the same node was joined with it. -/
theorem Link.Fits.orElse {p : PropDef L} {l l' : Link E} (h : Link.Fits pay p l) (h' : Link.Fits pay p l') (id : NodeId) :
    Link.Fits pay p ⟨id, l.edges <|> l'.edges⟩ := by
  intro e he t ht
  cases hl : l.edges with
  | some x =>
    rw [hl] at he
    exact h e (hl.trans he) t ht
  | none =>
    rw [hl] at he
    exact h' e he t ht

theorem Fits.putLink (h : n.Fits pay t) (ht : t.Placed) {p : PropDef L} (hp : p ∈ t.props) {slot : UInt8}
    (hs : p.slot? = some slot) (hr : p.type.isReference = true) {l : Link E} (hl : l.Fits pay p) :
    (n.putLink p slot l).Fits pay t := by
  have hcontent : ∀ c, n.field? slot = some c → c.Fits pay p := fun c hc => h.content ht hp hs hc
  unfold Node.putLink
  split
  · rename_i hty
    split
    · rename_i old hf
      refine h.setField hp hs ⟨hty, ?_⟩
      obtain ⟨-, hold⟩ := hcontent _ hf
      by_cases hid : old.id = l.id
      · rw [if_pos hid]
        exact Link.Fits.orElse hl hold _
      · rw [if_neg hid]
        intro e he
        exact hl e (by simpa using he)
    · exact h.setField hp hs ⟨hty, hl⟩
  · rename_i hty
    have hrefs : p.type = .references := by
      cases hpt : p.type <;> simp_all [PropType.isReference]
    split
    · exact h.setField hp hs ⟨hrefs, by simp, by simp, by simpa using hl⟩
    · rename_i ls hf
      obtain ⟨-, -, hnodup, hfits⟩ := hcontent _ hf
      refine h.setField hp hs ⟨hrefs, joinLinks_ne_nil _ _, ?_, fun x hx => ?_⟩
      · rw [ids_joinLinks]
        split
        · exact hnodup
        · rename_i hm
          exact List.nodup_append.2 ⟨hnodup, by simp, by simpa using hm⟩
      · rcases mem_joinLinks hx with rfl | hx | ⟨l', hl', -, rfl⟩
        · exact hl
        · exact hfits x hx
        · exact Link.Fits.orElse hl (hfits l' hl') _
    · exact h

/-- A reference that is to lead to a node leads to no other one. -/
def Room (p : PropDef L) (slot : UInt8) (target : NodeId) (n : Node E) : Prop :=
  p.type = .reference → ∀ j, (n.link? slot j).isSome = true → j = target

/-- Where there is room, putting a link in changes nothing else; what the link stored stays unless there is more. -/
theorem link?_putLink (h : n.Fits pay t) (ht : t.Placed) {p : PropDef L} (hp : p ∈ t.props) {slot : UInt8}
    (hs : p.slot? = some slot) (hr : p.type.isReference = true) {l : Link E} (hroom : n.Room p slot l.id) (j : UInt8)
    (k : NodeId) : (n.putLink p slot l).link? j k =
      if j = slot ∧ k = l.id then some (l.edges <|> (n.link? j k).join) else n.link? j k := by
  have hcontent : ∀ c, n.field? slot = some c → c.Fits pay p := fun c hc => h.content ht hp hs hc
  by_cases hj : j = slot
  · subst hj
    unfold Node.putLink
    split
    · rename_i hty
      split
      · rename_i old hf
        have hold : old.id = l.id := hroom hty old.id (link?_isSome.2 ⟨old, by simp [mem_links_ref hf], rfl⟩)
        rw [link?, link?, mem_links_ref hf, links_eq, field?_setField, if_pos rfl, if_pos hold]
        by_cases hk : k = l.id
        · simp [hk, hold]
        · simp [hk, hold, Ne.symm hk]
      · rename_i hf
        have hnone : n.links j = [] := by
          rw [links_eq]
          split
          · rename_i old hold
            exact absurd hold (hf old)
          · rename_i ls hls
            have := (hcontent _ hls).1
            rw [hty] at this
            cases this
          · rfl
        rw [link?, link?, hnone, links_eq, field?_setField, if_pos rfl]
        by_cases hk : k = l.id
        · simp [hk]
        · simp [hk, Ne.symm hk]
    · rename_i hty
      split
      · rename_i hf
        have hnone : n.links j = [] := by rw [links_eq, hf]
        rw [link?, link?, hnone, links_eq, field?_setField, if_pos rfl]
        by_cases hk : k = l.id
        · simp [hk]
        · simp [hk, Ne.symm hk]
      · rename_i ls hf
        rw [link?, link?, mem_links_refs hf, links_eq, field?_setField, if_pos rfl]
        simpa using find?_joinLinks l ls k
      · rename_i c hne hf
        cases c with
        | refs ls => exact absurd rfl (hne ls)
        | ref l => exact absurd (hcontent _ hf).1 hty
        | text entries =>
          have := hcontent _ hf
          simp_all [Content.Fits, PropType.isReference]
        | sketch hashes =>
          have := hcontent _ hf
          simp_all [Content.Fits, PropType.isReference]
        | bytes bs =>
          rcases hcontent _ hf with ht | ht | ht | ⟨ht | ht, -⟩ <;> simp [ht, PropType.isReference] at hr
  · rw [if_neg (by simp [hj])]
    refine link?_congr ?_ k
    unfold Node.putLink
    split
    · split <;> rw [field?_setField, if_neg hj]
    · split
      · rw [field?_setField, if_neg hj]
      · rw [field?_setField, if_neg hj]
      · rfl

end Node

end NodeStore.Engine
