import NodeStore.Proofs.Schema.Pairs
import NodeStore.Proofs.Schema.Reordering

/-!
# Inverses in another order

As long as no two references claim the same property, the order of properties changes neither the inverses of references nor
what their links store.

* `FlatTypes.Alike.complete`: with their inverses named and added, the same types are still the same.
* `FlatTypes.Alike.shareEdges`: so they are with their edges shared.
* `resolveInverses_reordered`: so they are once inverses are resolved.
-/

namespace NodeStore.Schema

/-! ### Links -/

namespace FlatTypes.Alike

variable {types types' : FlatTypes}

theorem symm (h : types.Alike types') : types'.Alike types :=
  h.flip.imp fun _ _ h => ⟨h.1.symm, h.2.symm fun _ _ => FlatProp.Alike.symm⟩

theorem names (h : types.Alike types') : types.map (·.1) = types'.map (·.1) := by
  rw [← List.forall₂_eq_eq_eq, List.forall₂_map_left_iff, List.forall₂_map_right_iff]
  exact h.imp fun _ _ h => h.1

theorem named (h : types.Alike types') (hn : types.Named) : types'.Named where
  names := h.names ▸ hn.names
  props y hy := by
    obtain ⟨x, hx, hsame⟩ := exists_of_forall₂_left h.symm hy
    exact hsame.2.names.nodup_iff.2 (hn.props x hx)

theorem propsOf? (h : types.Alike types') (type : String) :
    AlikeProps ((types.propsOf? type).getD []) ((types'.propsOf? type).getD []) ∧
      (types.propsOf? type).isSome = (types'.propsOf? type).isSome := by
  unfold FlatTypes.Alike at h
  induction h with
  | nil => exact ⟨.refl _, rfl⟩
  | @cons x y xs ys hxy _ ih =>
    unfold FlatTypes.propsOf? at ih ⊢
    rw [List.find?_cons, List.find?_cons, hxy.1]
    by_cases hy : y.1 = type
    · simpa [hy] using hxy.2
    · simpa [hy] using ih

theorem targets (h : types.Alike types') (l : Link) : AlikeProps (types.targets l) (types'.targets l) := (h.propsOf? l.target).1

theorem declaredLink {p q : FlatProp} (h : p.Alike q) (type : String) : declaredLink type p = declaredLink type q := by
  unfold Schema.declaredLink
  rw [h.type, h.options, h.name]

theorem allLinks (h : types.Alike types') : types.allLinks.Perm types'.allLinks := by
  refine Reorders.eq_perm (Reorders.flatMap (fun _ => rfl) (fun _ _ _ => .trans) (fun x y hxy => ?_) (.of_forall₂ h))
  refine hxy.2.filterMap fun p q hpq => ?_
  rw [hxy.1, declaredLink hpq]
  cases Schema.declaredLink y.1 q with
  | none => exact .none
  | some l => exact .some rfl

theorem targeted (h : types.Alike types') (ht : types.Targeted) : types'.Targeted := by
  intro y hy q hq hr
  obtain ⟨x, hx, hxy⟩ := exists_of_forall₂_left h.symm hy
  obtain ⟨p, hp, hpq⟩ := hxy.2.exists_right hq
  obtain ⟨target, href, hsome⟩ := ht x hx p hp (hpq.type ▸ hr)
  refine ⟨target, by rw [hpq.options, href], ?_⟩
  rw [← (h.propsOf? target).2]
  exact hsome

theorem namesLink {p q : FlatProp} (h : p.Alike q) (l : Link) : namesLink l p = namesLink l q := by
  unfold Schema.namesLink
  rw [h.type, h.options]

theorem pointsBack {p q : FlatProp} (h : p.Alike q) (l : Link) : pointsBack l p = pointsBack l q := by
  unfold Schema.pointsBack
  rw [h.type, h.options]

/-- The claims of links do not depend on the order. -/
theorem claimed (h : types.Alike types') (hn : types.Named) (hu : types.Unambiguous) (l : Link) :
    claimed types l = claimed types' l := by
  cases hinv : l.inverse with
  | some inverse => rw [claimed_of_declared hinv, claimed_of_declared hinv]
  | none =>
    cases hfound : (types.targets l).find? (Schema.namesLink l) with
    | none =>
      have hnone : (types'.targets l).find? (Schema.namesLink l) = none := by
        refine List.find?_eq_none.2 fun q hq => ?_
        obtain ⟨p, hp, hpq⟩ := (h.targets l).exists_left hq
        rw [← namesLink hpq]
        exact List.find?_eq_none.1 hfound p hp
      rw [claimed_of_unnamed hinv hfound, claimed_of_unnamed hinv hnone]
    | some back =>
      have hback := List.mem_of_find?_eq_some hfound
      have hnames := List.find?_some hfound
      obtain ⟨q, hq, hbq⟩ := (h.targets l).exists_right hback
      obtain ⟨back', hfound'⟩ : ∃ back', (types'.targets l).find? (Schema.namesLink l) = some back' :=
        Option.isSome_iff_exists.1 (List.find?_isSome.2 ⟨q, hq, (namesLink hbq l).symm.trans hnames⟩)
      obtain ⟨p, hp, hpb⟩ := (h.targets l).exists_left (List.mem_of_find?_eq_some hfound')
      have hunique := namesLink_unique hn hu hback hp hnames ((namesLink hpb l).trans (List.find?_some hfound'))
      rw [claimed_of_named hinv hfound, claimed_of_named hinv hfound', hunique, hpb.name]

theorem unambiguous (h : types.Alike types') (hn : types.Named) (hu : types.Unambiguous) : types'.Unambiguous where
  single l hl l' hl' htarget hclaimed := by
    rw [← h.claimed hn hu, ← h.claimed hn hu] at hclaimed
    exact hu.single l (h.allLinks.symm.subset hl) l' (h.allLinks.symm.subset hl') htarget hclaimed
  free l hl hinv hnames q hq := by
    obtain ⟨p, hp, hpq⟩ := (h.targets l).exists_left hq
    rw [← hpq.name]
    refine hu.free l (h.allLinks.symm.subset hl) hinv (fun p' hp' => ?_) p hp
    obtain ⟨q', hq', hpq'⟩ := (h.targets l).exists_right hp'
    rw [namesLink hpq']
    exact hnames q' hq'

theorem answers (h : types.Alike types') (hn : types.Named) {l : Link} (ha : types.Answers l) : types'.Answers l := by
  intro inverse hinv q hq
  have hrel := (h.targets l).find? (hn.targets l) inverse
  rw [hq] at hrel
  cases hp : (types.targets l).find? (·.name = inverse) with
  | none =>
    rw [hp] at hrel
    cases hrel
  | some p =>
    rw [hp] at hrel
    cases hrel with
    | some hpq =>
      rw [← pointsBack hpq]
      exact ha inverse hinv p hp

/-! ### Resolved types -/

theorem prop? (h : types.Alike types') (hn : types.Named) (type name : String) :
    Option.Rel FlatProp.Alike (types.prop? type name) (types'.prop? type name) := by
  have hfind : ∀ ts : FlatTypes, ts.prop? type name = ((ts.propsOf? type).getD []).find? (·.name = name) := by
    intro ts
    unfold FlatTypes.prop?
    cases ts.propsOf? type <;> rfl
  rw [hfind, hfind]
  exact (h.propsOf? type).1.find? (hn.propsOf? type) name

theorem inverseOf (h : types.Alike types') (hn : types.Named) (l : Link) (name : String) :
    (inverseOf types l name).Alike (inverseOf types' l name) := by
  refine ⟨rfl, rfl, rfl, ?_⟩
  have hrel := h.prop? hn l.source l.path
  unfold Schema.inverseOf
  generalize types.prop? l.source l.path = found at hrel ⊢
  generalize types'.prop? l.source l.path = found' at hrel ⊢
  cases hrel with
  | none => exact .nil
  | some hpq => exact hpq.edges

theorem newInverse (h : types.Alike types') (hn : types.Named) (hu : types.Unambiguous) (l : Link) :
    Option.Rel FlatProp.Alike (newInverse types l) (newInverse types' l) := by
  have hlacks : (types.targets l).all (·.name ≠ Schema.claimed types' l) =
      (types'.targets l).all (·.name ≠ Schema.claimed types' l) := by
    rw [Bool.eq_iff_iff, List.all_eq_true, List.all_eq_true]
    constructor
    · intro hall q hq
      obtain ⟨p, hp, hpq⟩ := (h.targets l).exists_left hq
      rw [← hpq.name]
      exact hall p hp
    · intro hall p hp
      obtain ⟨q, hq, hpq⟩ := (h.targets l).exists_right hp
      rw [hpq.name]
      exact hall q hq
  unfold Schema.newInverse
  rw [h.claimed hn hu, hlacks]
  split
  · exact .some (h.inverseOf hn l _)
  · exact .none

theorem settle (h : types.Alike types') (hn : types.Named) (hu : types.Unambiguous) {type : String} {p q : FlatProp}
    (hpq : p.Alike q) : (settle types type p).Alike (settle types' type q) := by
  unfold Schema.settle
  rw [declaredLink hpq]
  cases Schema.declaredLink type q with
  | none => exact hpq
  | some l => exact ⟨hpq.path, hpq.type, by simp only [hpq.options, h.claimed hn hu], hpq.edges⟩

/-- The completed types are the same up to the order. -/
theorem complete (h : types.Alike types') (hn : types.Named) (hu : types.Unambiguous) :
    (complete types).Alike (complete types') := by
  have hadded : ∀ type, AlikeProps (addedTo types type) (addedTo types' type) := fun type => by
    refine Reorders.filterMap (R := (· = ·)) (fun l l' hl => ?_) (.of_perm (fun _ => rfl) (h.allLinks.filter _))
    rw [hl]
    exact h.newInverse hn hu l'
  unfold Schema.complete FlatTypes.mapProps FlatTypes.Alike
  rw [List.forall₂_map_left_iff, List.forall₂_map_right_iff]
  refine h.imp fun x y hxy => ⟨hxy.1, ?_⟩
  rw [hxy.1]
  exact (hxy.2.map fun p q hpq => h.settle hn hu hpq).append (hadded y.1)

end FlatTypes.Alike

/-! ### Shared edges -/

variable {types types' : FlatTypes} {type target : String} {p p' q : FlatProp}

namespace FlatTypes

theorem Alike.has (h : types.Alike types') (hp : types.Has type p) : ∃ q, types'.Has type q ∧ p.Alike q :=
  (h.propsOf? type).1.exists_right hp

theorem Alike.linked (h : types.Alike types') (hpq : types.Linked type p target q) (hp' : types'.Has type p')
    (hpp' : p.Alike p') : ∃ q', types'.Linked type p' target q' ∧ q.Alike q' := by
  obtain ⟨q', hq', hqq'⟩ := h.has hpq.there
  refine ⟨q', ⟨hp', hq', ?_, ?_, ?_⟩, hqq'⟩
  · rw [← hpp'.type, ← hqq'.type]
    exact hpq.types
  · rw [← hpp'.options, ← hqq'.options]
    exact hpq.targets
  · rw [← hpp'.options, ← hqq'.options, ← hpp'.name, ← hqq'.name]
    exact hpq.inverses

theorem Alike.onLinks (h : types.Alike types') (hl : types.OnLinks) : types'.OnLinks := by
  intro type q hq hedges
  obtain ⟨p, hp, hpq⟩ := h.symm.has hq
  rw [hpq.type]
  refine hl type p hp ?_
  rw [← hpq.edges.isEmpty]
  exact hedges

end FlatTypes

theorem FlatTypes.Alike.shareEdges (h : types.Alike types') (hn : types.Named) (hpaired : types.Paired)
    (hpaired' : types'.Paired) (hlinks : types.OnLinks) : (shareEdges types).Alike (shareEdges types') := by
  have hn' := h.named hn
  have hlinks' := h.onLinks hlinks
  have hedges : ∀ type p p', types.Has type p → types'.Has type p' → p.Alike p' →
      PropDecl.ReorderedAll (sharedEdges types type p) (sharedEdges types' type p') := by
    intro type p p' hp hp' hpp'
    cases hr : p.type.isReference with
    | false =>
      rw [sharedEdges_value hn hpaired hlinks hp hr, sharedEdges_value hn' hpaired' hlinks' hp' (hpp'.type ▸ hr)]
      exact hpp'.edges
    | true =>
      obtain ⟨target, q, hlinked⟩ := hpaired.linked hn hp hr
      obtain ⟨q', hlinked', hqq'⟩ := h.linked hlinked hp' hpp'
      rw [sharedEdges_link hn hpaired hlinks hlinked, sharedEdges_link hn' hpaired' hlinks' hlinked', hpp'.edges.isEmpty]
      split
      · exact hqq'.edges
      · exact hpp'.edges
  rw [shareEdges_eq hn, shareEdges_eq hn']
  unfold FlatTypes.mapEach FlatTypes.mapProps FlatTypes.Alike
  rw [List.forall₂_map_left_iff, List.forall₂_map_right_iff]
  refine (forall₂_with_mem h).imp fun x y ⟨hx, hy, hname, hsame⟩ => ⟨hname, hsame.with_mem.map fun p p' ⟨hp, hp', hpp'⟩ => ?_⟩
  refine ⟨hpp'.path, hpp'.type, hpp'.options, ?_⟩
  rw [← hname]
  exact hedges x.1 p p' ((has_iff hn).2 ⟨x.2, hx, hp⟩) ((has_iff hn').2 ⟨y.2, hname ▸ hy, hp'⟩) hpp'

theorem FlatTypes.Alike.oneSided (h : types.Alike types') (hn : types.Named) (hu : types.Unambiguous) (ho : types.OneSided) :
    types'.OneSided := by
  intro y hy p' hp' q' hq' l hl htarget hclaimed hpe hqe
  obtain ⟨x, hx, hxy⟩ := exists_of_forall₂_left h.symm hy
  obtain ⟨p, hp, hpp'⟩ := hxy.2.exists_right hp'
  obtain ⟨q, hq, hqq'⟩ := hxy.2.exists_right hq'
  rw [hxy.1] at hl htarget
  rw [declaredLink hpp'] at hl
  rw [← h.claimed hn hu, hqq'.name] at hclaimed
  rw [hpp'.edges.isEmpty] at hpe
  rw [hqq'.edges.isEmpty] at hqe
  rw [hpp'.name, hqq'.name]
  exact ho x hx p hp q hq l hl htarget hclaimed hpe hqe

/-- Once inverses are resolved, the same types are still the same. -/
theorem resolveInverses_reordered (h : types.Alike types') (hn : types.Named) (hu : types.Unambiguous) {out : FlatTypes}
    (hout : resolveInverses types = .ok out) (hlinks : out.OnLinks) :
    ∃ out', resolveInverses types' = .ok out' ∧ out.Alike out' := by
  obtain ⟨htargeted, hanswers, rfl⟩ := (resolveInverses_eq_ok hn hu).1 hout
  have hn' := h.named hn
  have hu' := h.unambiguous hn hu
  have htargeted' := h.targeted htargeted
  have hanswers' : ∀ l ∈ types'.allLinks, types'.Answers l := fun l hl => h.answers hn (hanswers l (h.allLinks.symm.subset hl))
  have hcomplete := named_complete hn hu
  refine ⟨_, (resolveInverses_eq_ok hn' hu').2 ⟨htargeted', hanswers', rfl⟩, ?_⟩
  exact (h.complete hn hu).shareEdges hcomplete (complete_paired hn hu htargeted hanswers)
    (complete_paired hn' hu' htargeted' hanswers') (onLinks_of_shareEdges hcomplete hlinks)

end NodeStore.Schema
