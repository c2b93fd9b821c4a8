import NodeStore.Proofs.Schema.Inverses

/-!
# References in pairs

Once inverses are named and added, every reference has one that leads back; the two ends of a relation share what their links
store.

* `FlatTypes.Paired`, `FlatTypes.Linked`: references and their inverses; `resolveInverses_paired`: what comes out is paired.
* `sharedEdges_link`, `sharedEdges_value`: the edges of a reference are its own or those of its inverse.
* `FlatTypes.OneSided`, `FlatTypes.Even`: the two ends of a relation within one type do not differ; `resolveInverses_even`.
-/

namespace NodeStore.Schema

variable {types : FlatTypes} {l : Link} {type target : String} {p q q' : FlatProp}

/-! ### Pairs -/

/-- The inverse of every reference is a reference back, whose inverse is the first. -/
def FlatTypes.Paired (types : FlatTypes) : Prop :=
  ∀ type ps, (type, ps) ∈ types → ∀ p ∈ ps, p.type.isReference = true →
    ∃ target qs q, p.options.reference = some target ∧ p.options.inverse = some q.name ∧ (target, qs) ∈ types ∧ q ∈ qs ∧
      q.type.isReference = true ∧ q.options.reference = some type ∧ q.options.inverse = some p.name

theorem mem_addedTo {type : String} : p ∈ addedTo types type ↔
    ∃ l ∈ types.allLinks, l.target = type ∧ (∀ q ∈ types.targets l, q.name ≠ claimed types l) ∧
      p = inverseOf types l (claimed types l) := by
  simp only [addedTo, List.mem_filterMap, List.mem_filter, decide_eq_true_eq, newInverse_eq_some, and_assoc]

theorem name_inverseOf (types : FlatTypes) (l : Link) (name : String) : (inverseOf types l name).name = name :=
  Path.join_split name

/-- Where the target of a link has the claimed property, that property claims the link. -/
theorem exists_claimed_back (hn : types.Named) (hu : types.Unambiguous) (hanswers : types.Answers l) (hl : l ∈ types.allLinks)
    (hp : p ∈ types.targets l) (hname : p.name = claimed types l) :
    ∃ l', declaredLink l.target p = some l' ∧ l'.target = l.source ∧ claimed types l' = l.path := by
  have hlink : p.type.isReference = true → p.options.reference = some l.source →
      declaredLink l.target p = some ⟨l.target, p.name, l.source, p.options.inverse⟩ := fun hr href =>
    declaredLink_eq_some.2 ⟨hr, href, rfl, rfl, rfl⟩
  cases hinv : l.inverse with
  | some inverse =>
    have hclaimed : p.name = inverse := hname.trans (claimed_of_declared hinv)
    obtain ⟨q, hq⟩ : ∃ q, (types.targets l).find? (·.name = inverse) = some q :=
      Option.isSome_iff_exists.1 (List.find?_isSome.2 ⟨p, hp, by simpa using hclaimed⟩)
    have hqp : q = p := by
      have hqname := List.find?_some hq
      simp only [decide_eq_true_eq] at hqname
      exact targets_unique hn (List.mem_of_find?_eq_some hq) hp (hqname.trans hclaimed.symm)
    have hback := hanswers inverse hinv q hq
    rw [hqp] at hback
    simp only [pointsBack, Bool.and_eq_true, decide_eq_true_eq] at hback
    obtain ⟨⟨hr, href⟩, hall⟩ := hback
    refine ⟨_, hlink hr href, rfl, ?_⟩
    cases hpinv : p.options.inverse with
    | some inverse' =>
      rw [hpinv] at hall
      rw [claimed_of_declared rfl]
      simpa using hall
    | none => exact claimed_of_named_by hn hu hl rfl rfl (by rw [hinv, hclaimed]) rfl
  | none =>
    cases hfound : (types.targets l).find? (namesLink l) with
    | some back =>
      have hbackp : back = p :=
        targets_unique hn (List.mem_of_find?_eq_some hfound) hp ((claimed_of_named hinv hfound).symm.trans hname.symm)
      have hnames := List.find?_some hfound
      rw [hbackp] at hnames
      simp only [namesLink, Bool.and_eq_true, decide_eq_true_eq] at hnames
      exact ⟨_, hlink hnames.1.1 hnames.1.2, rfl, claimed_of_declared hnames.2⟩
    | none =>
      rw [claimed_of_unnamed hinv hfound] at hname
      exact absurd hname (hu.free l hl hinv (fun q hq => by simpa using List.find?_eq_none.1 hfound q hq) p hp)

/-- In the completed types, every link has its inverse at the target. -/
theorem exists_inverse (hn : types.Named) (hu : types.Unambiguous) (htargeted : types.Targeted) (hanswers : types.Answers l)
    (hl : l ∈ types.allLinks) :
    ∃ qs q, (l.target, qs) ∈ complete types ∧ q ∈ qs ∧ q.name = claimed types l ∧ q.type.isReference = true ∧
      q.options.reference = some l.source ∧ q.options.inverse = some l.path := by
  obtain ⟨x, hx, p, hp, hlink⟩ := FlatTypes.mem_allLinks.1 hl
  obtain ⟨hr, href, -⟩ := declaredLink_eq_some.1 hlink
  obtain ⟨target, ht, hsome⟩ := htargeted x hx p hp hr
  rw [href] at ht
  cases ht
  obtain ⟨ps, hps⟩ := Option.isSome_iff_exists.1 hsome
  have hmem := (FlatTypes.propsOf?_eq_some hn.names).1 hps
  have hcomplete : (l.target, ps.map (settle types l.target) ++ addedTo types l.target) ∈ complete types :=
    FlatTypes.mem_mapProps.2 ⟨ps, hmem, rfl⟩
  refine ⟨ps.map (settle types l.target) ++ addedTo types l.target, ?_⟩
  by_cases hfound : ∃ q ∈ types.targets l, q.name = claimed types l
  · obtain ⟨q, hq, hname⟩ := hfound
    obtain ⟨l', hlink', htarget', hclaimed'⟩ := exists_claimed_back hn hu hanswers hl hq hname
    obtain ⟨hqr, hqref, -, -, -⟩ := declaredLink_eq_some.1 hlink'
    refine ⟨settle types l.target q, hcomplete, List.mem_append_left _ (List.mem_map_of_mem ?_), ?_⟩
    · rwa [FlatTypes.targets, hps] at hq
    · rw [settle_of_link hlink', hclaimed']
      exact ⟨hname, hqr, hqref.trans (congrArg some htarget'), rfl⟩
  · refine ⟨inverseOf types l (claimed types l), hcomplete, List.mem_append_right _ ?_, name_inverseOf .., rfl, rfl, rfl⟩
    exact mem_addedTo.2 ⟨l, hl, rfl, fun q hq hname => hfound ⟨q, hq, hname⟩, rfl⟩

/-- The completed types are paired. -/
theorem complete_paired (hn : types.Named) (hu : types.Unambiguous) (htargeted : types.Targeted)
    (hanswers : ∀ l ∈ types.allLinks, types.Answers l) : (complete types).Paired := by
  intro type ps hps p hp hr
  obtain ⟨ps, hdeclared, rfl⟩ := FlatTypes.mem_mapProps.1 hps
  rcases List.mem_append.1 hp with hp | hp
  · obtain ⟨p, hmem, rfl⟩ := List.mem_map.1 hp
    have hkept := (settling_settle types).kept type p
    rw [hkept.2.1] at hr
    obtain ⟨target, href, -⟩ := htargeted (type, ps) hdeclared p hmem hr
    have hlink : declaredLink type p = some ⟨type, p.name, target, p.options.inverse⟩ :=
      declaredLink_eq_some.2 ⟨hr, href, rfl, rfl, rfl⟩
    have hl := FlatTypes.mem_allLinks.2 ⟨(type, ps), hdeclared, p, hmem, hlink⟩
    obtain ⟨qs, q, hqs, hq, hname, hqr, hqref, hqinv⟩ := exists_inverse hn hu htargeted (hanswers _ hl) hl
    rw [settle_of_link hlink]
    exact ⟨target, qs, q, href, congrArg some hname.symm, hqs, hq, hqr, hqref, hqinv⟩
  · obtain ⟨l, hl, rfl, -, rfl⟩ := mem_addedTo.1 hp
    obtain ⟨x, hx, q, hq, hlink⟩ := FlatTypes.mem_allLinks.1 hl
    obtain ⟨hqr, hqref, hsource, hpath, -⟩ := declaredLink_eq_some.1 hlink
    have hname : (settle types x.1 q).name = l.path := by
      rw [settle_of_link hlink]
      exact hpath
    refine ⟨l.source, x.2.map (settle types x.1) ++ addedTo types x.1, settle types x.1 q, rfl, congrArg some hname.symm, ?_,
      List.mem_append_left _ (List.mem_map_of_mem hq), ?_⟩
    · rw [← hsource]
      exact FlatTypes.mem_mapProps.2 ⟨x.2, hx, rfl⟩
    · rw [settle_of_link hlink]
      exact ⟨hqr, hqref, congrArg some (name_inverseOf ..).symm⟩

/-! ### Shared edges -/

theorem named_complete (hn : types.Named) (hu : types.Unambiguous) : (complete types).Named where
  names := by
    rw [complete, FlatTypes.names_mapProps]
    exact hn.names
  props := by
    rintro ⟨type, ps⟩ hx
    obtain ⟨qs, hqs, rfl⟩ := FlatTypes.mem_mapProps.1 hx
    have hsettled : (qs.map (settle types type)).map (·.name) = qs.map (·.name) := by
      rw [List.map_map]
      exact List.map_congr_left fun p _ => (settling_settle types).name type p
    rw [List.map_append, hsettled, List.nodup_append]
    refine ⟨hn.props _ hqs, List.pairwise_map.2 ?_, ?_⟩
    · have hclaims : (types.allLinks.filter (·.target = type)).Pairwise fun l l' => claimed types l ≠ claimed types l' :=
        ((nodup_allLinks hn).filter _).imp_of_mem fun hl hl' hne hclaimed => by
          rw [List.mem_filter, decide_eq_true_eq] at hl hl'
          exact hne (hu.single _ hl.1 _ hl'.1 (hl.2.trans hl'.2.symm) hclaimed)
      refine hclaims.filterMap _ fun l l' hne p hp q hq hname => hne ?_
      rw [(newInverse_eq_some.1 hp).2, (newInverse_eq_some.1 hq).2, name_inverseOf, name_inverseOf] at hname
      exact hname
    · intro name hname name' hname' heq
      obtain ⟨p, hp, rfl⟩ := List.mem_map.1 hname
      obtain ⟨q, hq, rfl⟩ := List.mem_map.1 hname'
      obtain ⟨l, -, htarget, hlacking, rfl⟩ := mem_addedTo.1 hq
      exact hlacking p (mem_targets hn hqs hp htarget) (heq.trans (name_inverseOf ..))

/-- The edges that are handed on, each to a property of a type. -/
def handed (types : FlatTypes) : List (String × String × List (String × PropDecl)) :=
  types.flatMap fun x => x.2.filterMap (handedEdges types)

/-- The edges of a property once they are shared; the last ones that are handed to it replace its own. -/
def sharedEdges (types : FlatTypes) (type : String) (p : FlatProp) : List (String × PropDecl) :=
  ((handed types).reverse.find? fun x => x.1 = type ∧ x.2.1 = p.name).elim p.edges (·.2.2)

/-- Sharing edges changes nothing else. -/
theorem shareEdges_eq (hn : types.Named) :
    shareEdges types = types.mapEach fun type p => { p with edges := sharedEdges types type p } := by
  have hfold : ∀ (xs : List (String × String × List (String × PropDecl))) (e : String → FlatProp → List (String × PropDecl)),
      xs.foldl (fun ts (x : String × String × List (String × PropDecl)) =>
          ts.modifyProp x.1 x.2.1 fun p => { p with edges := x.2.2 })
        (types.mapEach fun type p => { p with edges := e type p }) =
        types.mapEach fun type p =>
          { p with edges := (xs.reverse.find? fun x => x.1 = type ∧ x.2.1 = p.name).elim (e type p) (·.2.2) } := by
    intro xs
    induction xs with
    | nil => exact fun _ => rfl
    | cons x xs ih =>
      intro e
      have hstep : (types.mapEach fun type p => { p with edges := e type p }).modifyProp x.1 x.2.1
          (fun p => { p with edges := x.2.2 }) =
          types.mapEach fun type p => { p with edges := if type = x.1 ∧ p.name = x.2.1 then x.2.2 else e type p } := by
        have hnamed : (types.mapEach fun type p => { p with edges := e type p }).Named := hn.mapEach fun _ _ => rfl
        rw [FlatTypes.modifyProp_eq hnamed, FlatTypes.mapEach_mapEach]
        refine FlatTypes.mapEach_congr fun y _ p _ => ?_
        by_cases hat : y.1 = x.1 ∧ p.name = x.2.1
        · rw [if_pos hat]
          exact if_pos hat
        · rw [if_neg hat]
          exact if_neg hat
      rw [List.foldl_cons, hstep, ih]
      refine FlatTypes.mapEach_congr fun y _ p _ => ?_
      rw [List.reverse_cons, List.find?_append]
      cases xs.reverse.find? fun x => x.1 = y.1 ∧ x.2.1 = p.name with
      | some z => rfl
      | none => by_cases hat : y.1 = x.1 ∧ p.name = x.2.1 <;> simp [hat, @eq_comm _ x.1, @eq_comm _ x.2.1]
  have h := hfold (handed types) fun _ p => p.edges
  rwa [FlatTypes.mapEach_id] at h

theorem FlatTypes.Paired.shareEdges (h : types.Paired) (hn : types.Named) : (Schema.shareEdges types).Paired := by
  rw [shareEdges_eq hn]
  intro type ps hps p hp hr
  obtain ⟨ps, hmem, rfl⟩ := FlatTypes.mem_mapProps.1 hps
  obtain ⟨p, hpmem, rfl⟩ := List.mem_map.1 hp
  obtain ⟨target, qs, q, href, hinv, hqs, hq, hback⟩ := h type ps hmem p hpmem hr
  exact ⟨target, _, { q with edges := sharedEdges types target q }, href, hinv, FlatTypes.mem_mapProps.2 ⟨qs, hqs, rfl⟩,
    List.mem_map_of_mem hq, hback⟩

/-- Once inverses are resolved, references come in pairs. -/
theorem resolveInverses_paired (hn : types.Named) (hu : types.Unambiguous) {out : FlatTypes}
    (h : resolveInverses types = .ok out) : out.Paired := by
  obtain ⟨htargeted, hanswers, rfl⟩ := (resolveInverses_eq_ok hn hu).1 h
  exact (complete_paired hn hu htargeted hanswers).shareEdges (named_complete hn hu)

/-! ### Edges of a relation -/

/-- A type has a property. -/
def FlatTypes.Has (types : FlatTypes) (type : String) (p : FlatProp) : Prop := p ∈ (types.propsOf? type).getD []

/-- What links store is declared for references only. -/
def FlatTypes.OnLinks (types : FlatTypes) : Prop := ∀ type p, types.Has type p → p.edges.isEmpty = false → p.type.isReference = true

/-- Two references that are each other's inverses. -/
structure FlatTypes.Linked (types : FlatTypes) (type : String) (p : FlatProp) (target : String) (q : FlatProp) : Prop where
  here : types.Has type p
  there : types.Has target q
  types : p.type.isReference = true ∧ q.type.isReference = true
  targets : p.options.reference = some target ∧ q.options.reference = some type
  inverses : p.options.inverse = some q.name ∧ q.options.inverse = some p.name

theorem has_iff (hn : types.Named) : types.Has type p ↔ ∃ ps, (type, ps) ∈ types ∧ p ∈ ps := by
  constructor
  · intro hp
    exact of_mem_targets (l := ⟨type, "", type, none⟩) hn hp
  · rintro ⟨ps, hps, hp⟩
    unfold FlatTypes.Has
    rw [(FlatTypes.propsOf?_eq_some hn.names).2 hps]
    exact hp

namespace FlatTypes

theorem Has.unique (hn : types.Named) (hp : types.Has type p) (hq : types.Has type q) (hname : p.name = q.name) : p = q :=
  List.inj_on_of_nodup_map (hn.propsOf? type) hp hq hname

theorem Linked.symm (h : types.Linked type p target q) : types.Linked target q type p :=
  ⟨h.there, h.here, h.types.symm, h.targets.symm, h.inverses.symm⟩

/-- A reference has one inverse. -/
theorem Linked.unique (hn : types.Named) (h : types.Linked type p target q) {target' : String}
    (h' : types.Linked type p target' q') : target = target' ∧ q = q' := by
  have htarget := Option.some.inj (h.targets.1.symm.trans h'.targets.1)
  subst htarget
  exact ⟨rfl, h.there.unique hn h'.there (Option.some.inj (h.inverses.1.symm.trans h'.inverses.1))⟩

theorem Paired.linked (hn : types.Named) (h : types.Paired) (hp : types.Has type p) (hr : p.type.isReference = true) :
    ∃ target q, types.Linked type p target q := by
  obtain ⟨ps, hps, hmem⟩ := (has_iff hn).1 hp
  obtain ⟨target, qs, q, href, hinv, hqs, hq, hqr, hqref, hqinv⟩ := h type ps hps p hmem hr
  exact ⟨target, q, hp, (has_iff hn).2 ⟨qs, hqs, hq⟩, ⟨hr, hqr⟩, ⟨href, hqref⟩, ⟨hinv, hqinv⟩⟩

end FlatTypes

theorem handedEdges_eq_some {x : String × String × List (String × PropDecl)} : handedEdges types p = some x ↔
    p.options.reference = some x.1 ∧ p.options.inverse = some x.2.1 ∧ p.edges = x.2.2 ∧ p.edges.isEmpty = false ∧
      ∃ q, types.Has x.1 q ∧ q.name = x.2.1 ∧ q.edges.isEmpty = true := by
  obtain ⟨target, name, edges⟩ := x
  unfold handedEdges FlatTypes.Has
  cases href : p.options.reference with
  | none => simp
  | some t =>
    cases hinv : p.options.inverse with
    | none => simp
    | some i =>
      cases hedges : p.edges.isEmpty with
      | true => simp
      | false =>
        simp only [List.any_eq_true, Bool.and_eq_true, decide_eq_true_eq, Bool.false_eq_true, if_false, true_and,
          Option.some.injEq]
        split
        · rename_i hlacks
          constructor
          · intro h
            cases h
            exact ⟨rfl, rfl, rfl, hlacks⟩
          · rintro ⟨rfl, rfl, rfl, -⟩
            rfl
        · rename_i hlacks
          constructor
          · intro h
            cases h
          · rintro ⟨rfl, rfl, -, hfound⟩
            exact absurd hfound hlacks

theorem mem_handed (hn : types.Named) {x : String × String × List (String × PropDecl)} : x ∈ handed types ↔
    ∃ type p, types.Has type p ∧ p.options.reference = some x.1 ∧ p.options.inverse = some x.2.1 ∧ p.edges = x.2.2 ∧
      p.edges.isEmpty = false ∧ ∃ q, types.Has x.1 q ∧ q.name = x.2.1 ∧ q.edges.isEmpty = true := by
  simp only [handed, List.mem_flatMap, List.mem_filterMap, handedEdges_eq_some]
  constructor
  · rintro ⟨⟨type, ps⟩, hps, p, hp, h⟩
    exact ⟨type, p, (has_iff hn).2 ⟨ps, hps, hp⟩, h⟩
  · rintro ⟨type, p, hp, h⟩
    obtain ⟨ps, hps, hmem⟩ := (has_iff hn).1 hp
    exact ⟨(type, ps), hps, p, hmem, h⟩

/-- Only the inverse of a reference hands edges to it. -/
theorem linked_of_handed (hn : types.Named) (hpaired : types.Paired) (hlinks : types.OnLinks) (hp : types.Has type p)
    {edges : List (String × PropDecl)} (h : (type, p.name, edges) ∈ handed types) :
    p.edges.isEmpty = true ∧ ∃ target q, types.Linked type p target q ∧ q.edges = edges := by
  obtain ⟨source, giver, hgiver, href, hinv, rfl, hedges, r, hr, hname, hlacks⟩ := (mem_handed hn).1 h
  have hrp : r = p := hr.unique hn hp hname
  obtain ⟨target, q, hlinked⟩ := hpaired.linked hn hgiver (hlinks source giver hgiver hedges)
  have htarget := Option.some.inj (hlinked.targets.1.symm.trans href)
  subst htarget
  have hqp : q = p := hlinked.there.unique hn hp (Option.some.inj (hlinked.inverses.1.symm.trans hinv))
  exact ⟨hrp ▸ hlacks, source, giver, hqp ▸ hlinked.symm, rfl⟩

/-- What the links of a property store once edges are shared: it was handed, or it is its own. -/
theorem sharedEdges_cases (types : FlatTypes) (type : String) (p : FlatProp) :
    (type, p.name, sharedEdges types type p) ∈ handed types ∨
      sharedEdges types type p = p.edges ∧ ∀ edges, (type, p.name, edges) ∉ handed types := by
  unfold sharedEdges
  cases hfound : (handed types).reverse.find? fun x => x.1 = type ∧ x.2.1 = p.name with
  | none =>
    refine .inr ⟨rfl, fun edges hmem => ?_⟩
    have hnone := List.find?_eq_none.1 hfound _ (List.mem_reverse.2 hmem)
    simp at hnone
  | some x =>
    have hat := List.find?_some hfound
    rw [decide_eq_true_eq] at hat
    have hmem := List.mem_reverse.1 (List.mem_of_find?_eq_some hfound)
    rw [← hat.1, ← hat.2]
    exact .inl hmem

/-- A reference that declares no edges has those of its inverse. -/
theorem sharedEdges_link (hn : types.Named) (hpaired : types.Paired) (hlinks : types.OnLinks)
    (h : types.Linked type p target q) : sharedEdges types type p = if p.edges.isEmpty then q.edges else p.edges := by
  rcases sharedEdges_cases types type p with hhanded | ⟨hown, hnone⟩
  · obtain ⟨hempty, target', q', hlinked, hedges⟩ := linked_of_handed hn hpaired hlinks h.here hhanded
    rw [if_pos hempty, (h.unique hn hlinked).2, hedges]
  · rw [hown]
    split
    · rename_i hempty
      cases hq : q.edges.isEmpty with
      | true => rw [List.isEmpty_iff.1 hempty, List.isEmpty_iff.1 hq]
      | false =>
        exact absurd ((mem_handed hn).2 ⟨target, q, h.there, h.targets.2, h.inverses.2, rfl, hq, p, h.here, rfl, hempty⟩)
          (hnone q.edges)
    · rfl

/-- Values are handed nothing. -/
theorem sharedEdges_value (hn : types.Named) (hpaired : types.Paired) (hlinks : types.OnLinks) (hp : types.Has type p)
    (hv : p.type.isReference = false) : sharedEdges types type p = p.edges := by
  rcases sharedEdges_cases types type p with hhanded | ⟨hown, -⟩
  · obtain ⟨-, target, q, hlinked, -⟩ := linked_of_handed hn hpaired hlinks hp hhanded
    rw [hlinked.types.1] at hv
    cases hv
  · exact hown

theorem sharedEdges_isEmpty (hn : types.Named) (h : p.edges.isEmpty = false) : (sharedEdges types type p).isEmpty = false := by
  rcases sharedEdges_cases types type p with hhanded | ⟨hown, -⟩
  · obtain ⟨-, giver, -, -, -, hgiver, hedges, -⟩ := (mem_handed hn).1 hhanded
    rwa [hgiver] at hedges
  · rw [hown]
    exact h

/-! ### Both ends of a relation -/

/-- Of two properties of one type that are each other's inverses, one at most declares what their links store. -/
def FlatTypes.OneSided (types : FlatTypes) : Prop :=
  ∀ x ∈ types, ∀ p ∈ x.2, ∀ q ∈ x.2, ∀ l, declaredLink x.1 p = some l → l.target = x.1 → claimed types l = q.name →
    p.edges.isEmpty = false → q.edges.isEmpty = false → p.name = q.name

/-- Of two properties of one type that are each other's inverses, the links store the same. -/
def FlatTypes.Even (types : FlatTypes) : Prop := ∀ type p q, types.Linked type p type q → p.edges = q.edges

/-- The properties of completed types are declared or added ones. -/
theorem has_complete : (complete types).Has type p ↔
    (∃ q, types.Has type q ∧ p = settle types type q) ∨ (types.propsOf? type).isSome = true ∧ p ∈ addedTo types type := by
  unfold FlatTypes.Has complete
  rw [FlatTypes.propsOf?_mapProps]
  cases types.propsOf? type with
  | none => simp
  | some ps => simp [@eq_comm _ p]

theorem prop?_of_has (hn : types.Named) (hp : types.Has type p) : types.prop? type p.name = some p := by
  obtain ⟨ps, hps, hmem⟩ := (has_iff hn).1 hp
  obtain ⟨q, hq⟩ : ∃ q, ps.find? (·.name = p.name) = some q :=
    Option.isSome_iff_exists.1 (List.find?_isSome.2 ⟨p, hmem, by simp⟩)
  have hname := List.find?_some hq
  rw [decide_eq_true_eq] at hname
  rw [FlatTypes.prop?, (FlatTypes.propsOf?_eq_some hn.names).2 hps]
  exact hq.trans (congrArg some (hn.prop_unique hps (List.mem_of_find?_eq_some hq) hmem hname))

/-- The links of an added inverse store what those of the declared reference do. -/
theorem edges_of_added (hn : types.Named) (hp : types.Has target p) (hq : q ∈ addedTo types type)
    (href : q.options.reference = some target) (hinv : q.options.inverse = some p.name) : q.edges = p.edges := by
  obtain ⟨l, -, -, -, rfl⟩ := mem_addedTo.1 hq
  have hsource : l.source = target := Option.some.inj href
  have hpath : l.path = p.name := Option.some.inj hinv
  rw [inverseOf, hsource, hpath, prop?_of_has hn hp]
  rfl

/-- The ends of a relation within one type do not differ in what they declare. -/
theorem edges_complete (hn : types.Named) (ho : types.OneSided) (h : (complete types).Linked type p type q)
    (hp : p.edges.isEmpty = false) (hq : q.edges.isEmpty = false) : p.edges = q.edges := by
  have hkept := (settling_settle types).kept type
  have hname := (settling_settle types).name type
  rcases has_complete.1 h.here with ⟨p, hp₀, rfl⟩ | ⟨-, hadded⟩ <;>
    rcases has_complete.1 h.there with ⟨q, hq₀, rfl⟩ | ⟨-, hadded'⟩
  · obtain ⟨ps, hps, hpmem⟩ := (has_iff hn).1 hp₀
    obtain ⟨qs, hqs, hqmem⟩ := (has_iff hn).1 hq₀
    have hpsqs : (type, ps) = (type, qs) := List.inj_on_of_nodup_map hn.names hps hqs rfl
    cases hpsqs
    have hlink : declaredLink type p = some ⟨type, p.name, type, p.options.inverse⟩ :=
      declaredLink_eq_some.2 ⟨(hkept p).2.1 ▸ h.types.1, (hkept p).2.2.2 ▸ h.targets.1, rfl, rfl, rfl⟩
    have hclaimed := h.inverses.1
    rw [settle_of_link hlink, hname] at hclaimed
    rw [(hkept p).2.2.1] at hp ⊢
    rw [(hkept q).2.2.1] at hq ⊢
    rw [hp₀.unique hn hq₀ (ho _ hps p hpmem q hqmem _ hlink rfl (Option.some.inj hclaimed) hp hq)]
  · rw [edges_of_added hn hp₀ hadded' h.targets.2 ((h.inverses.2).trans (congrArg some (hname p))), (hkept p).2.2.1]
  · rw [edges_of_added hn hq₀ hadded h.targets.1 ((h.inverses.1).trans (congrArg some (hname q))), (hkept q).2.2.1]
  · -- An added inverse leads to a declared reference, whose name another added one cannot have.
    obtain ⟨l, hl, -, -, rfl⟩ := mem_addedTo.1 hadded
    obtain ⟨l', -, htarget', hlacking', rfl⟩ := mem_addedTo.1 hadded'
    obtain ⟨x, hx, r, hr, hlink⟩ := FlatTypes.mem_allLinks.1 hl
    obtain ⟨-, -, hsource, hpath, -⟩ := declaredLink_eq_some.1 hlink
    have hsame : l.source = type := Option.some.inj h.targets.1
    have hclaimed : l.path = claimed types l' := (Option.some.inj h.inverses.1).trans (name_inverseOf ..)
    exact absurd (hpath.trans hclaimed) (hlacking' r (mem_targets hn hx hr (htarget'.trans (hsame.symm.trans hsource.symm))))

theorem has_shareEdges (hn : types.Named) :
    (shareEdges types).Has type p ↔ ∃ q, types.Has type q ∧ p = { q with edges := sharedEdges types type q } := by
  unfold FlatTypes.Has
  rw [shareEdges_eq hn, FlatTypes.mapEach, FlatTypes.propsOf?_mapProps]
  cases types.propsOf? type with
  | none => simp
  | some ps => simp [@eq_comm _ p]

theorem shareEdges_even (hn : types.Named) (hpaired : types.Paired) (hlinks : types.OnLinks)
    (heven : ∀ {type p q}, types.Linked type p type q → p.edges.isEmpty = false → q.edges.isEmpty = false → p.edges = q.edges) :
    (shareEdges types).Even := by
  intro type p q h
  obtain ⟨p, hp, rfl⟩ := (has_shareEdges hn).1 h.here
  obtain ⟨q, hq, rfl⟩ := (has_shareEdges hn).1 h.there
  have hlinked : types.Linked type p type q := ⟨hp, hq, h.types, h.targets, h.inverses⟩
  change sharedEdges types type p = sharedEdges types type q
  rw [sharedEdges_link hn hpaired hlinks hlinked, sharedEdges_link hn hpaired hlinks hlinked.symm]
  cases hpe : p.edges.isEmpty with
  | true =>
    cases hqe : q.edges.isEmpty with
    | true => simp [List.isEmpty_iff.1 hpe, List.isEmpty_iff.1 hqe]
    | false => simp
  | false =>
    cases hqe : q.edges.isEmpty with
    | true => simp
    | false => simpa using heven hlinked hpe hqe

theorem onLinks_of_shareEdges (hn : types.Named) (h : (shareEdges types).OnLinks) : types.OnLinks := fun type p hp hedges =>
  h type { p with edges := sharedEdges types type p } ((has_shareEdges hn).2 ⟨p, hp, rfl⟩) (sharedEdges_isEmpty hn hedges)

/-- Both ends of a relation within one type have the same edges once inverses are resolved. -/
theorem resolveInverses_even (hn : types.Named) (hu : types.Unambiguous) (ho : types.OneSided) {out : FlatTypes}
    (hout : resolveInverses types = .ok out) (hlinks : out.OnLinks) : out.Even := by
  obtain ⟨htargeted, hanswers, rfl⟩ := (resolveInverses_eq_ok hn hu).1 hout
  have hcomplete := named_complete hn hu
  exact shareEdges_even hcomplete (complete_paired hn hu htargeted hanswers) (onLinks_of_shareEdges hcomplete hlinks)
    fun h hp hq => edges_complete hn ho h hp hq

end NodeStore.Schema
