import NodeStore.Proofs.Schema.InverseOrder
import NodeStore.Proofs.Schema.Reciprocity

/-!
# Layouts in another order

The order of types, of properties and of what links store moves nothing: a schema is compiled to the same layouts, as long as
no two references claim the same inverse and no relation within one type declares edges at both of its ends.

* `mapM_reordered`: a run over a list in another order, if its steps commute.
* `Recalls.comm`: looking up two relations in the other order.
* `layoutOf_perm`: properties are placed by their names.
* `SchemaDecl.OneSided`, `compile_reordered`: schemas in another order.
-/

namespace NodeStore

/-! ### Runs in another order -/

section

variable {ε σ α β : Type} {R : α → α → Prop} {Sim : σ → σ → Prop} {f : α → StateT σ (Except ε) β} {xs ys : List α}
  {bs : List β} {s s' t : σ}

theorem mapM_congr (hcongr : ∀ {x y s s' b t}, R x y → Sim s s' → f x s = .ok (b, t) → ∃ t', f y s' = .ok (b, t') ∧ Sim t t')
    (h : List.Forall₂ R xs ys) (hs : Sim s s') (hrun : xs.mapM f s = .ok (bs, t)) :
    ∃ t', ys.mapM f s' = .ok (bs, t') ∧ Sim t t' := by
  induction h generalizing s s' bs with
  | nil =>
    cases hrun
    exact ⟨s', rfl, hs⟩
  | cons hxy _ ih =>
    obtain ⟨b, u, cs, hx, hxs, rfl⟩ := mapM_cons_eq_ok.1 hrun
    obtain ⟨u', hy, hu⟩ := hcongr hxy hs hx
    obtain ⟨t', hys, ht⟩ := ih hu hxs
    exact ⟨t', mapM_cons_eq_ok.2 ⟨b, u', cs, hy, hys, rfl⟩, ht⟩

/-- Steps that commute can be taken in any order. -/
theorem mapM_perm (hrefl : ∀ s, Sim s s) (htrans : ∀ {s t u}, Sim s t → Sim t u → Sim s u)
    (hcongr : ∀ {x s s' b t}, Sim s s' → f x s = .ok (b, t) → ∃ t', f x s' = .ok (b, t') ∧ Sim t t')
    (hcomm : ∀ x ∈ xs, ∀ y ∈ xs, ∀ {s b t c u}, f x s = .ok (b, t) → f y t = .ok (c, u) →
      ∃ t' u', f y s = .ok (c, t') ∧ f x t' = .ok (b, u') ∧ Sim u u')
    (h : xs.Perm ys) (hs : Sim s s') (hrun : xs.mapM f s = .ok (bs, t)) :
    ∃ bs' t', ys.mapM f s' = .ok (bs', t') ∧ bs.Perm bs' ∧ Sim t t' := by
  have hsame : ∀ {zs : List α} {bs : List β} {s s' t : σ}, Sim s s' → zs.mapM f s = .ok (bs, t) →
      ∃ t', zs.mapM f s' = .ok (bs, t') ∧ Sim t t' :=
    mapM_congr (R := (· = ·)) (fun hxy => hxy ▸ hcongr) (List.forall₂_refl _)
  induction h generalizing s s' bs t with
  | nil =>
    cases hrun
    exact ⟨[], s', rfl, .nil, hs⟩
  | cons x _ ih =>
    obtain ⟨b, u, cs, hx, hxs, rfl⟩ := mapM_cons_eq_ok.1 hrun
    obtain ⟨u', hx', hu⟩ := hcongr hs hx
    obtain ⟨cs', t', hys, hperm, ht⟩ :=
      ih (fun x hx y hy => hcomm x (List.mem_cons_of_mem _ hx) y (List.mem_cons_of_mem _ hy)) hu hxs
    exact ⟨b :: cs', t', mapM_cons_eq_ok.2 ⟨b, u', cs', hx', hys, rfl⟩, hperm.cons b, ht⟩
  | swap x y zs =>
    obtain ⟨t', hrun', ht⟩ := hsame hs hrun
    obtain ⟨c, u, _, hy, hrest, rfl⟩ := mapM_cons_eq_ok.1 hrun'
    obtain ⟨b, v, cs, hx, hzs, rfl⟩ := mapM_cons_eq_ok.1 hrest
    obtain ⟨u', v', hx', hy', hv⟩ := hcomm y List.mem_cons_self x (List.mem_cons_of_mem _ List.mem_cons_self) hy hx
    obtain ⟨t'', hzs', ht'⟩ := hsame hv hzs
    exact ⟨b :: c :: cs, t'', mapM_cons_eq_ok.2 ⟨b, u', _, hx', mapM_cons_eq_ok.2 ⟨c, v', cs, hy', hzs', rfl⟩, rfl⟩,
      .swap b c cs, htrans ht ht'⟩
  | trans h _ ih ih' =>
    obtain ⟨cs, u, hmid, hperm, hu⟩ := ih hcomm hs hrun
    obtain ⟨cs', u', hend, hperm', hu'⟩ :=
      ih' (fun x hx y hy => hcomm x (h.symm.subset hx) y (h.symm.subset hy)) (hrefl s') hmid
    exact ⟨cs', u', hend, hperm.trans hperm', htrans hu hu'⟩

/-- A run over a list in another order, if the steps for counterparts are the same and steps commute. -/
theorem mapM_reordered (hrefl : ∀ s, Sim s s) (htrans : ∀ {s t u}, Sim s t → Sim t u → Sim s u) (hR : ∀ x, R x x)
    (hcongr : ∀ {x y s s' b t}, R x y → Sim s s' → f x s = .ok (b, t) → ∃ t', f y s' = .ok (b, t') ∧ Sim t t')
    (hcomm : ∀ x ∈ xs, ∀ y ∈ xs, ∀ {s b t c u}, f x s = .ok (b, t) → f y t = .ok (c, u) →
      ∃ t' u', f y s = .ok (c, t') ∧ f x t' = .ok (b, u') ∧ Sim u u')
    (h : Reorders R xs ys) (hs : Sim s s') (hrun : xs.mapM f s = .ok (bs, t)) :
    ∃ bs' t', ys.mapM f s' = .ok (bs', t') ∧ bs.Perm bs' ∧ Sim t t' := by
  obtain ⟨zs, hperm, hall⟩ := h
  obtain ⟨bs', u, hzs, hbs, hu⟩ := mapM_perm (f := f) hrefl htrans (fun hs hx => hcongr (hR _) hs hx) hcomm hperm hs hrun
  obtain ⟨u', hys, hu'⟩ := mapM_congr hcongr hall (hrefl s') hzs
  exact ⟨bs', u', hys, hbs, htrans hu hu'⟩

end

namespace Schema

/-! ### Properties -/

section

variable {E : Type} {c : Context} {inverses : Bool} {edgesOf : EdgeCompiler E} {type : String} {p q : FlatProp}
  {s s' t : EdgeCache} {d : PropDef E}

/-- What is compiled depends on the edges through their layout only. -/
theorem compileProp_congr {P : EdgeCache → Prop} (h : p.Alike q) (hd : compileProp c inverses edgesOf type p s = .ok (d, t))
    (hedges : ∀ {target edges}, compileEdges edgesOf type p target s = .ok (edges, t) →
      ∃ t', compileEdges edgesOf type q target s' = .ok (edges, t') ∧ P t') :
    ∃ t', compileProp c inverses edgesOf type q s' = .ok (d, t') ∧ P t' := by
  obtain ⟨size, target, edges, hsize, hcheck, htarget, he, rfl, hdefault⟩ := compileProp_eq_ok.1 hd
  obtain ⟨t', he', ht'⟩ := hedges he
  have hmeasure : measure type q = measure type p := by
    unfold measure
    rw [h.type, h.options, h.name]
  have hchecked : checkProp type q = checkProp type p := by
    unfold checkProp
    rw [h.type, h.options, h.name, h.edges.isEmpty]
  have hresolved : resolveTarget c inverses type q = resolveTarget c inverses type p := by
    unfold resolveTarget
    rw [h.type, h.options, h.name]
  have hunplaced : unplaced c q size.1 size.2 target edges = unplaced c p size.1 size.2 target edges := by
    unfold unplaced
    rw [h.path, h.type, h.options, h.name]
  exact ⟨t', compileProp_eq_ok.2 ⟨size, target, edges, hmeasure.trans hsize, hchecked.trans hcheck, hresolved.trans htarget,
    he', hunplaced.symm, hdefault⟩, ht'⟩

end

/-! ### Layouts of links -/

section

variable {c : Context} {key key' : RelationKey} {edges edges' : List (String × PropDecl)} {e e' : EdgeLayout}
  {s s' t u : EdgeCache}

/-- The same layouts are found. -/
def EdgeCache.Agrees (s s' : EdgeCache) : Prop := ∀ key, s.layout? key = s'.layout? key

theorem EdgeCache.Agrees.refl (s : EdgeCache) : s.Agrees s := fun _ => rfl

theorem EdgeCache.Agrees.trans (h : s.Agrees t) (h' : t.Agrees u) : s.Agrees u := fun key => (h key).trans (h' key)

/-- Two relations can be looked up in any order. -/
theorem Recalls.comm (hsame : key = key' → edges = edges') (h : Recalls c key edges s e t) (h' : Recalls c key' edges' t e' u) :
    ∃ t' u', Recalls c key' edges' s e' t' ∧ Recalls c key edges t' e u' ∧ u.Agrees u' := by
  rcases h with ⟨hfound, rfl⟩ | ⟨hnone, hmade, rfl⟩
  · rcases h' with ⟨hfound', rfl⟩ | ⟨hnone', hmade', rfl⟩
    · exact ⟨u, u, .inl ⟨hfound', rfl⟩, .inl ⟨hfound, rfl⟩, .refl u⟩
    · refine ⟨_, _, .inr ⟨hnone', hmade', rfl⟩, .inl ⟨?_, rfl⟩, .refl _⟩
      rw [layout?_append, hfound, Option.some_or]
  · rcases h' with ⟨hfound', rfl⟩ | ⟨hnone', hmade', rfl⟩
    · rw [layout?_append] at hfound'
      cases hs : s.layout? key' with
      | some f =>
        rw [hs, Option.some_or] at hfound'
        cases hfound'
        exact ⟨s, _, .inl ⟨hs, rfl⟩, .inr ⟨hnone, hmade, rfl⟩, .refl _⟩
      | none =>
        -- It is the same relation, whose layout is made by whoever comes first.
        rw [hs, Option.none_or] at hfound'
        split at hfound'
        · rename_i hkey
          subst hkey
          cases hfound'
          refine ⟨_, _, .inr ⟨hs, hsame rfl ▸ hmade, rfl⟩, .inl ⟨?_, rfl⟩, .refl _⟩
          rw [layout?_append, hs, if_pos rfl, Option.none_or]
        · cases hfound'
    · rw [layout?_append] at hnone'
      obtain ⟨hs, hne⟩ := Option.or_eq_none_iff.1 hnone'
      have hkey : key ≠ key' := fun heq => by simp [heq] at hne
      refine ⟨_, _, .inr ⟨hs, hmade', rfl⟩, .inr ⟨?_, hmade, rfl⟩, fun k => ?_⟩
      · rw [layout?_append, hnone, if_neg hkey.symm, Option.none_or]
      · rw [layout?_append, layout?_append, layout?_append, layout?_append]
        by_cases hk : key = k
        · subst hk
          simp [hkey.symm]
        · simp [hk]

end

/-! ### Placing -/

section

variable {E : Type} {type : String} {ps qs : List FlatProp} {defs defs' : List (PropDef E)} {t : Layout E}

/-- An order that tells names apart sorts properties in one way only. -/
theorem mergeSort_eq_of_perm {le : PropDef E → PropDef E → Bool} (htrans : ∀ a b d, le a b = true → le b d = true → le a d = true)
    (htotal : ∀ a b, (le a b || le b a) = true) (hname : ∀ a b, le a b = true → le b a = true → a.name = b.name)
    (hn : (defs.map (·.name)).Nodup) (hperm : defs.Perm defs') : defs.mergeSort le = defs'.mergeSort le := by
  have hsorted := ((List.mergeSort_perm defs le).trans hperm).trans (List.mergeSort_perm defs' le).symm
  refine hsorted.eq_of_pairwise (fun a b ha hb hab hba => ?_) (List.pairwise_mergeSort htrans htotal _)
    (List.pairwise_mergeSort htrans htotal _)
  exact List.inj_on_of_nodup_map hn (List.mem_mergeSort.1 ha) (hperm.symm.subset (List.mem_mergeSort.1 hb)) (hname a b hab hba)

/-- The order of properties with different names does not change their places. -/
theorem layoutOf_perm {priority : Priority} {name : String} {id : TypeId} (hn : (defs.map (·.name)).Nodup)
    (hperm : defs.Perm defs') (h : layoutOf priority name id defs = .ok t) : layoutOf priority name id defs' = .ok t := by
  have hsome : ∀ test : PropDef E → Bool, ((defs.filter test).map (·.name)).Nodup := fun test =>
    (List.filter_sublist.map _).nodup hn
  have hmain : mainOf defs' = mainOf defs := by
    refine (mergeSort_eq_of_perm mainOrder_trans mainOrder_total (fun a b hab hba => ?_) (hsome _) (hperm.filter _)).symm
    simp only [mainOrder, Bool.or_eq_true, Bool.and_eq_true, decide_eq_true_eq] at hab hba
    exact Std.le_antisymm (hab.resolve_left (by omega)).2 (hba.resolve_left (by omega)).2
  have hseparate : separateOf priority defs' = separateOf priority defs := by
    refine (mergeSort_eq_of_perm (separateOrder_trans priority) (separateOrder_total priority) (fun a b hab hba => ?_)
      (hsome _) (hperm.filter _)).symm
    simp only [separateOrder, Bool.or_eq_true, Bool.and_eq_true, decide_eq_true_eq] at hab hba
    exact Std.le_antisymm (hab.resolve_left (by omega)).2 (hba.resolve_left (by omega)).2
  rw [layoutOf_eq_ok, placeAll] at h ⊢
  rwa [hmain, hseparate]

theorem checkPaths_reordered (hsame : AlikeProps ps qs) (h : checkPaths type ps = .ok ()) : checkPaths type qs = .ok () := by
  have hperm : (ps.map (·.path)).Perm (qs.map (·.path)) := hsame.map_perm fun _ _ h => h.path
  refine forM_eq_ok.2 fun q hq => ?_
  obtain ⟨p, hp, hpq⟩ := hsame.exists_left hq
  have hp := forM_eq_ok.1 h p hp
  have hcount : qs.countP (fun r => overlap q.path r.path) = ps.countP fun r => overlap p.path r.path := by
    rw [hpq.path]
    have h := hperm.countP_eq (overlap q.path)
    rw [List.countP_map, List.countP_map] at h
    exact h.symm
  rw [hcount]
  split at hp
  · cases hp
  · rename_i hle
    rw [if_neg hle]

end

/-! ### Links in another order -/

section

variable {c : Context} {key : RelationKey} {edges edges' : List (String × PropDecl)} {e : EdgeLayout} {type : String}
  {p q : FlatProp} {s s' t t' u : EdgeCache} {d d' : PropDef EdgeLayout} {target target' : Option RefTarget}
  {found found' : Option EdgeLayout}

theorem Made.reordered (h : PropDecl.ReorderedAll edges edges') (hm : Made c key edges e) : Made c key edges' e := by
  obtain ⟨flat, defs, hflat, hpaths, hdefs, hl⟩ := hm
  obtain ⟨flat', hflat', hsame⟩ := flattenAll_reordered h hflat
  obtain ⟨defs', hdefs', hperm⟩ := hsame.exists_forall₂ (fun {p q d} hpq hd => by
    obtain ⟨t, ht, rfl⟩ := compileProp_congr (P := (· = [])) hpq hd fun he => by
      obtain ⟨-, hempty, rfl⟩ := compileEdges_noEdges_eq_ok.1 he
      exact ⟨[], compileEdges_noEdges_eq_ok.2 ⟨rfl, hpq.edges.isEmpty ▸ hempty, rfl⟩, rfl⟩
    exact ht) hdefs
  have hnames : defs.map (·.name) = flat.map (·.name) := by
    rw [← List.forall₂_eq_eq_eq, List.forall₂_map_left_iff, List.forall₂_map_right_iff]
    exact hdefs.flip.imp fun d p hd => congrArg (·.2.1) (compileProp_name hd)
  have hnodup : (defs.map (·.name)).Nodup :=
    hnames ▸ checkPaths_names (flattenAll_plain (fun _ h => absurd h List.not_mem_nil) _ _ hflat) hpaths
  exact ⟨flat', defs', hflat', checkPaths_reordered hsame hpaths, hdefs', layoutOf_perm hnodup hperm hl⟩

theorem Recalls.congr (h : PropDecl.ReorderedAll edges edges') (hs : s.Agrees s') (hr : Recalls c key edges s e t) :
    ∃ t', Recalls c key edges' s' e t' ∧ t.Agrees t' := by
  rcases hr with ⟨hfound, rfl⟩ | ⟨hnone, hmade, rfl⟩
  · exact ⟨s', .inl ⟨(hs key).symm.trans hfound, rfl⟩, hs⟩
  · refine ⟨_, .inr ⟨(hs key).symm.trans hnone, hmade.reordered h, rfl⟩, fun k => ?_⟩
    rw [layout?_append, layout?_append, hs k]

theorem compileEdges_congr (h : p.Alike q) (hs : s.Agrees s') (hp : compileEdges (edgeLayout c) type p target s = .ok (found, t)) :
    ∃ t', compileEdges (edgeLayout c) type q target s' = .ok (found, t') ∧ t.Agrees t' := by
  rcases compileEdges_eq_ok.1 hp with ⟨hempty, rfl, rfl⟩ | ⟨hsome, e, rfl, he⟩
  · exact ⟨s', compileEdges_eq_ok.2 (.inl ⟨h.edges.isEmpty ▸ hempty, rfl, rfl⟩), hs⟩
  · obtain ⟨t', ht', hagrees⟩ := (edgeLayout_eq_ok.1 he).congr h.edges hs
    refine ⟨t', compileEdges_eq_ok.2 (.inr ⟨h.edges.isEmpty ▸ hsome, e, rfl, ?_⟩), hagrees⟩
    rw [← h.name]
    exact edgeLayout_eq_ok.2 ht'

theorem compileEdges_comm (hsame : p.edges.isEmpty = false → q.edges.isEmpty = false →
      relationKey type p.name target = relationKey type q.name target' → p.edges = q.edges)
    (hp : compileEdges (edgeLayout c) type p target s = .ok (found, t))
    (hq : compileEdges (edgeLayout c) type q target' t = .ok (found', u)) :
    ∃ t' u', compileEdges (edgeLayout c) type q target' s = .ok (found', t') ∧
      compileEdges (edgeLayout c) type p target t' = .ok (found, u') ∧ u.Agrees u' := by
  rcases compileEdges_eq_ok.1 hp with ⟨hempty, rfl, rfl⟩ | ⟨hsome, e, rfl, he⟩
  · exact ⟨u, u, hq, compileEdges_eq_ok.2 (.inl ⟨hempty, rfl, rfl⟩), .refl u⟩
  · rcases compileEdges_eq_ok.1 hq with ⟨hempty, rfl, rfl⟩ | ⟨hsome', e', rfl, he'⟩
    · exact ⟨s, u, compileEdges_eq_ok.2 (.inl ⟨hempty, rfl, rfl⟩), hp, .refl u⟩
    · obtain ⟨t', u', ht', hu', hagrees⟩ := (edgeLayout_eq_ok.1 he).comm (hsame hsome hsome') (edgeLayout_eq_ok.1 he')
      exact ⟨t', u', compileEdges_eq_ok.2 (.inr ⟨hsome', e', rfl, edgeLayout_eq_ok.2 ht'⟩),
        compileEdges_eq_ok.2 (.inr ⟨hsome, e, rfl, edgeLayout_eq_ok.2 hu'⟩), hagrees⟩

/-! ### Types in another order -/

/-- Properties of one type whose links have the same layout declare the same for them. -/
def KeysAgree (c : Context) (type : String) (ps : List FlatProp) : Prop :=
  ∀ p ∈ ps, ∀ q ∈ ps, ∀ target target', p.edges.isEmpty = false → q.edges.isEmpty = false →
    resolveTarget c true type p = .ok target → resolveTarget c true type q = .ok target' →
      relationKey type p.name target = relationKey type q.name target' → p.edges = q.edges

theorem typeLayout_reordered {id : TypeId} {ps qs : List FlatProp} {l : TypeLayout} (hsame : AlikeProps ps qs)
    (hn : (ps.map (·.name)).Nodup) (hkeys : KeysAgree c type ps) (hs : s.Agrees s')
    (h : typeLayout c type id ps s = .ok (l, t)) : ∃ t', typeLayout c type id qs s' = .ok (l, t') ∧ t.Agrees t' := by
  obtain ⟨hpaths, defs, hdefs, hl⟩ := typeLayout_eq_ok.1 h
  obtain ⟨defs', t', hdefs', hperm, ht'⟩ := mapM_reordered EdgeCache.Agrees.refl EdgeCache.Agrees.trans FlatProp.Alike.refl
    (fun hpq hs hp => compileProp_congr hpq hp fun he => compileEdges_congr hpq hs he)
    (fun p hp q hq s d t d' u hd hd' => by
      obtain ⟨size, target, edges, hsize, hcheck, htarget, he, rfl, hdefault⟩ := compileProp_eq_ok.1 hd
      obtain ⟨size', target', edges', hsize', hcheck', htarget', he', rfl, hdefault'⟩ := compileProp_eq_ok.1 hd'
      obtain ⟨t', u', ht', hu', hagrees⟩ :=
        compileEdges_comm (fun hpe hqe => hkeys p hp q hq target target' hpe hqe htarget htarget') he he'
      exact ⟨t', u', compileProp_eq_ok.2 ⟨size', target', edges', hsize', hcheck', htarget', ht', rfl, hdefault'⟩,
        compileProp_eq_ok.2 ⟨size, target, edges, hsize, hcheck, htarget, hu', rfl, hdefault⟩, hagrees⟩)
    hsame hs hdefs
  have hnames : defs.map (·.name) = ps.map (·.name) :=
    mapM_map hdefs fun _ _ _ _ hx => congrArg (·.2.1) (compileProp_name hx)
  exact ⟨t', typeLayout_eq_ok.2 ⟨checkPaths_reordered hsame hpaths, defs', hdefs', layoutOf_perm (hnames ▸ hn) hperm hl⟩, ht'⟩

/-- The same types are compiled to the same layouts. -/
theorem typeLayouts_reordered {id : Nat} {types types' : FlatTypes} {ls : List TypeLayout} (halike : types.Alike types')
    (hn : types.Named) (hkeys : ∀ x ∈ types, KeysAgree c x.1 x.2) (hs : s.Agrees s')
    (h : typeLayouts c id types s = .ok (ls, t)) : ∃ t', typeLayouts c id types' s' = .ok (ls, t') := by
  have hprops := hn.props
  clear hn
  unfold FlatTypes.Alike at halike
  induction halike generalizing id s s' ls with
  | nil =>
    cases h
    exact ⟨s', rfl⟩
  | @cons x y xs ys hxy _ ih =>
    obtain ⟨l, u, ls', hl, hrest, rfl⟩ := typeLayouts_cons_eq_ok.1 h
    obtain ⟨v, hv, hagrees⟩ := typeLayout_reordered hxy.2 (hprops x List.mem_cons_self) (hkeys x List.mem_cons_self) hs hl
    obtain ⟨v', hv'⟩ := ih (fun z hz => hkeys z (List.mem_cons_of_mem _ hz)) hagrees hrest
      fun z hz => hprops z (List.mem_cons_of_mem _ hz)
    rw [hxy.1] at hv
    exact ⟨v', typeLayouts_cons_eq_ok.2 ⟨l, v, ls', hv, hv', rfl⟩⟩

/-- Two properties with the same key are the same, or each other's inverses. -/
theorem eq_or_of_relationKey {type' path path' : String} {r r' : RefTarget}
    (h : relationKey type path (some r) = relationKey type' path' (some r')) :
    type = type' ∧ path = path' ∨ r.type = type' ∧ r.inverse.getD "" = path' := by
  unfold relationKey at h
  simp only at h
  split at h <;> split at h <;> simp only [Prod.mk.injEq] at h
  · exact .inl h.1
  · exact .inr h.2
  · exact .inr h.1
  · exact .inl h.2

theorem keysAgree_of_even {types : FlatTypes} (hn : types.Named) (hpaired : types.Paired) (hlinks : types.OnLinks)
    (heven : types.Even) {ps : List FlatProp} (hps : (type, ps) ∈ types) : KeysAgree c type ps := by
  intro p hp q hq target target' hpe hqe htarget htarget' hkey
  have hp := (has_iff hn).2 ⟨ps, hps, hp⟩
  have hq := (has_iff hn).2 ⟨ps, hps, hq⟩
  obtain ⟨r, rfl, href, hinv⟩ := resolveTarget_reference (hlinks type p hp hpe) htarget
  obtain ⟨r', rfl, -, -⟩ := resolveTarget_reference (hlinks type q hq hqe) htarget'
  rcases eq_or_of_relationKey hkey with ⟨-, hname⟩ | ⟨htype, hname⟩
  · rw [hp.unique hn hq hname]
  · obtain ⟨target, q', hlinked⟩ := hpaired.linked hn hp (hlinks type p hp hpe)
    have hself : target = type := Option.some.inj (hlinked.targets.1.symm.trans (href.trans (congrArg some htype)))
    subst hself
    have hqq' : q' = q := by
      refine hlinked.there.unique hn hq ?_
      rw [hinv, hlinked.inverses.1] at hname
      exact hname
    exact heven _ p q (hqq' ▸ hlinked)

theorem typeLayouts_links {id : Nat} {types : FlatTypes} {ls : List TypeLayout} (h : typeLayouts c id types s = .ok (ls, t)) :
    ∀ x ∈ types, ∀ p ∈ x.2, p.edges.isEmpty = false → p.type.isReference = true := by
  induction types generalizing id s ls with
  | nil => exact fun _ hx => absurd hx List.not_mem_nil
  | cons x types ih =>
    obtain ⟨l, u, ls', hl, hrest, rfl⟩ := typeLayouts_cons_eq_ok.1 h
    refine List.forall_mem_cons.2 ⟨fun p hp hedges => ?_, ih hrest⟩
    obtain ⟨-, defs, hdefs, -⟩ := typeLayout_eq_ok.1 hl
    obtain ⟨_, d, _, hd⟩ := mapM_step hdefs p hp
    obtain ⟨_, _, _, -, hcheck, -⟩ := compileProp_eq_ok.1 hd
    exact checkProp_edges hcheck hedges

end

end Schema

open Schema (FlatTypes)

/-- No relation within one type declares what its links store at both of its ends. -/
def SchemaDecl.OneSided (decl : SchemaDecl) : Prop :=
  ∀ types, Schema.flattenTypes ∅ decl.types = .ok types → (Schema.sortTypes types).OneSided

namespace SchemaDecl.Reordered

variable {decl decl' : SchemaDecl} {priority : Priority} {schema : SchemaLayout} {types : FlatTypes}

theorem symm (h : decl.Reordered decl') : decl'.Reordered decl where
  locales := h.locales.symm
  types := h.types.symm fun _ _ h => ⟨h.1.symm, h.2.symm⟩

theorem alike (h : decl.Reordered decl') (hflat : Schema.flattenTypes ∅ decl.types = .ok types) :
    ∃ types', Schema.flattenTypes ∅ decl'.types = .ok types' ∧ (Schema.sortTypes types).Alike (Schema.sortTypes types') := by
  obtain ⟨types', hflat', hsame⟩ := Schema.flattenTypes_reordered h.types hflat
  exact ⟨types', hflat', Schema.sortTypes_reordered (Schema.names_flattenTypes hflat) hsame⟩

end SchemaDecl.Reordered

section

variable {decl decl' : SchemaDecl} {priority : Priority} {schema : SchemaLayout} {types : FlatTypes}

/-- The properties of a type that compiles have different names. -/
theorem named_of_compile (h : decl.compile priority = .ok schema) (hflat : Schema.flattenTypes ∅ decl.types = .ok types) :
    (Schema.sortTypes types).Named := by
  obtain ⟨locales, flat, resolved, ls, cache, -, -, hflat', hresolved, htypes, -⟩ := SchemaDecl.compile_eq_ok.1 h
  cases hflat.symm.trans hflat'
  exact (Schema.resolveInverses_extends hresolved).named (Schema.named_resolved hflat hresolved htypes)

theorem compile_of_reordered (h : decl.Reordered decl') (hu : decl.Unambiguous) (ho : decl.OneSided)
    (hok : decl.compile priority = .ok schema) : decl'.compile priority = .ok schema := by
  obtain ⟨locales, flat, resolved, ls, cache, hlocales, hlen, hflat, hresolved, htypes, rfl⟩ := SchemaDecl.compile_eq_ok.1 hok
  have hn := named_of_compile hok hflat
  have hnamed := Schema.named_resolved hflat hresolved htypes
  have hlinks : resolved.OnLinks := fun type p hp hedges => by
    obtain ⟨ps, hps, hmem⟩ := (Schema.has_iff hnamed).1 hp
    exact Schema.typeLayouts_links htypes _ hps p hmem hedges
  have hpaired := Schema.resolveInverses_paired hn (hu _ hflat) hresolved
  have heven := Schema.resolveInverses_even hn (hu _ hflat) (ho _ hflat) hresolved hlinks
  obtain ⟨flat', hflat', halike⟩ := h.alike hflat
  obtain ⟨resolved', hresolved', halike'⟩ := Schema.resolveInverses_reordered halike hn (hu _ hflat) hresolved hlinks
  obtain ⟨cache', htypes'⟩ := Schema.typeLayouts_reordered halike' hnamed
    (fun x hx => Schema.keysAgree_of_even hnamed hpaired hlinks heven hx) (.refl []) htypes
  have hcount : decl'.types.length = decl.types.length := by
    have hperm := h.types.map_perm (f := fun x => x.1) (g := fun x => x.1) fun _ _ h => h.1
    simpa using hperm.length_eq.symm
  refine SchemaDecl.compile_eq_ok.2 ⟨locales, flat', resolved', ls, cache', h.locales ▸ hlocales, hcount ▸ hlen, hflat',
    hresolved', ?_, rfl⟩
  rw [← halike'.names]
  exact htypes'

/-- The order of types, of properties and of what links store does not change what a declaration is compiled to, as long as no
two references claim the same inverse and no relation within one type declares edges at both of its ends. -/
theorem compile_reordered (h : decl.Reordered decl') (hu : decl.Unambiguous) (ho : decl.OneSided) :
    decl.compile priority = .ok schema ↔ decl'.compile priority = .ok schema := by
  refine ⟨compile_of_reordered h hu ho, fun hok => ?_⟩
  have hback : ∀ types', Schema.flattenTypes ∅ decl'.types = .ok types' → ∃ types,
      Schema.flattenTypes ∅ decl.types = .ok types ∧ (Schema.sortTypes types).Alike (Schema.sortTypes types') ∧
        (Schema.sortTypes types).Named := fun types' hflat' => by
    obtain ⟨types, hflat, halike⟩ := h.symm.alike hflat'
    exact ⟨types, hflat, halike.symm, halike.named (named_of_compile hok hflat')⟩
  refine compile_of_reordered h.symm (fun types' hflat' => ?_) (fun types' hflat' => ?_) hok
  · obtain ⟨types, hflat, halike, hn⟩ := hback types' hflat'
    exact halike.unambiguous hn (hu _ hflat)
  · obtain ⟨types, hflat, halike, hn⟩ := hback types' hflat'
    exact halike.oneSided hn (hu _ hflat) (ho _ hflat)

end

namespace People

open Schema

/-- People, declared in another order. -/
def shuffled : SchemaDecl where
  locales := []
  types := [("person", [
    ("age", .leaf .uint8 { default := some (.int 18) } []),
    ("home", .object [("street", .leaf .string {} []), ("number", .leaf .uint16 {} [])]),
    ("friends", .leaf .references { reference := some "person", inverse := some "friends" } edges)])]

theorem reordered_shuffled : decl.Reordered shuffled where
  locales := rfl
  types := by
    refine .of_forall₂ (.cons ⟨rfl, ?_⟩ .nil)
    -- The age moves to the front, the home behind it, and the street in front of its number.
    refine .trans (.cons "friends" (.refl _) (.swap _ _ [])) (.trans (.swap _ _ _) (.cons "age" (.refl _) ?_))
    exact .trans (.swap _ _ []) (.cons "home" (.object (.swap _ _ [])) (.refl _))

theorem unambiguous_decl : decl.Unambiguous := by
  intro types h
  rw [flattenTypes_decl] at h
  cases h
  rw [sortTypes_flat]
  have hlinks : flat.allLinks = [⟨"person", "friends", "person", some "friends"⟩] := rfl
  refine ⟨fun l hl l' hl' _ _ => ?_, fun l hl hinv => ?_⟩
  · rw [hlinks, List.mem_singleton] at hl hl'
    rw [hl, hl']
  · rw [hlinks, List.mem_singleton] at hl
    rw [hl] at hinv
    cases hinv

theorem oneSided_decl : decl.OneSided := by
  intro types h
  rw [flattenTypes_decl] at h
  cases h
  rw [sortTypes_flat]
  have hedges : ∀ p ∈ [flatFriends, flatNumber, flatStreet, flatAge], p.edges.isEmpty = false → p.name = flatFriends.name := by
    simp [flatNumber, flatStreet, flatAge]
  rintro x hx p hp q hq l - - - hpe hqe
  cases List.mem_singleton.1 hx
  rw [hedges p hp hpe, hedges q hq hqe]

end People

open People in
theorem compile_reordered_people : decl.Reordered shuffled ∧ shuffled.compile = .ok layout :=
  ⟨reordered_shuffled, (compile_reordered reordered_shuffled unambiguous_decl oneSided_decl).1 compile_decl⟩

end NodeStore
