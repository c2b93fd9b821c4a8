import Mathlib.Data.List.Nodup
import Mathlib.Data.List.Perm.Basic
import NodeStore.Proofs.Schema.WellFormed

/-!
# Declarations in another order

What is declared in another order is flattened to the same leaves in another order, and its types stand at the same places.

* `Reorders`: a list in another order, each element with its counterpart.
* `PropDecl.Reordered`, `SchemaDecl.Reordered`: the declarations of properties, and of a schema, in another order.
* `AlikeProps`, `FlatTypes.Alike`: the same leaves, and the same types, in another order.
* `flattenAll_reordered`, `flattenTypes_reordered`, `sortTypes_reordered`: flattening and sorting.
-/

namespace NodeStore

/-! ### Lists in another order -/

section

variable {α β : Type} {R : α → α → Prop} {S : β → β → Prop} {xs ys zs : List α}

/-- The second list has a counterpart for each element of the first one, in any order. -/
def Reorders (R : α → α → Prop) (xs ys : List α) : Prop := ∃ zs, xs.Perm zs ∧ List.Forall₂ R zs ys

theorem forall₂_with_mem (h : List.Forall₂ R xs ys) : List.Forall₂ (fun x y => x ∈ xs ∧ y ∈ ys ∧ R x y) xs ys := by
  induction h with
  | nil => exact .nil
  | cons h _ ih =>
    exact .cons ⟨List.mem_cons_self, List.mem_cons_self, h⟩
      (ih.imp fun _ _ h => ⟨List.mem_cons_of_mem _ h.1, List.mem_cons_of_mem _ h.2.1, h.2.2⟩)

namespace Reorders

theorem of_perm (hR : ∀ x, R x x) (h : xs.Perm ys) : Reorders R xs ys := ⟨ys, h, List.forall₂_same.2 fun x _ => hR x⟩

theorem of_forall₂ (h : List.Forall₂ R xs ys) : Reorders R xs ys := ⟨xs, .refl _, h⟩

theorem symm (hR : ∀ x y, R x y → R y x) (h : Reorders R xs ys) : Reorders R ys xs := by
  obtain ⟨zs, hperm, hall⟩ := h
  obtain ⟨ws, hall', hperm'⟩ := List.perm_comp_forall₂ hperm hall
  exact ⟨ws, hperm'.symm, hall'.flip.imp fun _ _ h => hR _ _ h⟩

theorem trans (hR : ∀ x y z, R x y → R y z → R x z) (h : Reorders R xs ys) (h' : Reorders R ys zs) : Reorders R xs zs := by
  obtain ⟨us, hperm, hall⟩ := h
  obtain ⟨vs, hperm', hall'⟩ := h'
  obtain ⟨ws, hperm'', hall''⟩ : ∃ ws, us.Perm ws ∧ List.Forall₂ R ws vs := by
    obtain ⟨ws, hws, hw⟩ := List.perm_comp_forall₂ hperm'.symm hall.flip
    exact ⟨ws, hw.symm, hws.flip⟩
  refine ⟨ws, hperm.trans hperm'', ?_⟩
  clear hperm hperm' hperm'' hall
  induction hall'' generalizing zs with
  | nil =>
    cases hall'
    exact .nil
  | cons h _ ih =>
    cases hall' with
    | cons h' hrest => exact .cons (hR _ _ _ h h') (ih hrest)

theorem append {xs' ys' : List α} (h : Reorders R xs ys) (h' : Reorders R xs' ys') : Reorders R (xs ++ xs') (ys ++ ys') := by
  obtain ⟨zs, hperm, hall⟩ := h
  obtain ⟨zs', hperm', hall'⟩ := h'
  exact ⟨zs ++ zs', hperm.append hperm', List.rel_append hall hall'⟩

theorem exists_right (h : Reorders R xs ys) {x : α} (hx : x ∈ xs) : ∃ y ∈ ys, R x y := by
  obtain ⟨zs, hperm, hall⟩ := h
  exact exists_of_forall₂_left hall (hperm.subset hx)

theorem exists_left (h : Reorders R xs ys) {y : α} (hy : y ∈ ys) : ∃ x ∈ xs, R x y := by
  obtain ⟨zs, hperm, hall⟩ := h
  obtain ⟨x, hx, hxy⟩ := exists_of_forall₂_left hall.flip hy
  exact ⟨x, hperm.symm.subset hx, hxy⟩

/-- Counterparts are elements of the two lists. -/
theorem with_mem (h : Reorders R xs ys) : Reorders (fun x y => x ∈ xs ∧ y ∈ ys ∧ R x y) xs ys := by
  obtain ⟨zs, hperm, hall⟩ := h
  exact ⟨zs, hperm, (forall₂_with_mem hall).imp fun _ _ h => ⟨hperm.symm.subset h.1, h.2⟩⟩

theorem eq_perm (h : Reorders (· = ·) xs ys) : xs.Perm ys := by
  obtain ⟨zs, hperm, hall⟩ := h
  rw [List.forall₂_eq_eq_eq] at hall
  exact hall ▸ hperm

theorem map {f g : α → β} (hfg : ∀ x y, R x y → S (f x) (g y)) (h : Reorders R xs ys) :
    Reorders S (xs.map f) (ys.map g) := by
  obtain ⟨zs, hperm, hall⟩ := h
  refine ⟨zs.map f, hperm.map f, ?_⟩
  rw [List.forall₂_map_left_iff, List.forall₂_map_right_iff]
  exact hall.imp hfg

/-- What counterparts have in common is the same up to the order. -/
theorem map_perm {f g : α → β} (hfg : ∀ x y, R x y → f x = g y) (h : Reorders R xs ys) : (xs.map f).Perm (ys.map g) :=
  (h.map hfg).eq_perm

theorem filterMap {f g : α → Option β} (hfg : ∀ x y, R x y → Option.Rel S (f x) (g y)) (h : Reorders R xs ys) :
    Reorders S (xs.filterMap f) (ys.filterMap g) := by
  obtain ⟨zs, hperm, hall⟩ := h
  refine ⟨zs.filterMap f, hperm.filterMap f, ?_⟩
  clear hperm
  induction hall with
  | nil => exact .nil
  | @cons x y xs ys hxy _ ih =>
    rw [List.filterMap_cons, List.filterMap_cons]
    have hrel := hfg x y hxy
    cases hf : f x with
    | none =>
      cases hg : g y with
      | none => exact ih
      | some b =>
        rw [hf, hg] at hrel
        cases hrel
    | some a =>
      cases hg : g y with
      | none =>
        rw [hf, hg] at hrel
        cases hrel
      | some b =>
        rw [hf, hg] at hrel
        cases hrel with
        | some hab => exact .cons hab ih

theorem flatMap {f g : α → List β} (hS : ∀ b, S b b) (hT : ∀ a b c, S a b → S b c → S a c)
    (hfg : ∀ x y, R x y → Reorders S (f x) (g y)) (h : Reorders R xs ys) : Reorders S (xs.flatMap f) (ys.flatMap g) := by
  obtain ⟨zs, hperm, hall⟩ := h
  refine .trans hT (.of_perm hS (hperm.flatMap_right f)) ?_
  clear hperm
  induction hall with
  | nil => exact ⟨[], .refl _, .nil⟩
  | cons h _ ih =>
    rw [List.flatMap_cons, List.flatMap_cons]
    exact (hfg _ _ h).append ih

/-- What is made of the elements of one list is made of their counterparts, in another order. -/
theorem exists_forall₂ {P : α → β → Prop} (hP : ∀ {x y z}, R x y → P x z → P y z) (h : Reorders R xs ys) {bs : List β}
    (hall : List.Forall₂ P xs bs) : ∃ bs', List.Forall₂ P ys bs' ∧ bs.Perm bs' := by
  obtain ⟨zs, hperm, hmatch⟩ := h
  obtain ⟨bs', hall', hperm'⟩ := List.perm_comp_forall₂ hperm.symm hall
  refine ⟨bs', ?_, hperm'.symm⟩
  clear hperm hperm' hall
  induction hmatch generalizing bs' with
  | nil => exact hall'
  | cons hxy _ ih =>
    cases hall' with
    | cons hx hrest => exact .cons (hP hxy hx) (ih _ hrest)

end Reorders

end

/-! ### Declarations -/

mutual

/-- The same declaration with the properties of its objects, and of what links store, in another order. -/
inductive PropDecl.Reordered : PropDecl → PropDecl → Prop
  | leaf (type : PropType) (options : LeafOptions) {edges edges' : List (String × PropDecl)}
      (h : PropDecl.ReorderedAll edges edges') : PropDecl.Reordered (.leaf type options edges) (.leaf type options edges')
  | object {props props' : List (String × PropDecl)} (h : PropDecl.ReorderedAll props props') :
      PropDecl.Reordered (.object props) (.object props')

/-- The same declarations in another order. -/
inductive PropDecl.ReorderedAll : List (String × PropDecl) → List (String × PropDecl) → Prop
  | nil : PropDecl.ReorderedAll [] []
  | cons (name : String) {d d' : PropDecl} {ds ds' : List (String × PropDecl)} (h : PropDecl.Reordered d d')
      (hs : PropDecl.ReorderedAll ds ds') : PropDecl.ReorderedAll ((name, d) :: ds) ((name, d') :: ds')
  | swap (x y : String × PropDecl) (ds : List (String × PropDecl)) : PropDecl.ReorderedAll (x :: y :: ds) (y :: x :: ds)
  | trans {ds₁ ds₂ ds₃ : List (String × PropDecl)} (h : PropDecl.ReorderedAll ds₁ ds₂) (h' : PropDecl.ReorderedAll ds₂ ds₃) :
      PropDecl.ReorderedAll ds₁ ds₃

end

/-- The same types in another order, with the properties of each of them in another order. -/
structure SchemaDecl.Reordered (decl decl' : SchemaDecl) : Prop where
  locales : decl.locales = decl'.locales
  types : Reorders (fun x y => x.1 = y.1 ∧ PropDecl.ReorderedAll x.2 y.2) decl.types decl'.types

namespace PropDecl

mutual

theorem Reordered.refl : ∀ d : PropDecl, Reordered d d
  | .leaf type options edges => .leaf type options (ReorderedAll.refl edges)
  | .object props => .object (ReorderedAll.refl props)

theorem ReorderedAll.refl : ∀ ds : List (String × PropDecl), ReorderedAll ds ds
  | [] => .nil
  | (name, d) :: ds => .cons name (Reordered.refl d) (ReorderedAll.refl ds)

end

mutual

theorem Reordered.symm : ∀ {d d' : PropDecl}, Reordered d d' → Reordered d' d
  | _, _, .leaf type options h => .leaf type options h.symm
  | _, _, .object h => .object h.symm

theorem ReorderedAll.symm : ∀ {ds ds' : List (String × PropDecl)}, ReorderedAll ds ds' → ReorderedAll ds' ds
  | _, _, .nil => .nil
  | _, _, .cons name h hs => .cons name h.symm hs.symm
  | _, _, .swap x y ds => .swap y x ds
  | _, _, .trans h h' => .trans h'.symm h.symm

end

theorem ReorderedAll.isEmpty : ∀ {ds ds' : List (String × PropDecl)}, ReorderedAll ds ds' → ds.isEmpty = ds'.isEmpty
  | _, _, .nil => rfl
  | _, _, .cons .. => rfl
  | _, _, .swap .. => rfl
  | _, _, .trans h h' => h.isEmpty.trans h'.isEmpty

end PropDecl

namespace Schema

/-! ### Leaves -/

/-- The same leaf, with what its links store in another order. -/
structure FlatProp.Alike (p q : FlatProp) : Prop where
  path : p.path = q.path
  type : p.type = q.type
  options : p.options = q.options
  edges : PropDecl.ReorderedAll p.edges q.edges

namespace FlatProp.Alike

variable {p q r : FlatProp}

theorem refl (p : FlatProp) : p.Alike p := ⟨rfl, rfl, rfl, .refl _⟩

theorem symm (h : p.Alike q) : q.Alike p := ⟨h.path.symm, h.type.symm, h.options.symm, h.edges.symm⟩

theorem trans (h : p.Alike q) (h' : q.Alike r) : p.Alike r :=
  ⟨h.path.trans h'.path, h.type.trans h'.type, h.options.trans h'.options, .trans h.edges h'.edges⟩

theorem name (h : p.Alike q) : p.name = q.name := congrArg Path.join h.path

end FlatProp.Alike

/-- The same leaves in another order. -/
abbrev AlikeProps (ps qs : List FlatProp) : Prop := Reorders FlatProp.Alike ps qs

theorem AlikeProps.refl (ps : List FlatProp) : AlikeProps ps ps := .of_perm FlatProp.Alike.refl (.refl _)

theorem AlikeProps.trans {ps qs rs : List FlatProp} (h : AlikeProps ps qs) (h' : AlikeProps qs rs) : AlikeProps ps rs :=
  Reorders.trans (fun _ _ _ => FlatProp.Alike.trans) h h'

mutual

theorem flatten_reordered {type : String} : ∀ {d d' : PropDecl}, d.Reordered d' → ∀ {path : List String} {fs : List FlatProp},
    flatten type path d = .ok fs → ∃ fs', flatten type path d' = .ok fs' ∧ AlikeProps fs fs'
  | _, _, @PropDecl.Reordered.leaf t options _ edges' h, path, fs, hfs => by
    rw [flatten] at hfs
    cases hfs
    exact ⟨[⟨path, t, options, edges'⟩], by rw [flatten], .of_forall₂ (.cons ⟨rfl, rfl, rfl, h⟩ .nil)⟩
  | _, _, .object h, path, fs, hfs => by
    rw [flatten] at hfs
    rw [flatten]
    exact flattenAll_reordered h hfs

/-- Declarations in another order have the same leaves in another order. -/
theorem flattenAll_reordered {type : String} : ∀ {ds ds' : List (String × PropDecl)}, PropDecl.ReorderedAll ds ds' →
    ∀ {above : List String} {fs : List FlatProp}, flattenAll type above ds = .ok fs →
      ∃ fs', flattenAll type above ds' = .ok fs' ∧ AlikeProps fs fs'
  | _, _, .nil, above, fs, hfs => ⟨fs, hfs, .refl fs⟩
  | _, _, .cons name h hs, above, fs, hfs => by
    obtain ⟨hfree, here, others, hhere, hothers, rfl⟩ := flattenAll_cons.1 hfs
    obtain ⟨here', hhere', hsame⟩ := flatten_reordered h hhere
    obtain ⟨others', hothers', hrest⟩ := flattenAll_reordered hs hothers
    exact ⟨here' ++ others', flattenAll_cons.2 ⟨hfree, here', others', hhere', hothers', rfl⟩, hsame.append hrest⟩
  | _, _, .swap (name, d) (name', d') ds, above, fs, hfs => by
    obtain ⟨hfree, here, _, hhere, hrest, rfl⟩ := flattenAll_cons.1 hfs
    obtain ⟨hfree', here', others, hhere', hothers, rfl⟩ := flattenAll_cons.1 hrest
    refine ⟨here' ++ (here ++ others), flattenAll_cons.2 ⟨hfree', here', _, hhere',
      flattenAll_cons.2 ⟨hfree, here, others, hhere, hothers, rfl⟩, rfl⟩, ?_⟩
    refine .of_perm FlatProp.Alike.refl ?_
    rw [← List.append_assoc, ← List.append_assoc]
    exact List.perm_append_comm.append_right others
  | _, _, .trans h h', above, fs, hfs => by
    obtain ⟨fs', hfs', hsame⟩ := flattenAll_reordered h hfs
    obtain ⟨fs'', hfs'', hsame'⟩ := flattenAll_reordered h' hfs'
    exact ⟨fs'', hfs'', hsame.trans hsame'⟩

end

/-! ### Types -/

/-- The same type, with its leaves in another order. -/
def AlikeType (x y : String × List FlatProp) : Prop := x.1 = y.1 ∧ AlikeProps x.2 y.2

/-- The same types, each with its leaves in another order. -/
def FlatTypes.Alike (types types' : FlatTypes) : Prop := List.Forall₂ AlikeType types types'

theorem flattenTypes_reordered {decls decls' : List (String × List (String × PropDecl))}
    (h : Reorders (fun x y => x.1 = y.1 ∧ PropDecl.ReorderedAll x.2 y.2) decls decls') {types : FlatTypes}
    (hflat : flattenTypes ∅ decls = .ok types) :
    ∃ types', flattenTypes ∅ decls' = .ok types' ∧ Reorders AlikeType types types' := by
  obtain ⟨hnodup, hfree, hall⟩ := flattenTypes_eq_ok.1 hflat
  obtain ⟨mid, hperm, hsame⟩ := h
  have hnames : mid.map (·.1) = decls'.map (·.1) := by
    rw [← List.forall₂_eq_eq_eq, List.forall₂_map_left_iff, List.forall₂_map_right_iff]
    exact hsame.imp fun _ _ h => h.1
  obtain ⟨types₁, hall₁, hperm₁⟩ := List.perm_comp_forall₂ hperm.symm hall
  have htypes : ∃ types', List.Forall₂ (fun d x => d.1 = x.1 ∧ flattenAll d.1 [] d.2 = .ok x.2) decls' types' ∧
      List.Forall₂ AlikeType types₁ types' := by
    clear hperm hperm₁ hnames
    induction hsame generalizing types₁ with
    | nil =>
      cases hall₁
      exact ⟨[], .nil, .nil⟩
    | @cons d d' ds ds' hd _ ih =>
      cases hall₁ with
      | @cons _ x _ xs hx hrest =>
        obtain ⟨types', hall', halike⟩ := ih _ hrest
        obtain ⟨fs', hfs', hsame⟩ := flattenAll_reordered hd.2 hx.2
        refine ⟨(d'.1, fs') :: types', .cons ⟨rfl, ?_⟩ hall', .cons ⟨hx.1.symm.trans hd.1, hsame⟩ halike⟩
        rw [← hd.1]
        exact hfs'
  obtain ⟨types', hall', halike⟩ := htypes
  refine ⟨types', flattenTypes_eq_ok.2 ⟨?_, fun d _ => Std.HashSet.contains_empty, hall'⟩, types₁, hperm₁.symm, halike⟩
  rw [← hnames]
  exact (hperm.map (·.1)).nodup_iff.1 hnodup

/-- In the order of their names, types with the same names stand at the same places. -/
theorem sortTypes_reordered {types types' : FlatTypes} (hn : (types.map (·.1)).Nodup) (h : Reorders AlikeType types types') :
    (sortTypes types).Alike (sortTypes types') := by
  obtain ⟨mid, hperm, hall⟩ := h
  obtain ⟨mid', hperm', hall'⟩ : ∃ mid', mid.Perm mid' ∧ List.Forall₂ AlikeType mid' (sortTypes types') := by
    obtain ⟨mid', hflip, hperm'⟩ := List.perm_comp_forall₂ (List.mergeSort_perm types' _) hall.flip
    exact ⟨mid', hperm'.symm, hflip.flip⟩
  have hnames : mid'.map (·.1) = (sortTypes types').map (·.1) := by
    rw [← List.forall₂_eq_eq_eq, List.forall₂_map_left_iff, List.forall₂_map_right_iff]
    exact hall'.imp fun _ _ h => h.1
  have hperm'' : (sortTypes types).Perm mid' := ((List.mergeSort_perm types _).trans hperm).trans hperm'
  have hn' : (types'.map (·.1)).Nodup := by
    have h := (hperm''.map (·.1)).nodup_iff.1 (((List.mergeSort_perm types _).map (·.1)).nodup_iff.2 hn)
    rw [hnames] at h
    exact ((List.mergeSort_perm types' _).map (·.1)).nodup_iff.1 h
  have hsorted : mid'.Pairwise fun x y => x.1 < y.1 := by
    have h := List.pairwise_map.2 (sortTypes_sorted hn')
    rw [← hnames] at h
    exact List.pairwise_map.1 h
  have heq : sortTypes types = mid' :=
    hperm''.eq_of_pairwise (fun _ _ _ _ h h' => (Std.lt_irrefl (Std.lt_trans h h')).elim) (sortTypes_sorted hn) hsorted
  exact heq ▸ hall'

/-! ### Names -/

theorem AlikeProps.names {ps qs : List FlatProp} (h : AlikeProps ps qs) : (ps.map (·.name)).Perm (qs.map (·.name)) :=
  h.map_perm fun _ _ => FlatProp.Alike.name

/-- The property of a name is the same. -/
theorem AlikeProps.find? {ps qs : List FlatProp} (h : AlikeProps ps qs) (hn : (ps.map (·.name)).Nodup) (name : String) :
    Option.Rel FlatProp.Alike (ps.find? (·.name = name)) (qs.find? (·.name = name)) := by
  cases hp : ps.find? (·.name = name) with
  | none =>
    have hnone : qs.find? (·.name = name) = none := List.find?_eq_none.2 fun q hq => by
      obtain ⟨p, hmem, hpq⟩ := h.exists_left hq
      rw [← hpq.name]
      exact List.find?_eq_none.1 hp p hmem
    rw [hnone]
    exact .none
  | some p =>
    have hpmem := List.mem_of_find?_eq_some hp
    have hpname := List.find?_some hp
    obtain ⟨q, hqmem, hpq⟩ := h.exists_right hpmem
    obtain ⟨q', hq'⟩ : ∃ q', qs.find? (·.name = name) = some q' :=
      Option.isSome_iff_exists.1 (List.find?_isSome.2 ⟨q, hqmem, by rwa [← hpq.name]⟩)
    have hqname := List.find?_some hq'
    obtain ⟨p', hp'mem, hpq'⟩ := h.exists_left (List.mem_of_find?_eq_some hq')
    simp only [decide_eq_true_eq] at hpname hqname
    have hunique : p' = p :=
      List.inj_on_of_nodup_map hn hp'mem hpmem ((hpq'.name.trans hqname).trans hpname.symm)
    rw [hq']
    exact .some (hunique ▸ hpq')

end Schema

end NodeStore
