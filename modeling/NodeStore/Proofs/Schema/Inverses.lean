import Mathlib.Data.List.Find
import Mathlib.Data.List.Nodup
import NodeStore.Proofs.Schema.Addresses

/-!
# Inverses in closed form

Naming the inverses of all references one after the other comes to one change of every type, as long as no two of them
claim the same property.

* `FlatTypes.Named`: names are unique; `modifyProp_eq`, `foldl_addProp`: single changes under it.
* `FlatTypes.Unambiguous`: no two references claim the same inverse, and the name of an added one is free.
* `chooseInverse_mapEach`: what was named before does not change the choice of an inverse.
* `resolveInverses_eq_ok`: what naming all inverses makes of the types.
-/

namespace NodeStore.Schema

/-! ### Tables of properties -/

namespace FlatTypes

/-- No two types have the same name, and no two properties of one type. -/
structure Named (types : FlatTypes) : Prop where
  names : (types.map (·.1)).Nodup
  props : ∀ x ∈ types, (x.2.map (·.name)).Nodup

/-- All properties of all types, changed. -/
def mapProps (types : FlatTypes) (f : String → List FlatProp → List FlatProp) : FlatTypes :=
  types.map fun x => (x.1, f x.1 x.2)

/-- Each property of each type, changed. -/
def mapEach (types : FlatTypes) (g : String → FlatProp → FlatProp) : FlatTypes :=
  types.mapProps fun type ps => ps.map (g type)

variable {types : FlatTypes} {type : String}

@[simp] theorem names_mapProps (types : FlatTypes) (f : String → List FlatProp → List FlatProp) :
    (types.mapProps f).map (·.1) = types.map (·.1) := by
  rw [mapProps, List.map_map]
  rfl

theorem mapProps_mapProps (types : FlatTypes) (f g : String → List FlatProp → List FlatProp) :
    (types.mapProps f).mapProps g = types.mapProps fun type ps => g type (f type ps) := by
  rw [mapProps, mapProps, List.map_map]
  rfl

theorem mem_mapProps {f : String → List FlatProp → List FlatProp} {ps : List FlatProp} :
    (type, ps) ∈ types.mapProps f ↔ ∃ qs, (type, qs) ∈ types ∧ ps = f type qs := by
  constructor
  · intro h
    obtain ⟨x, hx, heq⟩ := List.mem_map.1 h
    cases heq
    exact ⟨x.2, hx, rfl⟩
  · rintro ⟨qs, hqs, rfl⟩
    exact List.mem_map_of_mem hqs

theorem mapProps_congr {f g : String → List FlatProp → List FlatProp} (h : ∀ x ∈ types, f x.1 x.2 = g x.1 x.2) :
    types.mapProps f = types.mapProps g :=
  List.map_congr_left fun x hx => by rw [h x hx]

theorem mapEach_congr {g h : String → FlatProp → FlatProp} (heq : ∀ x ∈ types, ∀ p ∈ x.2, g x.1 p = h x.1 p) :
    types.mapEach g = types.mapEach h :=
  mapProps_congr fun x hx => List.map_congr_left fun p hp => heq x hx p hp

theorem mapEach_mapEach (types : FlatTypes) (g h : String → FlatProp → FlatProp) :
    (types.mapEach g).mapEach h = types.mapEach fun type p => h type (g type p) := by
  rw [mapEach, mapEach, mapProps_mapProps]
  exact mapProps_congr fun x _ => List.map_map

theorem mapEach_id (types : FlatTypes) : types.mapEach (fun _ p => p) = types := by
  simp [mapEach, mapProps]

theorem propsOf?_mapProps (types : FlatTypes) (f : String → List FlatProp → List FlatProp) (type : String) :
    (types.mapProps f).propsOf? type = (types.propsOf? type).map (f type) := by
  rw [propsOf?, propsOf?, mapProps, List.find?_map, Option.map_map, Option.map_map]
  cases hf : types.find? ((fun x => decide (x.1 = type)) ∘ fun x => (x.1, f x.1 x.2)) with
  | none =>
    have hnone : types.find? (·.1 = type) = none := hf
    rw [hnone]
    rfl
  | some x =>
    have hsome : types.find? (·.1 = type) = some x := hf
    have hname := List.find?_some hsome
    simp only [decide_eq_true_eq] at hname
    rw [hsome, ← hname]
    rfl

/-- The properties of a type are those under its name. -/
theorem propsOf?_eq_some (h : (types.map (·.1)).Nodup) {ps : List FlatProp} :
    types.propsOf? type = some ps ↔ (type, ps) ∈ types := by
  have hmem : ∀ {qs}, types.propsOf? type = some qs → (type, qs) ∈ types := by
    intro qs hqs
    obtain ⟨x, hx, rfl⟩ := Option.map_eq_some_iff.1 hqs
    have hname := List.find?_some hx
    simp only [decide_eq_true_eq] at hname
    rw [← hname]
    exact List.mem_of_find?_eq_some hx
  refine ⟨hmem, fun hps => ?_⟩
  cases hqs : types.propsOf? type with
  | none =>
    have hnone := List.find?_eq_none.1 (Option.map_eq_none_iff.1 hqs) _ hps
    simp at hnone
  | some qs =>
    have heq : (type, qs) = (type, ps) := List.inj_on_of_nodup_map h (hmem hqs) hps rfl
    rw [(Prod.mk.inj heq).2]

/-- Changing one type changes the properties under its name. -/
theorem modifyType_eq (h : (types.map (·.1)).Nodup) (type : String) (f : List FlatProp → List FlatProp) :
    types.modifyType type f = types.mapProps fun name ps => if name = type then f ps else ps := by
  induction types with
  | nil => rfl
  | cons x types ih =>
    rw [List.map_cons, List.nodup_cons] at h
    rw [modifyType, mapProps, List.map_cons]
    split
    · rename_i hx
      refine congrArg (_ :: ·) (.symm ((List.map_congr_left fun y hy => ?_).trans (List.map_id _)))
      have hne : y.1 ≠ type := fun he => h.1 (by rw [hx, ← he]; exact List.mem_map_of_mem hy)
      rw [if_neg hne]
      rfl
    · exact congrArg (_ :: ·) (ih h.2)

theorem modifyFirst_eq {name : String} {ps : List FlatProp} (h : (ps.map (·.name)).Nodup) (f : FlatProp → FlatProp) :
    modifyFirst (·.name = name) f ps = ps.map fun p => if p.name = name then f p else p := by
  induction ps with
  | nil => rfl
  | cons p ps ih =>
    rw [List.map_cons, List.nodup_cons] at h
    rw [modifyFirst, List.map_cons]
    by_cases hp : p.name = name
    · rw [if_pos (by simpa using hp), if_pos hp]
      refine congrArg (_ :: ·) (.symm ((List.map_congr_left fun q hq => ?_).trans (List.map_id _)))
      have hne : q.name ≠ name := fun he => h.1 (by rw [hp, ← he]; exact List.mem_map_of_mem hq)
      rw [if_neg hne]
      rfl
    · rw [if_neg (by simpa using hp), if_neg hp, ih h.2]

/-- Changing one property changes what has its name on that type. -/
theorem modifyProp_eq (h : types.Named) (type name : String) (f : FlatProp → FlatProp) :
    types.modifyProp type name f = types.mapEach fun t p => if t = type ∧ p.name = name then f p else p := by
  rw [modifyProp, modifyType_eq h.names]
  refine mapProps_congr fun x hx => ?_
  by_cases ht : x.1 = type
  · rw [if_pos ht, modifyFirst_eq (h.props x hx)]
    simp [ht]
  · simp [ht]

theorem Named.mapEach (h : types.Named) {g : String → FlatProp → FlatProp} (hg : ∀ type p, (g type p).name = p.name) :
    (types.mapEach g).Named where
  names := by
    rw [FlatTypes.mapEach, names_mapProps]
    exact h.names
  props x hx := by
    obtain ⟨y, hy, rfl⟩ := List.mem_map.1 hx
    have hnames : (y.2.map (g y.1)).map (·.name) = y.2.map (·.name) := by
      rw [List.map_map]
      exact List.map_congr_left fun p _ => hg y.1 p
    exact hnames ▸ h.props y hy

/-- A property of a type is the one of its name. -/
theorem Named.prop_unique (h : types.Named) {ps : List FlatProp} (hps : (type, ps) ∈ types) {p q : FlatProp} (hp : p ∈ ps)
    (hq : q ∈ ps) (hname : p.name = q.name) : p = q :=
  List.inj_on_of_nodup_map (h.props _ hps) hp hq hname

end FlatTypes

/-! ### Declared links -/

/-- The link that a property declares. -/
def declaredLink (type : String) (p : FlatProp) : Option Link :=
  if p.type.isReference then p.options.reference.map fun target => ⟨type, p.name, target, p.options.inverse⟩ else none

namespace FlatTypes

/-- All links by type and then in the order of declaration. -/
def allLinks (types : FlatTypes) : List Link := types.flatMap fun x => x.2.filterMap (declaredLink x.1)

/-- Every reference leads to a type. -/
def Targeted (types : FlatTypes) : Prop :=
  ∀ x ∈ types, ∀ p ∈ x.2, p.type.isReference = true →
    ∃ target, p.options.reference = some target ∧ (types.propsOf? target).isSome

/-- The properties of the type that a link leads to. -/
def targets (types : FlatTypes) (l : Link) : List FlatProp := (types.propsOf? l.target).getD []

variable {types : FlatTypes} {l l' : Link} {p : FlatProp}

theorem mem_allLinks : l ∈ types.allLinks ↔ ∃ x ∈ types, ∃ p ∈ x.2, declaredLink x.1 p = some l := by
  simp only [allLinks, List.mem_flatMap, List.mem_filterMap]

end FlatTypes

variable {types : FlatTypes} {l l' : Link} {p q : FlatProp} {type : String}

theorem declaredLink_eq_some : declaredLink type p = some l ↔
    p.type.isReference = true ∧ p.options.reference = some l.target ∧ type = l.source ∧ p.name = l.path ∧
      p.options.inverse = l.inverse := by
  obtain ⟨source, path, target, inverse⟩ := l
  unfold declaredLink
  cases p.type.isReference with
  | false => simp
  | true => simp [Option.map_eq_some_iff, and_left_comm]

theorem linkOf_eq_ok {found : Option Link} : linkOf types type p = .ok found ↔
    (p.type.isReference = true → ∃ target, p.options.reference = some target ∧ (types.propsOf? target).isSome) ∧
      found = declaredLink type p := by
  unfold linkOf declaredLink
  cases p.type.isReference with
  | false => simp [@eq_comm _ found]
  | true =>
    cases p.options.reference with
    | none => simp
    | some target => cases ht : types.propsOf? target <;> simp [@eq_comm _ found, ht]

/-- All references are found as long as each of them leads to a type. -/
theorem links_eq_ok {ls : List Link} : links types = .ok ls ↔ types.Targeted ∧ ls = types.allLinks := by
  have hinner : ∀ x ∈ types, ∀ found, x.2.mapM (linkOf types x.1) = .ok found ↔
      (∀ p ∈ x.2, p.type.isReference = true → ∃ target, p.options.reference = some target ∧ (types.propsOf? target).isSome) ∧
        found = x.2.map (declaredLink x.1) := fun x _ found => mapM_eq_ok_iff fun p _ l => linkOf_eq_ok
  have hall : ∀ found, types.mapM (fun x => x.2.mapM (linkOf types x.1)) = .ok found ↔
      types.Targeted ∧ found = types.map fun x => x.2.map (declaredLink x.1) := fun found => mapM_eq_ok_iff hinner
  have hflat : ((types.map fun x => x.2.map (declaredLink x.1)).flatten.filterMap id) = types.allLinks := by
    rw [← List.flatMap_def, List.filterMap_flatMap, FlatTypes.allLinks]
    simp only [List.filterMap_map, Function.id_comp]
  unfold links
  rw [Except.bind_eq_ok]
  constructor
  · rintro ⟨found, hfound, h⟩
    obtain ⟨htargeted, rfl⟩ := (hall found).1 hfound
    rw [hflat] at h
    exact ⟨htargeted, (Except.ok.inj h).symm⟩
  · rintro ⟨htargeted, rfl⟩
    exact ⟨_, (hall _).2 ⟨htargeted, rfl⟩, by rw [hflat]; rfl⟩

/-! ### Claimed inverses -/

/-- The name of the inverse of a link: the declared one, that of the first property that names the link, or a new one. -/
def claimed (types : FlatTypes) (l : Link) : String :=
  match l.inverse with
  | some inverse => inverse
  | none =>
    match (types.targets l).find? (namesLink l) with
    | some back => back.name
    | none => inverseName l

/-- No two links claim the same property, and the name of an inverse that nobody named is free. -/
structure FlatTypes.Unambiguous (types : FlatTypes) : Prop where
  single : ∀ l ∈ types.allLinks, ∀ l' ∈ types.allLinks, l.target = l'.target → claimed types l = claimed types l' → l = l'
  free : ∀ l ∈ types.allLinks, l.inverse = none → (∀ p ∈ types.targets l, namesLink l p = false) →
    ∀ p ∈ types.targets l, p.name ≠ inverseName l

/-- The property that a link names as its inverse, if it exists, refers back to it. -/
def FlatTypes.Answers (types : FlatTypes) (l : Link) : Prop :=
  ∀ inverse, l.inverse = some inverse → ∀ p, (types.targets l).find? (·.name = inverse) = some p → pointsBack l p = true

/-- The property that is added for a link, if its target lacks the claimed one. -/
def newInverse (types : FlatTypes) (l : Link) : Option FlatProp :=
  if (types.targets l).all (·.name ≠ claimed types l) then some (inverseOf types l (claimed types l)) else none

theorem claimed_of_declared {inverse : String} (h : l.inverse = some inverse) : claimed types l = inverse := by
  rw [claimed, h]

theorem claimed_of_named (h : l.inverse = none) {back : FlatProp} (hback : (types.targets l).find? (namesLink l) = some back) :
    claimed types l = back.name := by
  rw [claimed, h, hback]

theorem claimed_of_unnamed (h : l.inverse = none) (hback : (types.targets l).find? (namesLink l) = none) :
    claimed types l = inverseName l := by
  rw [claimed, h, hback]

theorem newInverse_of_found (hp : p ∈ types.targets l) (hname : p.name = claimed types l) : newInverse types l = none := by
  rw [newInverse, if_neg]
  simp only [List.all_eq_true, decide_eq_true_eq]
  exact fun h => h p hp hname

theorem newInverse_of_lacking (h : ∀ p ∈ types.targets l, p.name ≠ claimed types l) :
    newInverse types l = some (inverseOf types l (claimed types l)) := by
  rw [newInverse, if_pos]
  simpa only [List.all_eq_true, decide_eq_true_eq] using h

/-- The claimed inverse is chosen. -/
theorem chooseInverse_eq_ok (hu : types.Unambiguous) (hl : l ∈ types.allLinks) {chosen : String × Option FlatProp} :
    chooseInverse types l = .ok chosen ↔ types.Answers l ∧ chosen = (claimed types l, newInverse types l) := by
  unfold chooseInverse FlatTypes.Answers
  rw [← FlatTypes.targets]
  cases hinv : l.inverse with
  | some inverse =>
    have hclaimed : claimed types l = inverse := claimed_of_declared hinv
    cases hfound : (types.targets l).find? (·.name = inverse) with
    | some existing =>
      have hname := List.find?_some hfound
      simp only [decide_eq_true_eq] at hname
      rw [newInverse_of_found (List.mem_of_find?_eq_some hfound) (hname.trans hclaimed.symm), hclaimed]
      cases hback : pointsBack l existing <;> simp [hfound, hback, @eq_comm _ chosen]
    | none =>
      have hlacking : ∀ p ∈ types.targets l, p.name ≠ claimed types l := fun p hp => by
        simpa [hclaimed] using List.find?_eq_none.1 hfound p hp
      rw [newInverse_of_lacking hlacking, hclaimed]
      simp [hfound, @eq_comm _ chosen]
  | none =>
    cases hfound : (types.targets l).find? (namesLink l) with
    | some back =>
      rw [newInverse_of_found (List.mem_of_find?_eq_some hfound) (claimed_of_named hinv hfound).symm,
        claimed_of_named hinv hfound]
      simp [hfound, @eq_comm _ chosen]
    | none =>
      have hclaimed : claimed types l = inverseName l := claimed_of_unnamed hinv hfound
      have hlacking : ∀ p ∈ types.targets l, p.name ≠ claimed types l := by
        rw [hclaimed]
        exact hu.free l hl hinv fun p hp => by simpa using List.find?_eq_none.1 hfound p hp
      rw [newInverse_of_lacking hlacking, hclaimed]
      simp [hfound, @eq_comm _ chosen]

/-! ### Naming inverses -/

/-- A property with the claimed inverse of its link. -/
def settle (types : FlatTypes) (type : String) (p : FlatProp) : FlatProp :=
  match declaredLink type p with
  | some l => { p with options := { p.options with inverse := some (claimed types l) } }
  | none => p

theorem settle_of_link (h : declaredLink type p = some l) :
    settle types type p = { p with options := { p.options with inverse := some (claimed types l) } } := by
  rw [settle, h]

theorem settle_of_none (h : declaredLink type p = none) : settle types type p = p := by
  rw [settle, h]

/-- Some of the properties have the claimed inverses, the others are as they were. -/
def Settling (types : FlatTypes) (g : String → FlatProp → FlatProp) : Prop :=
  ∀ type p, g type p = p ∨ g type p = settle types type p

theorem settling_settle (types : FlatTypes) : Settling types (settle types) := fun _ _ => .inr rfl

variable {g : String → FlatProp → FlatProp}

/-- Nothing but the name of the inverse is another one. -/
theorem Settling.kept (hg : Settling types g) (type : String) (p : FlatProp) :
    (g type p).path = p.path ∧ (g type p).type = p.type ∧ (g type p).edges = p.edges ∧
      (g type p).options.reference = p.options.reference := by
  have hsettle : (settle types type p).path = p.path ∧ (settle types type p).type = p.type ∧
      (settle types type p).edges = p.edges ∧ (settle types type p).options.reference = p.options.reference := by
    unfold settle
    split <;> exact ⟨rfl, rfl, rfl, rfl⟩
  rcases hg type p with h | h
  · rw [h]
    exact ⟨rfl, rfl, rfl, rfl⟩
  · rw [h]
    exact hsettle

theorem Settling.name (hg : Settling types g) (type : String) (p : FlatProp) : (g type p).name = p.name := by
  rw [FlatProp.name, FlatProp.name, (hg.kept type p).1]

theorem targets_mapEach (types : FlatTypes) (g : String → FlatProp → FlatProp) (l : Link) :
    (types.mapEach g).targets l = (types.targets l).map (g l.target) := by
  rw [FlatTypes.targets, FlatTypes.targets, FlatTypes.mapEach, FlatTypes.propsOf?_mapProps]
  cases types.propsOf? l.target <;> rfl

/-- The added property is the same whatever was named before. -/
theorem inverseOf_mapEach (hg : Settling types g) (l : Link) (name : String) :
    inverseOf (types.mapEach g) l name = inverseOf types l name := by
  have hfind : ∀ ps : List FlatProp, ((ps.map (g l.source)).find? (·.name = l.path)).map (·.edges) =
      (ps.find? (·.name = l.path)).map (·.edges) := by
    intro ps
    have htest : ((fun p : FlatProp => decide (p.name = l.path)) ∘ g l.source) = fun p => decide (p.name = l.path) :=
      funext fun p => by rw [Function.comp_apply, hg.name]
    rw [List.find?_map, Option.map_map, htest]
    exact congrArg (Option.map · _) (funext fun p => (hg.kept l.source p).2.2.1)
  have hedges : ((types.mapEach g).prop? l.source l.path).map (·.edges) = (types.prop? l.source l.path).map (·.edges) := by
    rw [FlatTypes.prop?, FlatTypes.prop?, FlatTypes.mapEach, FlatTypes.propsOf?_mapProps]
    cases types.propsOf? l.source with
    | none => rfl
    | some ps => exact hfind ps
  rw [inverseOf, inverseOf, hedges]

/-- A link that is declared on a property of its source. -/
theorem mem_targets (hn : types.Named) {x : String × List FlatProp} (hx : x ∈ types) (hp : p ∈ x.2)
    (h : l.target = x.1) : p ∈ types.targets l := by
  rw [FlatTypes.targets, h, (FlatTypes.propsOf?_eq_some hn.names).2 hx]
  exact hp

theorem of_mem_targets (hn : types.Named) (hp : p ∈ types.targets l) : ∃ ps, (l.target, ps) ∈ types ∧ p ∈ ps := by
  rw [FlatTypes.targets] at hp
  cases hps : types.propsOf? l.target with
  | none =>
    rw [hps] at hp
    cases hp
  | some ps =>
    rw [hps] at hp
    exact ⟨ps, (FlatTypes.propsOf?_eq_some hn.names).1 hps, hp⟩

theorem FlatTypes.Named.propsOf? (hn : types.Named) (type : String) : (((types.propsOf? type).getD []).map (·.name)).Nodup := by
  cases hps : types.propsOf? type with
  | none => exact .nil
  | some ps => exact hn.props _ ((FlatTypes.propsOf?_eq_some hn.names).1 hps)

theorem FlatTypes.Named.targets (hn : types.Named) (l : Link) : ((types.targets l).map (·.name)).Nodup := hn.propsOf? l.target

theorem targets_unique (hn : types.Named) (hp : p ∈ types.targets l) (hq : q ∈ types.targets l) (hname : p.name = q.name) :
    p = q := List.inj_on_of_nodup_map (hn.targets l) hp hq hname

/-- The property at the place of a link declares it. -/
theorem declaredLink_of_mem (hn : types.Named) (hl : l ∈ types.allLinks) {x : String × List FlatProp} (hx : x ∈ types)
    (hp : p ∈ x.2) (hsource : x.1 = l.source) (hpath : p.name = l.path) : declaredLink x.1 p = some l := by
  obtain ⟨y, hy, q, hq, hlink⟩ := FlatTypes.mem_allLinks.1 hl
  obtain ⟨-, -, hsrc, hname, -⟩ := declaredLink_eq_some.1 hlink
  have hyx : y = x := List.inj_on_of_nodup_map hn.names hy hx (hsrc.trans hsource.symm)
  subst hyx
  rwa [hn.prop_unique hy hp hq (hpath.trans hname.symm)]

/-- The link of a property that names another one. -/
theorem link_of_namesLink (hn : types.Named) (hp : p ∈ types.targets l) (hnames : namesLink l p = true) :
    ⟨l.target, p.name, l.source, some l.path⟩ ∈ types.allLinks := by
  obtain ⟨ps, hps, hmem⟩ := of_mem_targets hn hp
  simp only [namesLink, Bool.and_eq_true, decide_eq_true_eq] at hnames
  obtain ⟨⟨hr, href⟩, hinv⟩ := hnames
  exact FlatTypes.mem_allLinks.2 ⟨_, hps, p, hmem, declaredLink_eq_some.2 ⟨hr, href, rfl, rfl, hinv⟩⟩

/-- A link is named by one property only. -/
theorem namesLink_unique (hn : types.Named) (hu : types.Unambiguous) (hp : p ∈ types.targets l) (hq : q ∈ types.targets l)
    (hpl : namesLink l p = true) (hql : namesLink l q = true) : p.name = q.name := by
  have h := hu.single _ (link_of_namesLink hn hp hpl) _ (link_of_namesLink hn hq hql) rfl
    ((claimed_of_declared rfl).trans (claimed_of_declared rfl).symm)
  exact congrArg Link.path h

/-- The claim of a link that another one names as its inverse is that other one. -/
theorem claimed_of_named_by (hn : types.Named) (hu : types.Unambiguous) (hl : l ∈ types.allLinks)
    (htarget : l'.target = l.source) (hsource : l'.source = l.target) (hinv : l.inverse = some l'.path)
    (hinv' : l'.inverse = none) : claimed types l' = l.path := by
  obtain ⟨x, hx, p, hp, hlink⟩ := FlatTypes.mem_allLinks.1 hl
  obtain ⟨hr, href, hsrc, hpath, hpinv⟩ := declaredLink_eq_some.1 hlink
  have hmem : p ∈ types.targets l' := mem_targets hn hx hp (htarget.trans hsrc.symm)
  have hnames : namesLink l' p = true := by
    simp [namesLink, hr, href, hpinv, hinv, hsource]
  cases hfound : (types.targets l').find? (namesLink l') with
  | none => exact absurd hnames (List.find?_eq_none.1 hfound p hmem)
  | some back =>
    rw [claimed_of_named hinv' hfound, ← hpath]
    exact namesLink_unique hn hu (List.mem_of_find?_eq_some hfound) hmem (List.find?_some hfound) hnames

/-- A link without a declared inverse is not claimed by one without, either. -/
theorem claimed_ne_path (hn : types.Named) (hu : types.Unambiguous) (hl : l ∈ types.allLinks) (hl' : l' ∈ types.allLinks)
    (htarget : l'.target = l.source) (hinv : l.inverse = none) (hinv' : l'.inverse = none) : claimed types l' ≠ l.path := by
  obtain ⟨x, hx, p, hp, hlink⟩ := FlatTypes.mem_allLinks.1 hl
  obtain ⟨hr, href, hsrc, hpath, hpinv⟩ := declaredLink_eq_some.1 hlink
  have hmem : p ∈ types.targets l' := mem_targets hn hx hp (htarget.trans hsrc.symm)
  cases hfound : (types.targets l').find? (namesLink l') with
  | none =>
    rw [claimed_of_unnamed hinv' hfound, ← hpath]
    exact (hu.free l' hl' hinv' (fun q hq => by simpa using List.find?_eq_none.1 hfound q hq) p hmem).symm
  | some back =>
    rw [claimed_of_named hinv' hfound]
    intro hname
    have hbackp : back = p := targets_unique hn (List.mem_of_find?_eq_some hfound) hmem (hname.trans hpath.symm)
    have hbackNames := List.find?_some hfound
    simp [namesLink, hbackp, hpinv, hinv] at hbackNames

theorem pointsBack_settle (hn : types.Named) (hu : types.Unambiguous) (hl : l ∈ types.allLinks)
    (hinv : l.inverse = some p.name) : pointsBack l (settle types l.target p) = pointsBack l p := by
  cases hlink : declaredLink l.target p with
  | none => rw [settle_of_none hlink]
  | some l' =>
    rw [settle_of_link hlink]
    obtain ⟨hr, href, hsource, hpath, hpinv⟩ := declaredLink_eq_some.1 hlink
    by_cases hback : l'.target = l.source
    · cases hinv' : l'.inverse with
      | some inverse => simp [pointsBack, hpinv, hinv', claimed_of_declared hinv']
      | none =>
        have hclaimed := claimed_of_named_by hn hu hl hback hsource.symm (hinv.trans (congrArg some hpath)) hinv'
        simp [pointsBack, hr, href, hback, hpinv, hinv', hclaimed]
    · simp [pointsBack, href, hback]

theorem namesLink_settle (hn : types.Named) (hu : types.Unambiguous) (hl : l ∈ types.allLinks) (hp : p ∈ types.targets l)
    (hinv : l.inverse = none) : namesLink l (settle types l.target p) = namesLink l p := by
  cases hlink : declaredLink l.target p with
  | none => rw [settle_of_none hlink]
  | some l' =>
    rw [settle_of_link hlink]
    obtain ⟨hr, href, hsource, hpath, hpinv⟩ := declaredLink_eq_some.1 hlink
    by_cases hback : l'.target = l.source
    · cases hinv' : l'.inverse with
      | some inverse => simp [namesLink, hpinv, hinv', claimed_of_declared hinv']
      | none =>
        obtain ⟨ps, hps, hmem⟩ := of_mem_targets hn hp
        have hl' : l' ∈ types.allLinks := FlatTypes.mem_allLinks.2 ⟨_, hps, p, hmem, hlink⟩
        have hclaimed := claimed_ne_path hn hu hl hl' hback hinv hinv'
        simp [namesLink, hpinv, hinv', hclaimed]
    · simp [namesLink, href, hback]

/-- What was named before does not change the choice of an inverse. -/
theorem chooseInverse_mapEach (hn : types.Named) (hu : types.Unambiguous) (hg : Settling types g) (hl : l ∈ types.allLinks) :
    chooseInverse (types.mapEach g) l = chooseInverse types l := by
  unfold chooseInverse
  rw [← FlatTypes.targets, ← FlatTypes.targets, targets_mapEach]
  cases hinv : l.inverse with
  | some inverse =>
    have htest : ((fun p : FlatProp => decide (p.name = inverse)) ∘ g l.target) = fun p => decide (p.name = inverse) :=
      funext fun p => by rw [Function.comp_apply, hg.name]
    simp only [List.find?_map, htest, inverseOf_mapEach hg]
    cases hfound : (types.targets l).find? (·.name = inverse) with
    | none => rfl
    | some existing =>
      have hname := List.find?_some hfound
      simp only [decide_eq_true_eq] at hname
      have hback : pointsBack l (g l.target existing) = pointsBack l existing := by
        rcases hg l.target existing with h | h
        · rw [h]
        · rw [h, pointsBack_settle hn hu hl (hinv.trans (congrArg some hname.symm))]
      simp only [Option.map_some, hback]
  | none =>
    have hnames : ∀ p ∈ types.targets l, namesLink l (g l.target p) = namesLink l p := fun p hp => by
      rcases hg l.target p with h | h
      · rw [h]
      · rw [h, namesLink_settle hn hu hl hp hinv]
    have hfind : ((types.targets l).map (g l.target)).find? (namesLink l) =
        ((types.targets l).find? (namesLink l)).map (g l.target) := by
      rw [List.find?_map]
      exact congrArg (Option.map (g l.target)) (List.find?_congr hnames)
    simp only [hfind, inverseOf_mapEach hg]
    cases (types.targets l).find? (namesLink l) with
    | none => rfl
    | some back => simp only [Option.map_some, hg.name]

/-- The links of some properties have the claimed inverses. -/
def settleAt (types : FlatTypes) (ls : List Link) (g : String → FlatProp → FlatProp) (type : String) (p : FlatProp) : FlatProp :=
  if ls.any fun l => l.source = type ∧ l.path = p.name then settle types type p else g type p

theorem settling_settleAt (hg : Settling types g) (ls : List Link) : Settling types (settleAt types ls g) := by
  intro type p
  unfold settleAt
  split
  · exact .inr rfl
  · exact hg type p

theorem settleAt_settleAt (types : FlatTypes) (l : Link) (ls : List Link) (g : String → FlatProp → FlatProp) :
    settleAt types ls (settleAt types [l] g) = settleAt types (l :: ls) g := by
  funext type p
  unfold settleAt
  rw [List.any_cons, List.any_cons, List.any_nil, Bool.or_false]
  cases ls.any fun m => m.source = type ∧ m.path = p.name <;> simp

/-- Naming the claimed inverse of a link settles its property. -/
theorem modifyProp_claimed (hn : types.Named) (hg : Settling types g) (hl : l ∈ types.allLinks) :
    (types.mapEach g).modifyProp l.source l.path
      (fun p => { p with options := { p.options with inverse := some (claimed types l) } }) =
      types.mapEach (settleAt types [l] g) := by
  rw [FlatTypes.modifyProp_eq (hn.mapEach hg.name), FlatTypes.mapEach_mapEach]
  refine FlatTypes.mapEach_congr fun x hx p hp => ?_
  rw [settleAt, List.any_cons, List.any_nil, Bool.or_false, hg.name]
  by_cases hat : x.1 = l.source ∧ p.name = l.path
  · rw [if_pos hat, if_pos (by simp [hat.1, hat.2]), settle_of_link (declaredLink_of_mem hn hl hx hp hat.1 hat.2)]
    rcases hg x.1 p with h | h
    · rw [h]
    · rw [h, settle_of_link (declaredLink_of_mem hn hl hx hp hat.1 hat.2)]
  · rw [if_neg hat, if_neg fun h => hat ?_]
    rw [decide_eq_true_eq] at h
    exact ⟨h.1.symm, h.2.symm⟩

/-- A link is given the inverse that it claims in the declared types. -/
theorem resolveLink_eq_ok (hn : types.Named) (hu : types.Unambiguous) (hg : Settling types g) (hl : l ∈ types.allLinks)
    {added : List (String × FlatProp)} {r : Resolution} :
    resolveLink ⟨types.mapEach g, added⟩ l = .ok r ↔ types.Answers l ∧
      r = ⟨types.mapEach (settleAt types [l] g), added ++ ((newInverse types l).map (l.target, ·)).toList⟩ := by
  unfold resolveLink
  rw [Except.bind_eq_ok]
  simp only [chooseInverse_mapEach hn hu hg hl, chooseInverse_eq_ok hu hl]
  rw [← modifyProp_claimed hn hg hl]
  constructor
  · rintro ⟨_, ⟨hanswers, rfl⟩, h⟩
    exact ⟨hanswers, (Except.ok.inj h).symm⟩
  · rintro ⟨hanswers, rfl⟩
    exact ⟨_, ⟨hanswers, rfl⟩, rfl⟩

/-- One link after the other is given the inverse that it claims in the declared types. -/
theorem foldlM_resolveLink (hn : types.Named) (hu : types.Unambiguous) {ls : List Link} (hls : ∀ l ∈ ls, l ∈ types.allLinks)
    (hg : Settling types g) {added : List (String × FlatProp)} {r : Resolution} :
    ls.foldlM resolveLink ⟨types.mapEach g, added⟩ = .ok r ↔ (∀ l ∈ ls, types.Answers l) ∧
      r = ⟨types.mapEach (settleAt types ls g), added ++ ls.filterMap fun l => (newInverse types l).map (l.target, ·)⟩ := by
  induction ls generalizing g added with
  | nil =>
    rw [List.foldlM_nil, List.filterMap_nil, List.append_nil]
    exact ⟨fun h => ⟨fun _ h => absurd h List.not_mem_nil, (Except.ok.inj h).symm⟩, fun h => congrArg Except.ok h.2.symm⟩
  | cons l ls ih =>
    have hl := hls l List.mem_cons_self
    have hrest : ls.foldlM resolveLink
        ⟨types.mapEach (settleAt types [l] g), added ++ ((newInverse types l).map (l.target, ·)).toList⟩ = .ok r ↔ _ :=
      ih (fun m hm => hls m (List.mem_cons_of_mem _ hm)) (settling_settleAt hg [l])
    have hadded : added ++ ((newInverse types l).map (l.target, ·)).toList ++
        ls.filterMap (fun l => (newInverse types l).map (l.target, ·)) =
        added ++ (l :: ls).filterMap fun l => (newInverse types l).map (l.target, ·) := by
      rw [List.append_assoc, List.filterMap_cons]
      cases newInverse types l <;> rfl
    rw [settleAt_settleAt, hadded] at hrest
    rw [List.foldlM_cons, Except.bind_eq_ok, List.forall_mem_cons]
    constructor
    · rintro ⟨_, hr, h⟩
      obtain ⟨hanswers, rfl⟩ := (resolveLink_eq_ok hn hu hg hl).1 hr
      obtain ⟨hall, rfl⟩ := hrest.1 h
      exact ⟨⟨hanswers, hall⟩, rfl⟩
    · rintro ⟨⟨hanswers, hall⟩, rfl⟩
      exact ⟨_, (resolveLink_eq_ok hn hu hg hl).2 ⟨hanswers, rfl⟩, hrest.2 ⟨hall, rfl⟩⟩

/-! ### Adding inverses -/

/-- Properties whose paths are free are put behind those of their types. -/
theorem foldl_addProp {ts : FlatTypes} (hn : (ts.map (·.1)).Nodup) {xs : List (String × FlatProp)}
    (hfree : ∀ x ∈ xs, ∀ ps, (x.1, ps) ∈ ts → ∀ p ∈ ps, p.path ≠ x.2.path)
    (happart : xs.Pairwise fun x y => x.1 = y.1 → x.2.path ≠ y.2.path) :
    xs.foldl (fun ts (x : String × FlatProp) => addProp ts x.1 x.2) ts =
      ts.mapProps fun type ps => ps ++ (xs.filter (·.1 = type)).map (·.2) := by
  induction xs generalizing ts with
  | nil => simp [FlatTypes.mapProps]
  | cons x xs ih =>
    obtain ⟨hx, hxs⟩ := List.pairwise_cons.1 happart
    have hadd : addProp ts x.1 x.2 = ts.mapProps fun type ps => if type = x.1 then ps ++ [x.2] else ps := by
      rw [addProp, FlatTypes.modifyType_eq hn]
      refine FlatTypes.mapProps_congr fun y hy => ?_
      by_cases htype : y.1 = x.1
      · have hnone : ¬(y.2.any fun p => p.path = x.2.path) = true := fun h => by
          obtain ⟨p, hp, hpath⟩ := List.any_eq_true.1 h
          exact hfree x List.mem_cons_self y.2 (htype ▸ hy) p hp (by simpa using hpath)
        rw [if_pos htype, if_pos htype, if_neg hnone]
      · rw [if_neg htype, if_neg htype]
    rw [List.foldl_cons, hadd, ih (by rw [FlatTypes.names_mapProps]; exact hn) ?_ hxs, FlatTypes.mapProps_mapProps]
    · refine FlatTypes.mapProps_congr fun y _ => ?_
      by_cases htype : y.1 = x.1
      · simp [htype, List.append_assoc]
      · simp [htype, Ne.symm htype]
    · intro y hy ps hps p hp
      obtain ⟨qs, hqs, rfl⟩ := FlatTypes.mem_mapProps.1 hps
      split at hp
      · rename_i htype
        rcases List.mem_append.1 hp with hp | hp
        · exact hfree y (List.mem_cons_of_mem _ hy) _ hqs p hp
        · rw [List.mem_singleton.1 hp]
          exact hx y hy htype.symm
      · exact hfree y (List.mem_cons_of_mem _ hy) _ hqs p hp

theorem nodup_allLinks (hn : types.Named) : types.allLinks.Nodup := by
  refine List.nodup_flatMap.2 ⟨fun x hx => ?_, ?_⟩
  · have hnames : x.2.Pairwise fun p q => p.name ≠ q.name := List.pairwise_map.1 (hn.props x hx)
    refine hnames.filterMap _ fun p q hne l hl l' hl' heq => hne ?_
    have h := (declaredLink_eq_some.1 (Option.mem_def.1 hl)).2.2.2.1
    have h' := (declaredLink_eq_some.1 (Option.mem_def.1 hl')).2.2.2.1
    rw [h, h', heq]
  · have hnames : types.Pairwise fun x y => x.1 ≠ y.1 := List.pairwise_map.1 hn.names
    refine hnames.imp fun hne l hl hl' => hne ?_
    obtain ⟨p, -, hp⟩ := List.mem_filterMap.1 hl
    obtain ⟨q, -, hq⟩ := List.mem_filterMap.1 hl'
    rw [(declaredLink_eq_some.1 hp).2.2.1, (declaredLink_eq_some.1 hq).2.2.1]

/-- The properties that are added to a type. -/
def addedTo (types : FlatTypes) (type : String) : List FlatProp :=
  (types.allLinks.filter (·.target = type)).filterMap (newInverse types)

/-- The types with all inverses named and added. -/
def complete (types : FlatTypes) : FlatTypes :=
  types.mapProps fun type ps => ps.map (settle types type) ++ addedTo types type

theorem newInverse_eq_some : newInverse types l = some p ↔
    (∀ q ∈ types.targets l, q.name ≠ claimed types l) ∧ p = inverseOf types l (claimed types l) := by
  constructor
  · intro h
    have hlacking : ∀ q ∈ types.targets l, q.name ≠ claimed types l := fun q hq hname => by
      rw [newInverse_of_found hq hname] at h
      cases h
    rw [newInverse_of_lacking hlacking] at h
    exact ⟨hlacking, (Option.some.inj h).symm⟩
  · rintro ⟨hlacking, rfl⟩
    exact newInverse_of_lacking hlacking

/-- Adding all inverses completes the types. -/
theorem foldl_newInverse (hn : types.Named) (hu : types.Unambiguous) :
    (types.allLinks.filterMap fun l => (newInverse types l).map (l.target, ·)).foldl
      (fun ts (x : String × FlatProp) => addProp ts x.1 x.2) (types.mapEach (settle types)) = complete types := by
  have hnew : ∀ {l : Link} {x : String × FlatProp}, (newInverse types l).map (l.target, ·) = some x →
      (∀ q ∈ types.targets l, q.name ≠ claimed types l) ∧ x.1 = l.target ∧ x.2.path = Path.split (claimed types l) := by
    intro l x hx
    obtain ⟨p, hp, rfl⟩ := Option.map_eq_some_iff.1 hx
    obtain ⟨hlacking, rfl⟩ := newInverse_eq_some.1 hp
    exact ⟨hlacking, rfl, rfl⟩
  rw [foldl_addProp (by rw [FlatTypes.mapEach, FlatTypes.names_mapProps]; exact hn.names) ?_ ?_]
  · rw [FlatTypes.mapEach, FlatTypes.mapProps_mapProps, complete]
    refine FlatTypes.mapProps_congr fun x _ => congrArg (x.2.map (settle types x.1) ++ ·) ?_
    rw [addedTo, List.filter_filterMap, List.filterMap_filter, List.map_filterMap]
    refine congrArg (List.filterMap · types.allLinks) (funext fun l => ?_)
    cases newInverse types l with
    | none => simp
    | some p => by_cases htarget : l.target = x.1 <;> simp [htarget]
  · intro x hx ps hps p hp
    obtain ⟨l, -, hl⟩ := List.mem_filterMap.1 hx
    obtain ⟨hlacking, htarget, hpath⟩ := hnew hl
    obtain ⟨qs, hqs, rfl⟩ := FlatTypes.mem_mapProps.1 hps
    obtain ⟨q, hq, rfl⟩ := List.mem_map.1 hp
    rw [((settling_settle types).kept x.1 q).1, hpath]
    refine fun heq => hlacking q (mem_targets hn hqs hq htarget.symm) ?_
    rw [FlatProp.name, heq, Path.join_split]
  · have hclaims : types.allLinks.Pairwise fun l l' => l.target = l'.target → claimed types l ≠ claimed types l' :=
      (nodup_allLinks hn).imp_of_mem fun hl hl' hne htarget hclaimed => hne (hu.single _ hl _ hl' htarget hclaimed)
    refine hclaims.filterMap _ fun l l' hne x hx y hy htype hpath => ?_
    obtain ⟨-, htarget, hx⟩ := hnew hx
    obtain ⟨-, htarget', hy⟩ := hnew hy
    refine hne (htarget.symm.trans (htype.trans htarget')) ?_
    rw [← Path.join_split (claimed types l), ← hx, hpath, hy, Path.join_split]

theorem mapEach_settleAt (types : FlatTypes) :
    types.mapEach (settleAt types types.allLinks fun _ p => p) = types.mapEach (settle types) := by
  refine FlatTypes.mapEach_congr fun x hx p hp => ?_
  unfold settleAt
  split
  · rfl
  · rename_i hnone
    cases hlink : declaredLink x.1 p with
    | none => rw [settle_of_none hlink]
    | some l =>
      obtain ⟨-, -, hsource, hpath, -⟩ := declaredLink_eq_some.1 hlink
      refine absurd (List.any_eq_true.2 ⟨l, FlatTypes.mem_allLinks.2 ⟨x, hx, p, hp, hlink⟩, ?_⟩) hnone
      rw [decide_eq_true_eq]
      exact ⟨hsource.symm, hpath.symm⟩

/-- Where no two references claim the same property, inverses are resolved as long as every reference leads to a type and
what it names as its inverse answers it; the outcome is the completed types with their edges shared. -/
theorem resolveInverses_eq_ok (hn : types.Named) (hu : types.Unambiguous) {out : FlatTypes} :
    resolveInverses types = .ok out ↔
      types.Targeted ∧ (∀ l ∈ types.allLinks, types.Answers l) ∧ out = shareEdges (complete types) := by
  have hid : Settling types fun _ p => p := fun _ _ => .inl rfl
  have hfold : ∀ r, types.allLinks.foldlM resolveLink ⟨types, []⟩ = .ok r ↔ (∀ l ∈ types.allLinks, types.Answers l) ∧
      r = ⟨types.mapEach (settle types), types.allLinks.filterMap fun l => (newInverse types l).map (l.target, ·)⟩ := by
    intro r
    have h : types.allLinks.foldlM resolveLink ⟨types.mapEach fun _ p => p, []⟩ = .ok r ↔ _ :=
      foldlM_resolveLink hn hu (fun _ hl => hl) hid
    rwa [FlatTypes.mapEach_id, mapEach_settleAt, List.nil_append] at h
  unfold resolveInverses
  rw [Except.bind_eq_ok]
  simp only [links_eq_ok, Except.bind_eq_ok]
  constructor
  · rintro ⟨ls, ⟨htargeted, rfl⟩, r, hr, h⟩
    obtain ⟨hanswers, rfl⟩ := (hfold r).1 hr
    rw [← foldl_newInverse hn hu]
    exact ⟨htargeted, hanswers, (Except.ok.inj h).symm⟩
  · rintro ⟨htargeted, hanswers, rfl⟩
    rw [← foldl_newInverse hn hu]
    exact ⟨_, ⟨htargeted, rfl⟩, _, (hfold _).2 ⟨hanswers, rfl⟩, rfl⟩

end NodeStore.Schema
