import Mathlib.Data.List.Induction
import NodeStore.Proofs.Query.Meaning
import NodeStore.Proofs.Schema.Placement

/-!
# Groups of conditions

Adding the conditions of a conjunction one by one sorts them by where their paths lead, each kind in its own order.

* `Group.insert_eq`: one condition, by the place that its path leads to.
* `groupOf`: the conditions of a list; `tests_groupOf`, `find?_links_groupOf`, `edges_groupOf` say what it holds.
* `Filter.group_eq`: the group of a filter is that of its conditions, with its disjunctions.
-/

namespace NodeStore.Query

variable {s : Scope}

namespace Group

/-- A condition is put where its path leads. -/
theorem insert_eq (s : Scope) (path : List String) (operator : Operator) (value : Value) (g : Group) :
    g.insert s path operator value =
      match s.resolve path with
      | .field f => g.addTest (.condition f operator value)
      | .through p slot target rest => g.setBehind p slot ((g.behind slot).insert target rest operator value)
      | .edge edges rest => { g with edges := some ((g.edges.getD {}).insert (s.ofEdges edges) rest operator value) }
      | .nowhere => g.addTest (.fault (s.unknown path)) := by
  rw [insert.eq_def]
  unfold Scope.resolve
  cases path with
  | nil => rfl
  | cons first more =>
    dsimp only
    cases edgeName? first with
    | some inverse =>
      dsimp only
      split
      · rename_i he
        rw [he]
      · rename_i he
        rw [he]
    | none =>
      dsimp only
      split
      · rfl
      · split
        · rename_i hp
          rw [hp]
        · rename_i p n hp
          rw [hp]
          dsimp only
          split
          · rfl
          · cases p.type.isReference <;> cases p.slot? <;> cases s.through? p <;> rfl

/-- Adds some conditions. -/
def insertAll (s : Scope) : List Criterion → Group → Group
  | [], g => g
  | c :: cs, g => insertAll s cs (g.insert s c.path c.operator c.value)

theorem insertAll_append (s : Scope) (cs ds : List Criterion) (g : Group) :
    insertAll s (cs ++ ds) g = insertAll s ds (insertAll s cs g) := by
  induction cs generalizing g with
  | nil => rfl
  | cons c cs ih => exact ih _

end Group

/-- The group of some conditions. -/
def groupOf (s : Scope) (cs : List Criterion) : Group := Group.insertAll s cs {}

theorem groupOf_append (s : Scope) (cs : List Criterion) (c : Criterion) :
    groupOf s (cs ++ [c]) = (groupOf s cs).insert s c.path c.operator c.value := Group.insertAll_append ..

/-- The test of a condition that leads to a field or nowhere. -/
def Scope.test? (s : Scope) (c : Criterion) : Option Test :=
  match s.resolve c.path with
  | .field f => some (.condition f c.operator c.value)
  | .nowhere => some (.fault (s.unknown c.path))
  | _ => none

theorem Scope.behind_append (s : Scope) (slot : UInt8) (cs : List Criterion) (c : Criterion) :
    s.behind slot (cs ++ [c]) = s.behind slot cs ++ s.behind slot [c] := List.filterMap_append ..

theorem Scope.onEdge_append (s : Scope) (cs : List Criterion) (c : Criterion) :
    s.onEdge (cs ++ [c]) = s.onEdge cs ++ s.onEdge [c] := List.filterMap_append ..

/-! ## What a group holds -/

theorem choices_groupOf (s : Scope) (cs : List Criterion) : (groupOf s cs).choices = [] := by
  induction cs using List.reverseRecOn with
  | nil => rfl
  | append_singleton cs c ih =>
    rw [groupOf_append, Group.insert_eq]
    split <;> exact ih

theorem tests_groupOf (s : Scope) (cs : List Criterion) : (groupOf s cs).tests = cs.filterMap s.test? := by
  induction cs using List.reverseRecOn with
  | nil => rfl
  | append_singleton cs c ih =>
    rw [groupOf_append, Group.insert_eq, List.filterMap_append, ← ih]
    cases h : s.resolve c.path <;> simp [Scope.test?, h, Group.addTest, Group.setBehind]

theorem edges_groupOf {edges : EdgeLayout} (he : s.edges = some edges) (cs : List Criterion) :
    (groupOf s cs).edges = if s.onEdge cs = [] then none else some (groupOf (s.ofEdges edges) (s.onEdge cs)) := by
  induction cs using List.reverseRecOn with
  | nil => rfl
  | append_singleton cs c ih =>
    rw [groupOf_append, Group.insert_eq, Scope.onEdge_append]
    cases h : s.resolve c.path with
    | edge edges' rest =>
      obtain rfl : edges' = edges := Option.some.inj ((Scope.length_of_edge h).2.symm.trans he)
      have hon : s.onEdge [c] = [{ c with path := rest }] := by simp [Scope.onEdge, h]
      rw [hon, if_neg (by simp), groupOf_append]
      dsimp only
      rw [ih]
      split
      · rename_i hnil
        rw [hnil]
        rfl
      · rfl
    | _ =>
      have hon : s.onEdge [c] = [] := by simp [Scope.onEdge, h]
      rw [hon, List.append_nil]
      exact ih

theorem edges_groupOf_none (he : s.edges = none) (cs : List Criterion) : (groupOf s cs).edges = none := by
  induction cs using List.reverseRecOn with
  | nil => rfl
  | append_singleton cs c ih =>
    rw [groupOf_append, Group.insert_eq]
    cases h : s.resolve c.path with
    | edge edges' rest =>
      have := (Scope.length_of_edge h).2
      rw [he] at this
      cases this
    | _ => exact ih

/-! ### References -/

/-- The slot tells which reference a path leads through. -/
theorem through_unique (hp : s.layout.Placed) {path path' rest rest' : List String} {p p' : PropDef EdgeLayout}
    {slot : UInt8} {target target' : Scope} (h : s.resolve path = .through p slot target rest)
    (h' : s.resolve path' = .through p' slot target' rest') : p = p' ∧ target = target' := by
  obtain ⟨-, hslot, htarget, n, hn, -⟩ := Scope.reference_of_resolve h
  obtain ⟨-, hslot', htarget', n', hn', -⟩ := Scope.reference_of_resolve h'
  obtain rfl := hp.slot_unique (Layout.mem_of_longestProp? hn) (Layout.mem_of_longestProp? hn') hslot hslot'
  rw [htarget] at htarget'
  exact ⟨rfl, Option.some.inj htarget'⟩

theorem mem_behind {cs : List Criterion} {d : Criterion} {slot : UInt8} :
    d ∈ s.behind slot cs ↔ ∃ c ∈ cs, ∃ p target, s.resolve c.path = .through p slot target d.path ∧
      c.operator = d.operator ∧ c.value = d.value := by
  unfold Scope.behind
  rw [List.mem_filterMap]
  constructor
  · rintro ⟨c, hc, hd⟩
    split at hd
    · rename_i p slot' target rest hr
      split at hd
      · rename_i hslot
        cases hd
        exact ⟨c, hc, p, target, hslot ▸ hr, rfl, rfl⟩
      · cases hd
    · cases hd
  · rintro ⟨c, hc, p, target, hr, ho, hv⟩
    refine ⟨c, hc, ?_⟩
    rw [hr]
    dsimp only
    rw [if_pos rfl, ho, hv]

theorem mem_onEdge {cs : List Criterion} {c : Criterion} (hc : c ∈ cs) {edges : EdgeLayout} {rest : List String}
    (h : s.resolve c.path = .edge edges rest) : { c with path := rest } ∈ s.onEdge cs :=
  List.mem_filterMap.2 ⟨c, hc, by rw [h]⟩

theorem exists_of_onEdge {cs : List Criterion} (h : s.onEdge cs ≠ []) :
    ∃ c ∈ cs, ∃ edges rest, s.resolve c.path = .edge edges rest := by
  obtain ⟨d, hd⟩ := List.exists_mem_of_ne_nil _ h
  obtain ⟨c, hc, hd⟩ := List.mem_filterMap.1 hd
  split at hd
  · rename_i edges rest hr
    exact ⟨c, hc, edges, rest, hr⟩
  · cases hd

theorem behind_singleton {c : Criterion} {p : PropDef EdgeLayout} {slot : UInt8} {target : Scope}
    {rest : List String} (h : s.resolve c.path = .through p slot target rest) (j : UInt8) :
    s.behind j [c] = if j = slot then [{ c with path := rest }] else [] := by
  by_cases hj : j = slot
  · simp [Scope.behind, h, hj]
  · simp [Scope.behind, h, hj, Ne.symm hj]

/-- The conditions that lead through a reference are in the group behind it. -/
theorem find?_links_groupOf (hp : s.layout.Placed) (cs : List Criterion) :
    Assoc.Sorted (groupOf s cs).links ∧
      (∀ slot, s.behind slot cs = [] → Assoc.find? slot (groupOf s cs).links = none) ∧
      ∀ c ∈ cs, ∀ p slot target rest, s.resolve c.path = .through p slot target rest →
        Assoc.find? slot (groupOf s cs).links = some ⟨p, groupOf target (s.behind slot cs)⟩ := by
  induction cs using List.reverseRecOn with
  | nil => exact ⟨List.Pairwise.nil, fun _ _ => rfl, nofun⟩
  | append_singleton cs c ih =>
    obtain ⟨hsorted, hnone, hsome⟩ := ih
    rw [groupOf_append, Group.insert_eq]
    cases h : s.resolve c.path with
    | through p slot target rest =>
      -- The group behind the slot so far is that of the conditions that came before.
      have hbehind : (groupOf s cs).behind slot = groupOf target (s.behind slot cs) := by
        unfold Group.behind
        cases hcs : s.behind slot cs with
        | nil =>
          rw [hnone slot hcs]
          rfl
        | cons d ds =>
          obtain ⟨c', hc', p', target', hr, -⟩ := mem_behind.1 (hcs ▸ List.mem_cons_self : d ∈ s.behind slot cs)
          obtain ⟨rfl, rfl⟩ := through_unique hp h hr
          rw [hsome c' hc' _ _ _ _ hr, ← hcs]
          rfl
      have hfind : ∀ j, Assoc.find? j ((groupOf s cs).setBehind p slot
          (((groupOf s cs).behind slot).insert target rest c.operator c.value)).links =
          if j = slot then some ⟨p, groupOf target (s.behind slot (cs ++ [c]))⟩
          else Assoc.find? j (groupOf s cs).links := by
        intro j
        rw [Group.setBehind, Assoc.find?_insert, hbehind, Scope.behind_append, behind_singleton h, if_pos rfl,
          groupOf_append]
      have hother : ∀ j, j ≠ slot → s.behind j (cs ++ [c]) = s.behind j cs := fun j hj => by
        rw [Scope.behind_append, behind_singleton h, if_neg hj, List.append_nil]
      dsimp only
      refine ⟨hsorted.insert _ _, fun j hj => ?_, fun c' hc' p' j target' rest' hr => ?_⟩
      · rw [hfind]
        by_cases hjs : j = slot
        · subst hjs
          rw [Scope.behind_append, behind_singleton h, if_pos rfl] at hj
          simp at hj
        · rw [if_neg hjs, hnone j (hother j hjs ▸ hj)]
      · rw [hfind]
        by_cases hjs : j = slot
        · subst hjs
          obtain ⟨rfl, rfl⟩ := through_unique hp h hr
          rw [if_pos rfl]
        · rw [if_neg hjs, hother j hjs]
          rcases List.mem_append.1 hc' with hc' | hc'
          · exact hsome c' hc' _ _ _ _ hr
          · obtain rfl := List.mem_singleton.1 hc'
            rw [h] at hr
            cases hr
            exact absurd rfl hjs
    | _ =>
      have hsame : ∀ j, s.behind j (cs ++ [c]) = s.behind j cs := fun j => by
        rw [Scope.behind_append, show s.behind j [c] = [] by simp [Scope.behind, h], List.append_nil]
      simp only [hsame]
      refine ⟨hsorted, hnone, fun c' hc' p' j target' rest' hr => ?_⟩
      rcases List.mem_append.1 hc' with hc' | hc'
      · exact hsome c' hc' _ _ _ _ hr
      · obtain rfl := List.mem_singleton.1 hc'
        rw [h] at hr
        cases hr

/-! ## Filters -/

namespace Group

/-- The conditions of a group with other disjunctions. -/
def withChoices (g : Group) (choices : List (Group × Group)) : Group := ⟨g.tests, g.links, g.edges, choices⟩

theorem withChoices_self (g : Group) : g.withChoices g.choices = g := by
  cases g
  rfl

theorem insert_withChoices (s : Scope) (c : Criterion) (g : Group) (choices : List (Group × Group)) :
    (g.withChoices choices).insert s c.path c.operator c.value =
      (g.insert s c.path c.operator c.value).withChoices choices := by
  rw [insert_eq, insert_eq]
  cases s.resolve c.path <;> rfl

theorem choices_insert (s : Scope) (c : Criterion) (g : Group) :
    (g.insert s c.path c.operator c.value).choices = g.choices := by
  rw [insert_eq]
  cases s.resolve c.path <;> rfl

/-- Conditions leave the disjunctions as they are, and do not depend on them. -/
theorem insertAll_withChoices (s : Scope) (cs : List Criterion) (g : Group) (choices : List (Group × Group)) :
    insertAll s cs (g.withChoices choices) = (insertAll s cs g).withChoices choices := by
  induction cs generalizing g with
  | nil => rfl
  | cons c cs ih => rw [insertAll, insert_withChoices, ih, insertAll]

end Group

/-- The groups of the sides of some disjunctions. -/
def choiceGroups (s : Scope) (choices : List (Filter × Filter)) : List (Group × Group) :=
  choices.map fun c => (c.1.group s, c.2.group s)

mutual

/-- Adding a filter is adding its conditions and its disjunctions. -/
theorem Filter.addTo_eq (f : Filter) (g : Group) :
    f.addTo s g = (Group.insertAll s f.criteria g).withChoices (g.choices ++ choiceGroups s f.choices) :=
  match f with
  | .condition field operator value => by
    have hchoices := Group.choices_insert s ⟨Path.split field, operator, value⟩ g
    rw [Filter.addTo, Filter.criteria, Filter.choices, choiceGroups, List.map_nil, List.append_nil, ← hchoices]
    exact (Group.withChoices_self _).symm
  | .all filters => by
    rw [Filter.addTo, Filter.criteria, Filter.choices]
    exact Filter.addAll_eq filters g
  | .either left right => by
    rw [Filter.addTo, Filter.criteria, Filter.choices]
    rfl

theorem Filter.addAll_eq (fs : List Filter) (g : Group) :
    Filter.addAll s fs g = (Group.insertAll s (Filter.criteriaOf fs) g).withChoices
      (g.choices ++ choiceGroups s (Filter.choicesOf fs)) :=
  match fs with
  | [] => by
    rw [Filter.addAll, Filter.criteriaOf, Filter.choicesOf, choiceGroups, List.map_nil, List.append_nil]
    exact (Group.withChoices_self g).symm
  | f :: fs => by
    rw [Filter.addAll, Filter.addAll_eq fs, Filter.addTo_eq f, Group.insertAll_withChoices, Filter.criteriaOf,
      Filter.choicesOf, choiceGroups, choiceGroups, choiceGroups, List.map_append, ← List.append_assoc,
      Group.insertAll_append]
    rfl

end

/-- A filter is grouped as its conditions are, with its disjunctions. -/
theorem Filter.group_eq (s : Scope) (f : Filter) :
    f.group s = (groupOf s f.criteria).withChoices (choiceGroups s f.choices) := by
  rw [Filter.group, Filter.addTo_eq]
  rfl

end NodeStore.Query
