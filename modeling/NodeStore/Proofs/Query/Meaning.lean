import Mathlib.Data.List.Infix
import NodeStore.Engine.Match
import NodeStore.Query.Group

/-!
# What filters mean

A filter is a statement about a node of a store. Its conditions are tested where their paths lead: on the node, on a
node that a reference of it leads to, or on what a link stores. Conditions that lead the same way have to hold together,
and disjunctions have to hold on one of their sides, each with conditions of its own.

* `Held`, `Field.held`: the values of a field; `Field.meant?`: the value that an operand stands for.
* `Field.Satisfies`: one condition.
* `Criterion`, `Filter.criteria`, `Filter.choices`: the conditions and the disjunctions of a conjunction.
* `Scope.resolve`: where a path leads; `Meets`: the conditions of a conjunction.
* `Filter.Holds`: the whole filter.
-/

namespace NodeStore.Query

open Engine

/-! ## Values of fields -/

/-- A value that a field holds. -/
inductive Held where
  | number (x : Engine.Num)
  /-- A truth value, or the number of a label. -/
  | label (i : UInt8)
  | content (bs : Bytes)
  /-- The distinct values that were counted. -/
  | sketch
  deriving DecidableEq, Inhabited

/-- The value in some bytes of a fixed width. -/
def Held.ofBytes? (type : PropType) (bs : Bytes) : Option Held :=
  match type with
  | .boolean | .enum => bs.head?.map .label
  | type => (Engine.Num.ofBytes? type bs).map .number

/-- A node as a value. -/
def Held.node (id : NodeId) : Held := .number (.int id.toNat)

/-- The texts in a locale, or in any. -/
def textsIn (locale : UInt8) (entries : List (UInt8 × String)) : List String :=
  if locale = Locale.none then entries.map (·.2) else (Assoc.find? locale entries).toList

/-- The values of a separate field: none if it is unset, and several for collections and texts. -/
def heldIn {E : Type} (locale : UInt8) : Option (Content E) → List Held
  | none => []
  | some (.ref l) => [.node l.id]
  | some (.refs ls) => ls.map fun l => .node l.id
  | some (.bytes bs) => [.content bs]
  | some (.text entries) => (textsIn locale entries).map fun s => .content (Utf8.encode s)
  | some (.sketch _) => [.sketch]

namespace Field

/-- The values that a node has in a field. -/
def held {E : Type} (locale : UInt8) (id : NodeId) (n : Node E) : Field → List Held
  | .id => [.node id]
  | .prop p =>
    match p.location with
    | .main offset =>
      let bs := (n.main.drop offset).take p.len
      match p.type with
      | .string | .binary => [.content (shortContent bs)]
      | type => (Held.ofBytes? type bs).toList
    | .separate slot => heldIn locale (n.field? slot)

/-- The value that an operand stands for. -/
def meant? (f : Field) (v : Value) : Option Held :=
  let node : Option Held := (f.nodeId v).toOption.map .node
  match f with
  | .id => node
  | .prop p =>
    match p.type with
    | .reference | .references => node
    | .number => v.asDouble?.map fun x => .number (.float x)
    | .boolean =>
      match v with
      | .bool b => some (.label (if b then 1 else 0))
      | _ => none
    | .enum => (v.asString?.bind p.enumIndex?).map .label
    | .string | .alias | .text | .binary => (f.content v).toOption.map .content
    | _ => v.asInt?.map fun i => .number (.int i.toInt)

/-- The order of a value and an operand, if they have one. -/
def order? (f : Field) (v : Value) : Held → Option Ordering
  | .number x =>
    match f.meant? v with
    | some (.number y) => x.compare? y
    | _ => none
  | _ => none

/-- Is a value in a range? The range of doubles reaches from the least one as far as the greatest one is away from it,
which is the greatest one up to rounding. -/
def inRange (f : Field) (least greatest : Value) : Held → Bool
  | .number x =>
    match x, f.meant? least, f.meant? greatest with
    | .int x, some (.number (.int low)), some (.number (.int high)) => low ≤ x && x ≤ high
    | .float x, some (.number (.float low)), some (.number (.float high)) => low.le x && x.le (low.add (high.sub low))
    | _, _, _ => false
  | _ => false

/-- Is an operand part of a content? -/
def isPart (f : Field) (v : Value) : Held → Bool
  | .content bs =>
    match f.meant? v with
    | some (.content part) => part <:+: bs
    | _ => false
  | _ => false

/-- The test of an operator on the values of a field, a negated operator being tested as the one it negates. -/
def test (f : Field) (operator : Operator) (v : Value) (held : List Held) : Bool :=
  let oneOf := held.any fun h => (alternatives v).any fun w => f.meant? w = some h
  match operator with
  | .equal | .notEqual => oneOf
  | .greater => held.any fun h => f.order? v h = some .gt
  | .greaterEq => held.any fun h => f.order? v h = some .gt || f.order? v h = some .eq
  | .less => held.any fun h => f.order? v h = some .lt
  | .lessEq => held.any fun h => f.order? v h = some .lt || f.order? v h = some .eq
  | .between =>
    match alternatives v with
    | [least, greatest] => held.any (f.inRange least greatest)
    | _ => false
  | .includes | .notIncludes => if f.type = .references then oneOf else held.any (f.isPart v)
  | .exists | .notExists => !held.isEmpty

/-- A condition on a node: a negated operator holds where the one that it negates does not. -/
def Satisfies {E : Type} (f : Field) (operator : Operator) (v : Value) (locale : UInt8) (id : NodeId) (n : Node E) :
    Prop :=
  if operator.negated then f.test operator v (f.held locale id n) = false
  else f.test operator v (f.held locale id n) = true

end Field

/-! ## Conjunctions -/

/-- A condition of a filter. -/
structure Criterion where
  path : List String
  operator : Operator
  value : Value

mutual

/-- The conditions of a conjunction, those of the conjunctions in it included. -/
def Filter.criteria : Filter → List Criterion
  | .condition field operator value => [⟨Path.split field, operator, value⟩]
  | .all filters => Filter.criteriaOf filters
  | .either _ _ => []

def Filter.criteriaOf : List Filter → List Criterion
  | [] => []
  | f :: fs => f.criteria ++ Filter.criteriaOf fs

end

mutual

/-- The disjunctions of a conjunction. -/
def Filter.choices : Filter → List (Filter × Filter)
  | .condition .. => []
  | .all filters => Filter.choicesOf filters
  | .either left right => [(left, right)]

def Filter.choicesOf : List Filter → List (Filter × Filter)
  | [] => []
  | f :: fs => f.choices ++ Filter.choicesOf fs

end

mutual

/-- The sides of a disjunction are parts of the filter. -/
theorem Filter.sizeOf_choices (f : Filter) : ∀ c ∈ f.choices, sizeOf c.1 < sizeOf f ∧ sizeOf c.2 < sizeOf f :=
  match f with
  | .condition .. => nofun
  | .all filters => fun c hc => by
    have := Filter.sizeOf_choicesOf filters c hc
    simp only [all.sizeOf_spec]
    omega
  | .either left right => fun c hc => by
    obtain rfl := List.mem_singleton.1 hc
    simp only [either.sizeOf_spec]
    omega

theorem Filter.sizeOf_choicesOf (fs : List Filter) :
    ∀ c ∈ Filter.choicesOf fs, sizeOf c.1 < sizeOf fs ∧ sizeOf c.2 < sizeOf fs :=
  match fs with
  | [] => nofun
  | f :: fs => fun c hc => by
    simp only [List.cons.sizeOf_spec]
    rcases List.mem_append.1 hc with hc | hc
    · have := Filter.sizeOf_choices f c hc
      omega
    · have := Filter.sizeOf_choicesOf fs c hc
      omega

end

/-! ## Paths -/

/-- Where a path leads. -/
inductive Place where
  /-- To a field of the node. -/
  | field (f : Field)
  /-- Through a reference, to a path from the nodes that it leads to. -/
  | through (p : PropDef EdgeLayout) (slot : UInt8) (target : Scope) (rest : List String)
  /-- To a path from what the link stores. -/
  | edge (edges : EdgeLayout) (rest : List String)
  | nowhere

namespace Scope

/-- Where a path leads: names are matched as far as they go. -/
def resolve (s : Scope) : List String → Place
  | [] => .nowhere
  | first :: more =>
    match edgeName? first with
    | some name =>
      match s.edges with
      | none => .nowhere
      | some edges => .edge edges (name :: more)
    | none =>
      if first = "id" ∧ more.isEmpty ∧ !s.layout.isEdge then .field .id
      else
        match s.layout.longestProp? (first :: more) with
        | none => .nowhere
        | some (p, n) =>
          if n = more.length + 1 then .field (.prop p)
          else
            match p.type.isReference, p.slot?, s.through? p with
            | true, some slot, some target => .through p slot target ((first :: more).drop n)
            | _, _, _ => .nowhere

/-- The conditions that lead through the reference of a slot, from there on. -/
def behind (s : Scope) (slot : UInt8) (cs : List Criterion) : List Criterion :=
  cs.filterMap fun c =>
    match s.resolve c.path with
    | .through _ slot' _ rest => if slot' = slot then some { c with path := rest } else none
    | _ => none

/-- The conditions on what the link stores. -/
def onEdge (s : Scope) (cs : List Criterion) : List Criterion :=
  cs.filterMap fun c =>
    match s.resolve c.path with
    | .edge _ rest => some { c with path := rest }
    | _ => none

variable {s : Scope} {path rest : List String}

theorem field_of_resolve {f : Field} (h : s.resolve path = .field f) :
    f = .id ∨ ∃ p n, f = .prop p ∧ s.layout.longestProp? path = some (p, n) := by
  unfold resolve at h
  repeat' split at h
  all_goals cases h
  · exact .inl rfl
  · rename_i hp _
    exact .inr ⟨_, _, rfl, hp⟩

theorem reference_of_resolve {p : PropDef EdgeLayout} {slot : UInt8} {target : Scope}
    (h : s.resolve path = .through p slot target rest) :
    p.type.isReference = true ∧ p.slot? = some slot ∧ s.through? p = some target ∧
      ∃ n, s.layout.longestProp? path = some (p, n) ∧ rest = path.drop n := by
  unfold resolve at h
  repeat' split at h
  all_goals cases h
  rename_i hp hr hslot htarget
  exact ⟨hr, hslot, htarget, _, hp, rfl⟩

theorem length_of_through {p : PropDef EdgeLayout} {slot : UInt8} {target : Scope}
    (h : s.resolve path = .through p slot target rest) : rest.length < path.length := by
  obtain ⟨-, -, -, n, hp, rfl⟩ := reference_of_resolve h
  have hpos := Layout.longestProp?_pos hp
  cases path with
  | nil => cases h
  | cons first more =>
    rw [List.length_drop, List.length_cons]
    omega

theorem length_of_edge {edges : EdgeLayout} (h : s.resolve path = .edge edges rest) :
    rest.length = path.length ∧ s.edges = some edges := by
  unfold resolve at h
  repeat' split at h
  all_goals cases h
  rename_i he
  exact ⟨rfl, he⟩

end Scope

/-- The segments of all paths. -/
def segments (cs : List Criterion) : Nat := cs.foldr (fun c n => c.path.length + n) 0

@[simp] theorem segments_cons (c : Criterion) (cs : List Criterion) :
    segments (c :: cs) = c.path.length + segments cs := by
  simp [segments]

theorem segments_filterMap_le {g : Criterion → Option Criterion} {cs : List Criterion}
    (h : ∀ c ∈ cs, ∀ d, g c = some d → d.path.length ≤ c.path.length) : segments (cs.filterMap g) ≤ segments cs := by
  induction cs with
  | nil => exact Nat.le_refl _
  | cons c cs ih =>
    have ih := ih fun d hd => h d (List.mem_cons_of_mem _ hd)
    cases hg : g c with
    | none =>
      rw [List.filterMap_cons_none hg, segments_cons]
      omega
    | some d =>
      have := h c List.mem_cons_self d hg
      rw [List.filterMap_cons_some hg, segments_cons, segments_cons]
      omega

theorem segments_filterMap_lt {g : Criterion → Option Criterion} {cs : List Criterion}
    (h : ∀ c ∈ cs, ∀ d, g c = some d → d.path.length < c.path.length) {c d : Criterion} (hc : c ∈ cs)
    (hg : g c = some d) : segments (cs.filterMap g) < segments cs := by
  induction cs with
  | nil => cases hc
  | cons x cs ih =>
    have hle := segments_filterMap_le fun d hd e he => Nat.le_of_lt (h d (List.mem_cons_of_mem _ hd) e he)
    cases hx : g x with
    | none =>
      rcases List.mem_cons.1 hc with rfl | hc
      · rw [hx] at hg
        cases hg
      · have := ih (fun d hd => h d (List.mem_cons_of_mem _ hd)) hc
        rw [List.filterMap_cons_none hx, segments_cons]
        omega
    | some y =>
      have := h x List.mem_cons_self y hx
      rw [List.filterMap_cons_some hx, segments_cons, segments_cons]
      omega

namespace Scope

variable {s : Scope} {cs : List Criterion} {c : Criterion}

theorem segments_behind {p : PropDef EdgeLayout} {slot : UInt8} {target : Scope} {rest : List String} (hc : c ∈ cs)
    (h : s.resolve c.path = .through p slot target rest) : segments (s.behind slot cs) < segments cs := by
  refine segments_filterMap_lt (fun c _ d hd => ?_) hc (d := { c with path := rest }) (by simp [h])
  split at hd
  · rename_i hr
    split at hd
    · cases hd
      exact length_of_through hr
    · cases hd
  · cases hd

theorem segments_onEdge (s : Scope) (cs : List Criterion) : segments (s.onEdge cs) ≤ segments cs := by
  refine segments_filterMap_le fun c _ d hd => ?_
  split at hd
  · rename_i hr
    cases hd
    exact Nat.le_of_eq (length_of_edge hr).1
  · cases hd

end Scope

/-! ## Meaning -/

/-- The existing nodes that a field of a node leads to, each with what its link stores. -/
def linkedTo (store : Store) (target : Scope) (x : Subject) (slot : UInt8) : List Subject :=
  (x.node.links slot).filterMap fun l =>
    (store.node? target.layout.id l.id).map fun n => ⟨target.layout, l.id, n, do return (← target.edges, ← l.edges)⟩

/-- A node meets the conditions of a conjunction. Those that lead through one reference are met together by one linked
node, and those on the link together by what it stores. -/
def Meets (store : Store) (locale : UInt8) (s : Scope) (x : Subject) (cs : List Criterion) : Prop :=
  (∀ c ∈ cs, ∀ f, s.resolve c.path = .field f → f.Satisfies c.operator c.value locale x.id x.node) ∧
  (∀ c ∈ cs, ∀ p slot target rest, s.resolve c.path = .through p slot target rest →
    ∃ y ∈ linkedTo store target x slot, Meets store locale target y (s.behind slot cs)) ∧
  (∀ c ∈ cs, ∀ edges rest, s.resolve c.path = .edge edges rest →
    ∃ t n, x.edge = some (t, n) ∧ Meets store locale (s.ofEdges edges) (.ofEdge t n) (s.onEdge cs))
  termination_by (segments cs, if s.edges.isSome then 1 else 0)
  decreasing_by
    · exact .left _ _ (Scope.segments_behind ‹_› ‹_›)
    · have hedge : s.resolve c.path = .edge edges rest := ‹_›
      rw [(Scope.length_of_edge hedge).2]
      rcases Nat.lt_or_eq_of_le (s.segments_onEdge cs) with h | h
      · exact .left _ _ h
      · exact h ▸ .right _ (by simp [Scope.ofEdges])

/-- A node passes a filter: it meets the conditions, and for every disjunction it passes one of the sides. -/
def Filter.Holds (store : Store) (locale : UInt8) (s : Scope) (x : Subject) (f : Filter) : Prop :=
  Meets store locale s x f.criteria ∧
    ∀ c ∈ f.choices, c.1.Holds store locale s x ∨ c.2.Holds store locale s x
  termination_by f
  decreasing_by
    · rename_i hc
      exact (f.sizeOf_choices c hc).1
    · rename_i hc
      exact (f.sizeOf_choices c hc).2

/-! ### Combinators -/

namespace Filter

variable {store : Store} {locale : UInt8} {s : Scope} {x : Subject}

theorem meets_nil : Meets store locale s x [] := by
  rw [Meets]
  exact ⟨nofun, nofun, nofun⟩

theorem holds_either {f g : Filter} :
    (either f g).Holds store locale s x ↔ f.Holds store locale s x ∨ g.Holds store locale s x := by
  rw [Holds, criteria, choices]
  exact ⟨fun h => h.2 _ List.mem_cons_self, fun h => ⟨meets_nil, fun c hc => List.mem_singleton.1 hc ▸ h⟩⟩

/-- Leaning chains of disjunctions to the right does not change what they mean. -/
theorem holds_or (f g : Filter) :
    (f.or g).Holds store locale s x ↔ f.Holds store locale s x ∨ g.Holds store locale s x := by
  cases f with
  | either left right =>
    rw [Filter.or, holds_either, holds_either, holds_or right g, or_assoc]
  | condition | all =>
    rw [Filter.or]
    · exact holds_either
    · exact nofun

/-- The conditions of both sides of a conjunction are met together. -/
theorem holds_and (f g : Filter) :
    (f.and g).Holds store locale s x ↔ Meets store locale s x (f.criteria ++ g.criteria) ∧
      ∀ c ∈ f.choices ++ g.choices, c.1.Holds store locale s x ∨ c.2.Holds store locale s x := by
  have hcriteria : ∀ fs : List Filter, criteriaOf (fs ++ [g]) = criteriaOf fs ++ g.criteria := by
    intro fs
    induction fs with
    | nil => simp [criteriaOf]
    | cons f fs ih => rw [List.cons_append, criteriaOf, ih, criteriaOf, List.append_assoc]
  have hchoices : ∀ fs : List Filter, choicesOf (fs ++ [g]) = choicesOf fs ++ g.choices := by
    intro fs
    induction fs with
    | nil => simp [choicesOf]
    | cons f fs ih => rw [List.cons_append, choicesOf, ih, choicesOf, List.append_assoc]
  cases f with
  | all fs => rw [Filter.and, Holds, criteria, choices, criteria, choices, hcriteria, hchoices]
  | condition | either =>
    rw [Filter.and, Holds]
    · simp only [criteria, choices, criteriaOf, choicesOf, List.append_nil]
    · exact nofun

end Filter

end NodeStore.Query
