import NodeStore.Query.Descriptor
import NodeStore.Query.Include

/-!
# Read plans

The included fields of a query give two things: the descriptor that the engine gets, and the plan by which its records
are read back.

* `ReadPlan`, and `Includes.plan`.
* `Includes.items`: the descriptor of the same fields.
-/

namespace NodeStore.Query

/-- What a record holds of its main block. -/
inductive MainPlan where
  | none
  | all
  /-- These properties, in the order of their offsets. -/
  | props (ps : List (PropDef EdgeLayout))

/-- How the records of one reference are read. -/
structure LinkPlan (P : Type) where
  prop : PropDef EdgeLayout
  slot : UInt8
  plan : P

/-- How a record is read. -/
structure ReadPlan where
  layout : TypeLayout
  main : MainPlan
  /-- The included separate properties other than references, in the order of their slots. -/
  fields : List (PropDef EdgeLayout)
  links : List (LinkPlan ReadPlan)
  edges : Option ReadPlan
  /-- The collections whose size is asked for. -/
  counts : List (PropDef EdgeLayout)
  /-- The locale of texts; all of them if none was asked for. -/
  locale : Option UInt8

namespace Includes

/-- The properties with some indexes. -/
def propsAt (s : Scope) (indexes : List Nat) : List (PropDef EdgeLayout) := indexes.filterMap (s.layout.props[·]?)

/-- What the records of a scope hold of their main block; where nothing is asked of a node it is all of it. -/
def mainPlan (s : Scope) (t : Includes) : MainPlan :=
  if t.isEmpty ∧ !s.layout.isEdge then .all
  else
    match (propsAt s t.chosen).filter (·.isMain) with
    | [] => .none
    | ps => .props ps

/-- The included separate properties. -/
def fields (s : Scope) (t : Includes) : List (PropDef EdgeLayout) := (propsAt s t.chosen).filter (!·.isMain)

mutual

/-- The plan of some included fields. -/
def plan (s : Scope) (locale : Option UInt8) : Includes → ReadPlan
  | ⟨chosen, links, edges, counts⟩ =>
    { layout := s.layout
      main := mainPlan s ⟨chosen, links, edges, counts⟩
      fields := fields s ⟨chosen, links, edges, counts⟩
      links := linkPlans locale links
      edges := edgePlan s locale edges
      counts := propsAt s counts
      locale }

def linkPlans (locale : Option UInt8) : List (Nat × IncludedLink Includes) → List (LinkPlan ReadPlan)
  | [] => []
  | (_, ⟨p, target, _, body⟩) :: rest =>
    ⟨p, p.slot?.getD Limits.mainSlot, plan target locale body⟩ :: linkPlans locale rest

def edgePlan (s : Scope) (locale : Option UInt8) : Option Includes → Option ReadPlan
  | none => none
  | some t => s.edges.map fun edges => plan (s.ofEdges edges) locale t

end

/-- The item of the main block. -/
def mainItem : MainPlan → List IncludeItem
  | .none => []
  | .all => [.main []]
  | .props ps => [.main (ps.map fun p => (p.offset?.getD 0, p.len))]

mutual

/-- The descriptor of some included fields. -/
def items (s : Scope) (locale : UInt8) : Includes → Except Error (List IncludeItem)
  | ⟨chosen, links, edges, counts⟩ => do
    let t : Includes := ⟨chosen, links, edges, counts⟩
    let fields := (fields s t).map fun p => IncludeItem.field (p.slot?.getD 0) p.type.tag locale
    let linked ← linkItems locale links
    let onLink ← edgeItems s locale edges
    let sizes := (propsAt s counts).map fun p => IncludeItem.count (p.slot?.getD 0)
    return mainItem (mainPlan s t) ++ fields ++ linked ++ onLink ++ sizes

def linkItems (locale : UInt8) : List (Nat × IncludedLink Includes) → Except Error (List IncludeItem)
  | [] => .ok []
  | (_, ⟨p, target, sub, body⟩) :: rest => do
    let sort ← sortSpec? (sub.bind (·.sort)) target.layout locale
    let filter ← filterBytes target locale (sub.bind (·.filter))
    let body ← items target locale body
    let item := IncludeItem.link (p.type = .reference) (p.slot?.getD Limits.mainSlot) target.layout.id
      ((sub.bind (·.range)).getD .whole) sort filter body
    return item :: (← linkItems locale rest)

def edgeItems (s : Scope) (locale : UInt8) : Option Includes → Except Error (List IncludeItem)
  | none => .ok []
  | some t =>
    match s.edges with
    | none => .ok []
    | some edges => return [.edge (← items (s.ofEdges edges) locale t)]

end

end Includes

end NodeStore.Query
