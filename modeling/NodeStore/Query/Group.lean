import NodeStore.Query.Block

/-!
# Grouped conditions

The conditions of a conjunction that lead through the same reference have to hold together on one node, and those on
what a link stores have to hold together on one link. A group collects the conditions of a conjunction by where they
lead; disjunctions are pairs of groups of their own.

* `Scope`: what the names of a filter refer to.
* `Group` with `Group.insert` and `Filter.group`: the groups of a filter.
* `Group.clauses`: the block of a group.
-/

namespace NodeStore.Query

/-- What names refer to: the type of a node, and the layout of what the link that led to it stores. -/
structure Scope where
  schema : SchemaLayout
  layout : TypeLayout
  edges : Option EdgeLayout

namespace Scope

/-- The scope of the nodes of a type. -/
def ofType (schema : SchemaLayout) (layout : TypeLayout) : Scope := ⟨schema, layout, none⟩

/-- The scope of what the link stores. -/
def ofEdges (s : Scope) (edges : EdgeLayout) : Scope := ⟨s.schema, edges.asType, none⟩

/-- The scope behind a reference. -/
def through? (s : Scope) (p : PropDef EdgeLayout) : Option Scope := do
  let target ← p.target
  let layout ← s.schema.typeById? target.id
  return ⟨s.schema, layout, p.edges⟩

/-- A path that leads nowhere. -/
def unknown (s : Scope) (path : List String) : Error := .unknownField s.layout.name (Path.join path)

end Scope

/-- The name behind the sign that addresses what a link stores. -/
def edgeName? (segment : String) : Option String :=
  match segment.toList with
  | '$' :: name => some (String.ofList name)
  | _ => none

/-- A condition of a group, or why its path leads nowhere. -/
inductive Test where
  | condition (f : Field) (operator : Operator) (value : Value)
  | fault (e : Error)

/-- What has to hold on one node that a reference leads to. -/
structure Through (G : Type) where
  prop : PropDef EdgeLayout
  body : G

/-- A conjunction by where its conditions lead. -/
structure Group where
  /-- The conditions on the node itself. -/
  tests : List Test := []
  /-- The conditions behind references, by slot. -/
  links : List (UInt8 × Through Group) := []
  /-- The conditions on what the link stores. -/
  edges : Option Group := none
  /-- The disjunctions. -/
  choices : List (Group × Group) := []

namespace Group

def addTest (g : Group) (t : Test) : Group := { g with tests := g.tests ++ [t] }

/-- The group behind a reference, empty if nothing leads there yet. -/
def behind (g : Group) (slot : UInt8) : Group := ((Assoc.find? slot g.links).map (·.body)).getD {}

def setBehind (g : Group) (p : PropDef EdgeLayout) (slot : UInt8) (body : Group) : Group :=
  { g with links := Assoc.insert slot ⟨p, body⟩ g.links }

/-- Adds a condition on the field at a path. -/
def insert (s : Scope) (path : List String) (operator : Operator) (value : Value) (g : Group) : Group :=
  match path with
  | [] => g.addTest (.fault (s.unknown []))
  | first :: more =>
    match edgeName? first with
    | some name =>
      match _h : s.edges with
      | none => g.addTest (.fault (s.unknown (first :: more)))
      | some edges =>
        { g with edges := some (insert (s.ofEdges edges) (name :: more) operator value (g.edges.getD {})) }
    | none =>
      if first = "id" ∧ more.isEmpty ∧ !s.layout.isEdge then g.addTest (.condition .id operator value)
      else
        match _h : s.layout.longestProp? (first :: more) with
        | none => g.addTest (.fault (s.unknown (first :: more)))
        | some (p, n) =>
          if n = more.length + 1 then g.addTest (.condition (.prop p) operator value)
          else
            match p.type.isReference, p.slot?, s.through? p with
            | true, some slot, some target =>
              g.setBehind p slot (insert target ((first :: more).drop n) operator value (g.behind slot))
            | _, _, _ => g.addTest (.fault (s.unknown (first :: more)))
  termination_by (path.length, if s.edges.isSome then 1 else 0)
  decreasing_by
    · simp [Scope.ofEdges, _h, Prod.lex_def]
    · have := Layout.longestProp?_pos _h
      simp [Prod.lex_def]
      omega

end Group

mutual

/-- Adds the conditions of a filter to a group. -/
def Filter.addTo (s : Scope) : Filter → Group → Group
  | .condition field operator value, g => g.insert s (Path.split field) operator value
  | .all filters, g => Filter.addAll s filters g
  | .either left right, g => { g with choices := g.choices ++ [(left.addTo s {}, right.addTo s {})] }

def Filter.addAll (s : Scope) : List Filter → Group → Group
  | [], g => g
  | f :: fs, g => Filter.addAll s fs (f.addTo s g)

end

/-- The groups of a filter. -/
def Filter.group (s : Scope) (f : Filter) : Group := f.addTo s {}

/-- Conditions stand in the order of the places of their fields. -/
def Condition.before (a b : Condition) : Bool := a.slot < b.slot || (a.slot = b.slot && a.start ≤ b.start)

def Test.compile (locale : UInt8) : Test → Except Error Condition
  | .condition f operator value => f.condition operator value locale
  | .fault e => .error e

namespace Group

mutual

/-- The block of a group: conditions by place, references by slot, the link, and the disjunctions. -/
def clauses (locale : UInt8) : Group → Except Error (List Clause)
  | ⟨tests, links, edges, choices⟩ => do
    let conditions ← tests.mapM (Test.compile locale)
    let behind ← linkClauses locale links
    let onLink ← edgeClauses locale edges
    let either ← choiceClauses locale choices
    return (conditions.mergeSort Condition.before).map .condition ++ behind ++ onLink ++ either

def linkClauses (locale : UInt8) : List (UInt8 × Through Group) → Except Error (List Clause)
  | [] => .ok []
  | (slot, ⟨p, body⟩) :: rest => do
    let clause := Clause.link (p.type = .reference) slot ((p.target.map (·.id)).getD 0) (← clauses locale body)
    return clause :: (← linkClauses locale rest)

def edgeClauses (locale : UInt8) : Option Group → Except Error (List Clause)
  | none => .ok []
  | some g => return [.edge (← clauses locale g)]

def choiceClauses (locale : UInt8) : List (Group × Group) → Except Error (List Clause)
  | [] => .ok []
  | (left, right) :: rest => do
    let left ← clauses locale left
    let right ← clauses locale right
    return .either left right :: (← choiceClauses locale rest)

end

end Group

/-- The bytes of an optional filter; no filter lets every node pass. -/
def filterBytes (s : Scope) (locale : UInt8) : Option Filter → Except Error Bytes
  | none => .ok []
  | some f => return encodeBlock (← (f.group s).clauses locale)

/-- The id of an optional locale code. -/
def localeId (schema : SchemaLayout) : Option String → Except Error UInt8
  | none => .ok Locale.none
  | some code =>
    match schema.localeByCode? code with
    | some l => .ok l.id
    | none => .error (.unknownLocale code)

/-- Compiles a filter of the nodes of a type; texts are tested in the given locale, or in any. -/
def compileFilter (schema : SchemaLayout) (type : String) (f : Filter) (locale : Option String) :
    Except Error Bytes := do
  match schema.typeByName? type with
  | none => throw (.unknownType type)
  | some t => filterBytes (.ofType schema t) (← localeId schema locale) (some f)

end NodeStore.Query
