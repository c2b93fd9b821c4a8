import NodeStore.KeySet
import NodeStore.Query.Group
import NodeStore.Query.Sort

/-!
# Included fields

A query names the fields that its records hold by paths. A path may end at a property, at an object, which stands for
all below it, or at a reference, which stands for the referenced nodes, and `*` stands for all fields but references.

* `SubQuery`: filter, order, range and includes of the nodes that a reference leads to.
* `Includes`: the included fields by where their paths lead; `Includes.add` adds one path, `Includes.addCount` the size
  of a collection.
-/

namespace NodeStore.Query

/-- What is asked of the nodes that a reference leads to. -/
structure SubQuery where
  includes : List (String × Option SubQuery) := []
  filter : Option Filter := none
  sort : Option SortBy := none
  range : Option Range := none

/-- The nodes included through one reference. -/
structure IncludedLink (T : Type) where
  prop : PropDef EdgeLayout
  /-- The scope behind the reference. -/
  scope : Scope
  /-- The last query that was put to the nodes. -/
  sub : Option SubQuery
  body : T

/-- Included fields of a scope; properties are given by their indexes. -/
structure Includes where
  /-- The properties other than references. -/
  chosen : List Nat := []
  links : List (Nat × IncludedLink Includes) := []
  /-- The included fields of the link itself. -/
  edges : Option Includes := none
  /-- The collections whose size is asked for. -/
  counts : List Nat := []

namespace Includes

def isEmpty (t : Includes) : Bool := t.chosen.isEmpty && t.links.isEmpty && t.edges.isNone && t.counts.isEmpty

/-- Includes a property other than a reference. -/
def choose (s : Scope) (t : Includes) (index : Nat) : Includes :=
  match s.layout.props[index]? with
  | some p => if p.type.isReference then t else { t with chosen := KeySet.insert index t.chosen }
  | none => t

/-- The link of a reference, a new one if it is not included yet. -/
def link (s : Scope) (t : Includes) (index : Nat) (p : PropDef EdgeLayout) :
    Except Error (IncludedLink Includes) :=
  match Assoc.find? index t.links, s.through? p with
  | some l, _ => .ok l
  | none, some target => .ok ⟨p, target, none, {}⟩
  | none, none => .error (s.unknown p.path)

def setLink (t : Includes) (index : Nat) (l : IncludedLink Includes) : Includes :=
  { t with links := Assoc.insert index l t.links }

/-- Includes a leaf below an object: a property, or the nodes of a reference. -/
def addLeaf (s : Scope) (t : Includes) (index : Nat) : Except Error Includes :=
  match s.layout.props[index]? with
  | none => .ok t
  | some p =>
    if p.type.isReference then return t.setLink index (← t.link s index p)
    else .ok (t.choose s index)

/-- Includes all below an object. -/
def addBranch (s : Scope) (path : List String) (t : Includes) : Except Error Includes :=
  match PathNode.branch? s.layout.tree path with
  | none => .error (s.unknown path)
  | some children => (PathNode.leavesAll children).foldlM (addLeaf s) t

mutual

/-- Includes what a path names; a query may be put to the nodes of the reference that it ends at. -/
def add (s : Scope) (path : List String) (sub : Option SubQuery) (t : Includes) : Except Error Includes :=
  match path with
  | [] => .error (s.unknown [])
  | first :: more =>
    if first = "*" ∧ more.isEmpty then .ok ((List.range s.layout.props.length).foldl (choose s) t)
    else
      match edgeName? first with
      | some name =>
        match _h : s.edges with
        | none => .error (s.unknown (first :: more))
        | some edges => do
          let inner ← add (s.ofEdges edges) (name :: more) sub (t.edges.getD {})
          return { t with edges := some inner }
      | none =>
        if first = "id" ∧ more.isEmpty then .ok t
        else
          match _h : s.layout.longestProp? (first :: more) with
          | none => t.addBranch s (first :: more)
          | some (p, n) =>
            match s.layout.propIndex? p.name with
            | none => .error (s.unknown (first :: more))
            | some index =>
              if p.type.isReference then do
                let l ← t.link s index p
                if n < more.length + 1 then
                  let body ← add l.scope ((first :: more).drop n) sub l.body
                  return t.setLink index { l with body }
                else
                  match sub with
                  | none => return t.setLink index l
                  | some q =>
                    let body ← addAll l.scope q.includes l.body
                    return t.setLink index { l with body, sub := some q }
              else if n < more.length + 1 then .error (s.unknown (first :: more))
              else .ok (t.choose s index)
  termination_by (sizeOf sub, path.length, if s.edges.isSome then 1 else 0)
  decreasing_by
    · simp [Scope.ofEdges, _h, Prod.lex_def]
    · have hn := Layout.longestProp?_pos _h
      refine Prod.Lex.right _ (Prod.Lex.left _ _ ?_)
      rw [List.length_drop]
      exact Nat.sub_lt (Nat.succ_pos _) hn
    · cases q
      refine Prod.Lex.left _ _ ?_
      simp only [Option.some.sizeOf_spec, SubQuery.mk.sizeOf_spec]
      omega

/-- Includes what some paths name. -/
def addAll (s : Scope) (paths : List (String × Option SubQuery)) (t : Includes) : Except Error Includes :=
  match paths with
  | [] => .ok t
  | (path, sub) :: rest => do
    let t ← add s (Path.split path) sub t
    addAll s rest t
  termination_by (sizeOf paths, 0, 0)
  decreasing_by
    all_goals
      refine Prod.Lex.left _ _ ?_
      simp only [List.cons.sizeOf_spec, Prod.mk.sizeOf_spec]
      omega

end

/-- Asks for the size of a collection. -/
def addCount (s : Scope) (path : List String) (t : Includes) : Except Error Includes :=
  match _h : s.layout.longestProp? path with
  | none => .error (s.unknown path)
  | some (p, n) =>
    match s.layout.propIndex? p.name with
    | none => .error (s.unknown path)
    | some index =>
      if n < path.length ∧ p.type.isReference then do
        let l ← t.link s index p
        let body ← addCount l.scope (path.drop n) l.body
        return t.setLink index { l with body }
      else if n < path.length ∨ p.type ≠ .references then .error (.unsupported p.name "count" p.type)
      else .ok { t with counts := KeySet.insert index t.counts }
  termination_by path.length
  decreasing_by
    have := Layout.longestProp?_pos _h
    simp
    omega

end Includes

end NodeStore.Query
