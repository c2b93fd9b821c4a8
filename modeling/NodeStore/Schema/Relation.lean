import NodeStore.Schema.Flat

/-!
# Relations between types

Every reference has a property on its target that points back. A declared one has to fit, a missing one is added, and
both ends of a relation store the same values on their links.

* `FlatTypes`: the flattened types in the order of their names.
* `resolveInverses`: names the inverse of every reference, adds missing inverses and shares the declared edges.
-/

namespace NodeStore.Schema

/-- The flattened types in the order of their names. -/
abbrev FlatTypes := List (String × List FlatProp)

namespace FlatTypes

/-- The properties of a type. -/
def propsOf? (types : FlatTypes) (type : String) : Option (List FlatProp) :=
  (types.find? (·.1 = type)).map (·.2)

/-- The first property of that name on a type. -/
def prop? (types : FlatTypes) (type name : String) : Option FlatProp :=
  types.propsOf? type >>= fun ps => ps.find? (·.name = name)

/-- Changes the first property for which a test holds. -/
def modifyFirst (test : FlatProp → Bool) (f : FlatProp → FlatProp) : List FlatProp → List FlatProp
  | [] => []
  | p :: ps => if test p then f p :: ps else p :: modifyFirst test f ps

/-- Changes the properties of one type. -/
def modifyType (type : String) (f : List FlatProp → List FlatProp) : FlatTypes → FlatTypes
  | [] => []
  | (name, props) :: rest =>
    if name = type then (name, f props) :: rest else (name, props) :: modifyType type f rest

/-- Changes the first property of that name on a type. -/
def modifyProp (types : FlatTypes) (type name : String) (f : FlatProp → FlatProp) : FlatTypes :=
  types.modifyType type (modifyFirst (·.name = name) f)

end FlatTypes

/-- A reference as it was declared. -/
structure Link where
  source : String
  path : String
  target : String
  inverse : Option String

/-- The reference that a property declares, if it is one. -/
def linkOf (types : FlatTypes) (type : String) (p : FlatProp) : Except Error (Option Link) :=
  if !p.type.isReference then .ok none
  else
    match p.options.reference with
    | none => .error (.invalidProperty type p.name .untypedReference)
    | some target =>
      if (types.propsOf? target).isNone then .error (.unknownTarget type p.name target)
      else .ok (some ⟨type, p.name, target, p.options.inverse⟩)

/-- All references by type and then in the order of declaration. -/
def links (types : FlatTypes) : Except Error (List Link) := do
  let found ← types.mapM fun (type, props) => props.mapM (linkOf types type)
  return found.flatten.filterMap id

/-- Does a property refer back to the source of a link, without naming another inverse than the link? -/
def pointsBack (l : Link) (p : FlatProp) : Bool :=
  p.type.isReference && p.options.reference = some l.source && p.options.inverse.all (· = l.path)

/-- Does a property name the link as its inverse? -/
def namesLink (l : Link) (p : FlatProp) : Bool :=
  p.type.isReference && p.options.reference = some l.source && p.options.inverse = some l.path

/-- The property that is added on the target of a link as its inverse. -/
def inverseOf (types : FlatTypes) (l : Link) (name : String) : FlatProp where
  path := Path.split name
  type := .references
  options := { reference := some l.source, inverse := some l.path }
  edges := ((types.prop? l.source l.path).map (·.edges)).getD []

/-- The name of an inverse that nobody named. -/
def inverseName (l : Link) : String :=
  "_" ++ l.source ++ "_" ++ String.ofList (l.path.toList.map fun c => if c = '.' then '_' else c)

/-- The types so far, and the properties still to be added to them. -/
structure Resolution where
  types : FlatTypes
  added : List (String × FlatProp)

/-- The inverse of one link, and the property to be added for it if there is none. -/
def chooseInverse (types : FlatTypes) (l : Link) : Except Error (String × Option FlatProp) :=
  let targets := (types.propsOf? l.target).getD []
  match l.inverse with
  | some inverse =>
    match targets.find? (·.name = inverse) with
    | some existing =>
      if pointsBack l existing then .ok (inverse, none)
      else .error (.invalidInverse l.source l.path l.target inverse)
    | none => .ok (inverse, some (inverseOf types l inverse))
  | none =>
    match targets.find? (namesLink l) with
    | some back => .ok (back.name, none)
    | none => .ok (inverseName l, some (inverseOf types l (inverseName l)))

/-- Names the inverse of one link. -/
def resolveLink (r : Resolution) (l : Link) : Except Error Resolution := do
  let (inverse, new) ← chooseInverse r.types l
  return {
    types := r.types.modifyProp l.source l.path fun p =>
      { p with options := { p.options with inverse := some inverse } }
    added := r.added ++ (new.map fun p => (l.target, p)).toList }

/-- Adds a property unless its path is taken. -/
def addProp (types : FlatTypes) (type : String) (p : FlatProp) : FlatTypes :=
  types.modifyType type fun ps => if ps.any (·.path = p.path) then ps else ps ++ [p]

/-- The edges that a property hands to its inverse, which declares none. -/
def handedEdges (types : FlatTypes) (p : FlatProp) : Option (String × String × List (String × PropDecl)) :=
  match p.options.reference, p.options.inverse with
  | some target, some inverse =>
    let lacks (q : FlatProp) : Bool := q.name = inverse && q.edges.isEmpty
    if p.edges.isEmpty then none
    else if ((types.propsOf? target).getD []).any lacks then some (target, inverse, p.edges)
    else none
  | _, _ => none

/-- Copies declared edges to the side of a relation that lacks them. -/
def shareEdges (types : FlatTypes) : FlatTypes :=
  let handed := types.flatMap fun (_, props) => props.filterMap (handedEdges types)
  handed.foldl (fun ts (type, name, edges) => ts.modifyProp type name fun p => { p with edges }) types

/-- Gives every reference its inverse. -/
def resolveInverses (types : FlatTypes) : Except Error FlatTypes := do
  let r ← (← links types).foldlM resolveLink ⟨types, []⟩
  return shareEdges (r.added.foldl (fun ts (type, p) => addProp ts type p) r.types)

end NodeStore.Schema
