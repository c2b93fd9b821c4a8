import NodeStore.Engine.Store
import NodeStore.Limits

/-!
# Relations

A reference and its inverse are two sides of one relation: whatever is linked on one side is linked back on the other,
and both links store the same. A reference that is set anew lets go of what it was linked to before.

* `connect` / `disconnect`: both sides of a link.
* `disconnectAll`, `deleteNode`.
-/

namespace NodeStore.Engine

/-- The slot of a separate property. -/
def slotOf {E : Type} (p : PropDef E) : UInt8 := p.slot?.getD Limits.mainSlot

/-- The type with that id. -/
def layoutOf (schema : SchemaLayout) (type : TypeId) : Except Fault TypeLayout :=
  match schema.typeById? type with
  | some t => .ok t
  | none => .error (.unknownType type)

/-- The property of the target type that links back, if there is one. -/
def inverseOf (schema : SchemaLayout) (p : PropDef EdgeLayout) : Except Fault (Option (TypeId × PropDef EdgeLayout)) :=
  match p.target with
  | some { id, inverse := some name, .. } => do
    match (← layoutOf schema id).prop? name with
    | some q => return some (id, q)
    | none => throw (.missingInverse name)
  | _ => .ok none

/-- The ids that a field links to. -/
def linkedIds (s : Store) (type : TypeId) (id : NodeId) (slot : UInt8) : Except Fault (List NodeId) :=
  return ((← s.node type id).links slot).map (·.id)

/-- Takes away the link from a node to another, on both sides. -/
def disconnect (schema : SchemaLayout) (type : TypeId) (id : NodeId) (p : PropDef EdgeLayout) (target : NodeId)
    (s : Store) : Except Fault Store := do
  let s ← s.modifyNode type id (·.removeLink (slotOf p) target)
  match ← inverseOf schema p with
  | none => return s
  | some (inverseType, q) =>
    match s.node? inverseType target with
    | none => return s
    | some n => return s.setNode inverseType target (n.removeLink (slotOf q) id)

/-- Takes away the links to some nodes, on both sides. -/
def disconnectAll (schema : SchemaLayout) (type : TypeId) (id : NodeId) (p : PropDef EdgeLayout)
    (targets : List NodeId) (s : Store) : Except Fault Store :=
  targets.foldlM (fun s target => disconnect schema type id p target s) s

/-- Makes room in a reference for a link to a node: a link to any other one is taken away, on both sides. -/
def release (schema : SchemaLayout) (type : TypeId) (id : NodeId) (p : PropDef EdgeLayout) (target : NodeId)
    (s : Store) : Except Fault Store := do
  if p.type = .reference then
    let old := (← linkedIds s type id (slotOf p)).head?
    match old with
    | some old => if old = target then return s else disconnect schema type id p old s
    | none => return s
  else return s

/-- Links a node to another, and the other one back. -/
def connect (schema : SchemaLayout) (type : TypeId) (id : NodeId) (p : PropDef EdgeLayout) (l : Link EdgeNode)
    (s : Store) : Except Fault Store := do
  let s ← release schema type id p l.id s
  let s ← s.modifyNode type id (·.putLink p (slotOf p) l)
  match ← inverseOf schema p with
  | none => return s
  | some (inverseType, q) =>
    let s ← release schema inverseType l.id q id s
    s.modifyNode inverseType l.id (·.putLink q (slotOf q) ⟨id, l.edges⟩)

/-- Links a node to some others. -/
def connectAll (schema : SchemaLayout) (type : TypeId) (id : NodeId) (p : PropDef EdgeLayout)
    (links : List (Link EdgeNode)) (s : Store) : Except Fault Store :=
  links.foldlM (fun s l => connect schema type id p l s) s

/-- Takes away all links of a field, on both sides. -/
def disconnectField (schema : SchemaLayout) (type : TypeId) (id : NodeId) (p : PropDef EdgeLayout) (s : Store) :
    Except Fault Store := do
  disconnectAll schema type id p (← linkedIds s type id (slotOf p)) s

/-- Deletes a node with all its links. -/
def deleteNode (schema : SchemaLayout) (t : TypeLayout) (id : NodeId) (s : Store) : Except Fault Store := do
  let s ← (t.props.filter (·.type.isReference)).foldlM (fun s p => disconnectField schema t.id id p s) s
  return s.remove t.id id

end NodeStore.Engine
