import NodeStore.Engine.Condition
import NodeStore.Engine.Links
import NodeStore.Engine.Scan
import NodeStore.Query.Block

/-!
# Evaluating filter blocks

A block is evaluated item by item until one fails. Evaluation ends on any bytes: a nested block is shorter than the one
that it stands in, and a jump only ever leads forward.

* `Subject`: the node that a block is about, with the link that led to it.
* `holdsFrom`: the items of a part of a block; `Subject.passes`: a whole block.
-/

namespace NodeStore.Engine

open Query (Item)

/-- A node with the link that led to it. -/
structure Subject where
  layout : TypeLayout
  id : NodeId
  node : StoredNode
  /-- What the link stores, with its layout. -/
  edge : Option (EdgeLayout × EdgeNode)

/-- What a link stores as a subject of its own. -/
def Subject.ofEdge (t : EdgeLayout) (n : EdgeNode) : Subject := ⟨t.asType, 0, n.asNode, none⟩

/-- The nodes that some links of a field lead to; nodes that are gone are left out. -/
def linkedSubjects (schema : SchemaLayout) (store : Store) (t : TypeLayout) (slot : UInt8)
    (links : List (Link EdgeNode)) : Except Fault (List Subject) :=
  match t.propBySlot? slot with
  | none => .error (.wire (.unknownSlot t.name slot))
  | some p => do
    let target ← orFail (.notReference p.name) p.target
    let layout ← layoutOf schema target.id
    return links.filterMap fun l =>
      (store.node? target.id l.id).map fun n => ⟨layout, l.id, n, do return (← p.edges, ← l.edges)⟩

/-- Does a test hold of one of some subjects? Those behind the first one are not tested. -/
def anySubject (test : Subject → Except Fault Bool) : List Subject → Except Fault Bool
  | [] => .ok false
  | s :: ss => do if ← test s then return true else anySubject test ss

/-- Do the items between two positions of a block hold? -/
def holdsFrom (schema : SchemaLayout) (store : Store) (s : Subject) (block : Bytes) (pos stop : Nat) :
    Except Fault Bool :=
  if _hrange : block.length < stop ∨ stop < pos then .error .jumpRange
  else if _hend : pos = stop then .ok true
  else
    match _h : Item.read (.ofBytes ((block.take stop).drop pos)) with
    | .error e _ => .error (.wire e)
    | .ok (.condition c) r => do
      if ← c.holds s.id s.node then holdsFrom schema store s block (pos + r.pos) stop else return false
    | .ok (.either jump size) r =>
      if _hjump : jump < pos + r.pos then .error .jumpBackwards
      else do
        let left ← holdsFrom schema store s block (pos + r.pos) jump
        let hit ← if left then pure true else holdsFrom schema store s block jump (jump + size)
        if !hit then return false
        else if stop < jump + size then throw (.wire (.endOfInput "or items"))
        else holdsFrom schema store s block (jump + size) stop
    | .ok (.link one slot body) r => do
      let links := s.node.links slot
      let linked ← linkedSubjects schema store s.layout slot (if one then links.take 1 else links)
      if ← anySubject (fun t => holdsFrom schema store t body 0 body.length) linked then
        holdsFrom schema store s block (pos + r.pos) stop
      else return false
    | .ok (.edge body) r =>
      match s.edge with
      | none => .ok false
      | some (t, n) => do
        if ← holdsFrom schema store (.ofEdge t n) body 0 body.length then
          holdsFrom schema store s block (pos + r.pos) stop
        else return false
  termination_by (block.length, block.length - pos)
  decreasing_by
    all_goals
      have hr := Item.takes_read _ _ _ _h
      simp only [Wire.Reader.ofBytes, Item.nested, List.length_drop, List.length_take] at hr
    · exact .right _ (by omega)
    · exact .right _ (by omega)
    · exact .right _ (by omega)
    · exact .right _ (by omega)
    · exact .left _ _ (by omega)
    · exact .right _ (by omega)
    · exact .left _ _ (by omega)
    · exact .right _ (by omega)

/-- Does a node pass a block? -/
def Subject.passes (schema : SchemaLayout) (store : Store) (s : Subject) (block : Bytes) : Except Fault Bool :=
  holdsFrom schema store s block 0 block.length

end NodeStore.Engine
