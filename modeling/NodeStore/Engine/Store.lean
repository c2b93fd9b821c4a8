import NodeStore.Engine.Fault
import NodeStore.KeySet
import NodeStore.Schema.Layout

/-!
# The store

A node is a main block with the contents of its separate fields; a link holds the node that it leads to and what it
stores itself. Ids are given out in increasing order for each type and never again.

* `Link`, `Content`, `Node`, over what links store; `EdgeNode` is what a link stores and `StoredNode` a node.
* `Node.putLink` / `Node.removeLink`: one end of a link.
* `Store` with `Store.node?`, `create`, `modifyNode`, `remove`; `Store.exhausted` tells when no id is left.
-/

namespace NodeStore.Engine

/-- A link to a node, with what it stores itself. -/
structure Link (E : Type) where
  id : NodeId
  edges : Option E
  deriving DecidableEq

/-- The content of a separate field. -/
inductive Content (E : Type) where
  /-- The content of a string, an alias or a binary, or the bytes of a vector. -/
  | bytes (bs : Bytes)
  /-- A text by locale. -/
  | text (entries : List (UInt8 × String))
  /-- The hashes of the distinct values. -/
  | sketch (hashes : List UInt64)
  | ref (link : Link E)
  | refs (links : List (Link E))
  deriving DecidableEq

/-- The main block and the separate fields by slot. -/
structure Node (E : Type) where
  main : Bytes
  fields : List (UInt8 × Content E)
  deriving DecidableEq

/-- What a link stores; links that start there store nothing. -/
abbrev EdgeNode := Node Empty

/-- A node. -/
abbrev StoredNode := Node EdgeNode

namespace Node

variable {E : Type}

/-- A node with nothing but its defaults. -/
def fresh {L : Type} (t : Layout L) : Node E := ⟨t.mainDefaults, []⟩

def field? (n : Node E) (slot : UInt8) : Option (Content E) := Assoc.find? slot n.fields

def setField (n : Node E) (slot : UInt8) (c : Content E) : Node E := { n with fields := Assoc.insert slot c n.fields }

def dropField (n : Node E) (slot : UInt8) : Node E := { n with fields := Assoc.erase slot n.fields }

/-- The links of a field. -/
def links (n : Node E) (slot : UInt8) : List (Link E) :=
  match n.field? slot with
  | some (.ref l) => [l]
  | some (.refs ls) => ls
  | _ => []

/-- Puts a link into a collection. A node is linked once; what its link stores stays unless something new is given. -/
def joinLinks (l : Link E) : List (Link E) → List (Link E)
  | [] => [l]
  | l' :: ls => if l'.id = l.id then ⟨l'.id, l.edges <|> l'.edges⟩ :: ls else l' :: joinLinks l ls

/-- Puts a link into a field: the one link of a reference, or one more of a collection. -/
def putLink {L : Type} (p : PropDef L) (slot : UInt8) (l : Link E) (n : Node E) : Node E :=
  if p.type = .reference then
    match n.field? slot with
    | some (.ref old) => n.setField slot (.ref ⟨l.id, l.edges <|> (if old.id = l.id then old.edges else none)⟩)
    | _ => n.setField slot (.ref l)
  else
    match n.field? slot with
    | none => n.setField slot (.refs [l])
    | some (.refs ls) => n.setField slot (.refs (joinLinks l ls))
    | some _ => n

/-- Takes the link to a node out of a field; no field is left without links. -/
def removeLink (slot : UInt8) (target : NodeId) (n : Node E) : Node E :=
  match n.field? slot with
  | some (.ref l) => if l.id = target then n.dropField slot else n
  | some (.refs ls) =>
    match ls.filter fun l => !decide (l.id = target) with
    | [] => n.dropField slot
    | ls => n.setField slot (.refs ls)
  | _ => n

end Node

/-- The content on a link in the place of one on a node. -/
def Content.widen : Content Empty → Content EdgeNode
  | .bytes bs => .bytes bs
  | .text entries => .text entries
  | .sketch hashes => .sketch hashes
  | .ref l => .ref ⟨l.id, none⟩
  | .refs ls => .refs (ls.map fun l => ⟨l.id, none⟩)

/-- What a link stores in the place of a node. -/
def EdgeNode.asNode (n : EdgeNode) : StoredNode := ⟨n.main, n.fields.map fun f => (f.1, f.2.widen)⟩

/-- The nodes of one type. -/
structure Table where
  lastId : NodeId
  nodes : List (NodeId × StoredNode)
  deriving DecidableEq

/-- All nodes by type. -/
structure Store where
  tables : List (TypeId × Table)
  deriving DecidableEq

namespace Store

def empty : Store := ⟨[]⟩

/-- The table of a type, empty if no node of it was ever created. -/
def table (s : Store) (type : TypeId) : Table := (Assoc.find? type s.tables).getD ⟨0, []⟩

def setTable (s : Store) (type : TypeId) (t : Table) : Store := ⟨Assoc.insert type t s.tables⟩

def node? (s : Store) (type : TypeId) (id : NodeId) : Option StoredNode := Assoc.find? id (s.table type).nodes

/-- The ids of the nodes of a type in increasing order. -/
def ids (s : Store) (type : TypeId) : List NodeId := (s.table type).nodes.map (·.1)

/-- The node with that id, which has to exist. -/
def node (s : Store) (type : TypeId) (id : NodeId) : Except Fault StoredNode :=
  match s.node? type id with
  | some n => .ok n
  | none => .error (.noSuchNode type id)

/-- Has the type given out its last id? -/
def exhausted (s : Store) (type : TypeId) : Bool := (s.table type).lastId + 1 = 0

/-- Creates a node of a type. -/
def create (s : Store) (t : TypeLayout) : NodeId × Store :=
  let table := s.table t.id
  let id := table.lastId + 1
  (id, s.setTable t.id ⟨id, Assoc.insert id (.fresh t) table.nodes⟩)

/-- Replaces a node. -/
def setNode (s : Store) (type : TypeId) (id : NodeId) (n : StoredNode) : Store :=
  let table := s.table type
  s.setTable type { table with nodes := Assoc.insert id n table.nodes }

/-- Changes a node, which has to exist. -/
def modifyNode (s : Store) (type : TypeId) (id : NodeId) (f : StoredNode → StoredNode) : Except Fault Store :=
  return s.setNode type id (f (← s.node type id))

/-- Takes a node out of the store. -/
def remove (s : Store) (type : TypeId) (id : NodeId) : Store :=
  let table := s.table type
  s.setTable type { table with nodes := Assoc.erase id table.nodes }

end Store

end NodeStore.Engine
