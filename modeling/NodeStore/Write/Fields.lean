import NodeStore.Schema.Validate
import NodeStore.Write.Error

/-!
# The fields of a record

A record is mapped onto the properties of a layout. Nested objects and dotted names address the same nested paths, and
in any mixture; a null for an object stands for a null in each property below it.

* `collectFields`: the fields of a record in the order of the layout, each a valid value.
* A lenient caller skips unknown names and the properties' own validators.
-/

namespace NodeStore.Write

/-- A field to be written: a property by its index, and the value for it. -/
structure Field (E : Type) where
  index : Nat
  prop : PropDef E
  value : Value

/-- The path of a segment below another path. -/
def below (above segment : String) : String := if above.isEmpty then segment else above ++ "." ++ segment

/-- An unknown name: lenient callers skip it. -/
def unknownName (type : String) (lenient : Bool) (path : String) (rest : List String) :
    Except Error (List (Nat × Value)) :=
  if lenient then .ok [] else .error (.unknownProperty type (rest.foldl (fun p s => p ++ "." ++ s) path))

mutual

/-- The indexes and values that an entry addresses, where `path` has led to `node` and `rest` remains of its name. -/
def address (type : String) (lenient : Bool) (path : String) (node : PathNode) (rest : List String) (v : Value) :
    Except Error (List (Nat × Value)) :=
  match node with
  | .leaf i => if rest.isEmpty then .ok [(i, v)] else unknownName type lenient path rest
  | .branch children =>
    match rest with
    | s :: rest => addressIn type lenient path children s rest v
    | [] =>
      match v with
      | .object inner => do
        let found ← inner.mapM fun (key, v) =>
          match Path.split key with
          | s :: rest => addressIn type lenient path children s rest v
          | [] => .ok []
        return found.flatten
      | .null => .ok ((PathNode.leavesAll children).map fun i => (i, .null))
      | _ => .error (.invalid path v .wantsObject)

/-- The same among the children of a node, where `s` is the next segment. -/
def addressIn (type : String) (lenient : Bool) (above : String) (children : List (String × PathNode)) (s : String)
    (rest : List String) (v : Value) : Except Error (List (Nat × Value)) :=
  match children with
  | [] => unknownName type lenient (below above s) rest
  | (name, node) :: others =>
    if name = s then address type lenient (below above s) node rest v
    else addressIn type lenient above others s rest v

end

/-- The test of one field. -/
def checkField {E : Type} (lenient : Bool) (f : Field E) : Except Error Unit :=
  match if lenient then f.prop.validateBuiltin f.value else f.prop.validate f.value with
  | .ok () => .ok ()
  | .error e => .error (.invalid f.prop.name f.value (.fault e))

/-- The defaults of the separate properties that no field addresses, from an index on. -/
def missingDefaults {E : Type} (fields : List (Field E)) (index : Nat) : List (PropDef E) → List (Field E)
  | [] => []
  | p :: ps =>
    match p.default with
    | some v =>
      if p.isMain || fields.any (·.index = index) then missingDefaults fields (index + 1) ps
      else ⟨index, p, v⟩ :: missingDefaults fields (index + 1) ps
    | none => missingDefaults fields (index + 1) ps

/-- The fields of a record. For a created node the defaults of separate properties are added. -/
def collectFields {E : Type} (t : Layout E) (lenient create : Bool) (record : Record) :
    Except Error (List (Field E)) := do
  let found ← record.mapM fun (key, v) =>
    match Path.split key with
    | s :: rest => addressIn t.name lenient "" t.tree s rest v
    | [] => .ok []
  let fields := found.flatten.filterMap fun (i, v) => t.props[i]?.map fun p => (⟨i, p, v⟩ : Field E)
  let fields := if create then fields ++ missingDefaults fields 0 t.props else fields
  let fields := fields.mergeSort fun a b => a.index ≤ b.index
  fields.forM (checkField lenient)
  return fields

end NodeStore.Write
