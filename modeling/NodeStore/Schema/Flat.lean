import NodeStore.Schema.Decl
import NodeStore.Schema.Error
import NodeStore.Text.Path

/-!
# Flattened declarations

Nested objects and dotted names become leaves with their full paths.

* `FlatProp`: one leaf; `flattenAll` lists those of a type in the order of their declaration.
* `checkPaths`: no path may be declared twice or lead through another.
-/

namespace NodeStore.Schema

/-- A declared leaf with its full path. -/
structure FlatProp where
  path : List String
  type : PropType
  options : LeafOptions
  edges : List (String × PropDecl)

namespace FlatProp

/-- The segments of the path joined by dots. -/
def name (p : FlatProp) : String := Path.join p.path

end FlatProp

/-- Names with a meaning of their own cannot be segments of a path. -/
def reservedSegment (s : String) : Bool := s.isEmpty || s.toList.head? = some '$' || s = "id"

mutual

/-- The leaves below a declaration at a path. -/
def flatten (type : String) (path : List String) : PropDecl → Except Error (List FlatProp)
  | .leaf t options edges => .ok [⟨path, t, options, edges⟩]
  | .object props => flattenAll type path props

/-- The leaves of some declarations below a path. -/
def flattenAll (type : String) (above : List String) : List (String × PropDecl) → Except Error (List FlatProp)
  | [] => .ok []
  | (name, decl) :: rest => do
    let path := above ++ Path.split name
    if path.any reservedSegment then
      throw (.invalidProperty type (Path.join path) .name)
    let here ← flatten type path decl
    let others ← flattenAll type above rest
    return here ++ others

end

/-- Is one path equal to the other, or does it lead through it? -/
def overlap (p q : List String) : Bool :=
  let n := min p.length q.length
  p.take n = q.take n

/-- Each property overlaps with itself alone. -/
def checkPaths (type : String) (props : List FlatProp) : Except Error Unit :=
  props.forM fun p =>
    if 1 < props.countP (fun q => overlap p.path q.path) then .error (.duplicatePath type p.name) else .ok ()

end NodeStore.Schema
