import NodeStore.Text.Path
import NodeStore.Value

/-!
# Records and nested paths

* `Record.get?`, `insert`, `erase`: one level.
* `Record.getPath?`, `insertPath`, `hasPath`: paths that descend through objects. Inserting makes the objects on the
  way, and replaces any other value that it meets there.
-/

namespace NodeStore.Record

def empty : Record := []

def get? (r : Record) (key : String) : Option Value := Assoc.find? key r

def insert (r : Record) (key : String) (v : Value) : Record := Assoc.insert key v r

def erase (r : Record) (key : String) : Record := Assoc.erase key r

/-- The record with the given fields, the last one of a name winning. -/
def ofList (fields : List (String × Value)) : Record := Assoc.ofList fields

/-- The value at a nested path. The empty path leads nowhere. -/
def lookup (r : Record) : List String → Option Value
  | [] => none
  | [k] => r.get? k
  | k :: k' :: ks =>
    match r.get? k with
    | some (.object inner) => lookup inner (k' :: ks)
    | _ => none

/-- The value at a dotted path. -/
def getPath? (r : Record) (path : String) : Option Value := r.lookup (Path.split path)

/-- Is there a value at the path? -/
def hasPath (r : Record) : List String → Bool
  | [] => false
  | [k] => (r.get? k).isSome
  | k :: k' :: ks =>
    match r.get? k with
    | some (.object inner) => hasPath inner (k' :: ks)
    | _ => false

/-- The record that an optional value holds; anything else counts as empty. -/
def within : Option Value → Record
  | some (.object inner) => inner
  | _ => empty

/-- Stores a value at a nested path. -/
def insertPath (v : Value) : List String → Record → Record
  | [], r => r
  | [k], r => r.insert k v
  | k :: k' :: ks, r => r.insert k (.object (insertPath v (k' :: ks) (within (r.get? k))))

end NodeStore.Record
