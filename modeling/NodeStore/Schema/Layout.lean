import NodeStore.Schema.Decl
import NodeStore.Schema.Locale
import NodeStore.Text.Path

/-!
# Compiled layouts

Every type has a main block of fixed size for its fixed-width properties and a slot for each of the others.

* `PropDef`: a compiled property; `Location` says where its bytes live.
* `Layout`: the layout of some properties; `EdgeLayout` is that of the values stored on the links of a relation, and
  `TypeLayout` that of a type. Links that start from a link store nothing.
* `SchemaLayout`: all types in the order of their ids, with the enabled locales.
-/

namespace NodeStore

/-- Where the bytes of a property live. -/
inductive Location where
  /-- At an offset of the main block. -/
  | main (offset : Nat)
  /-- In a slot of its own. -/
  | separate (slot : UInt8)
  deriving DecidableEq, Inhabited

/-- The resolved target of a reference. -/
structure RefTarget where
  type : String
  id : TypeId
  /-- The property of the target that points back; references on links have none. -/
  inverse : Option String
  deriving DecidableEq, Inhabited

/-- A compiled property, over the layouts `E` of what its links store. -/
structure PropDef (E : Type) where
  path : List String
  /-- The segments of the path joined by dots. -/
  name : String
  type : PropType
  location : Location
  /-- The width in the main block, or the size of a vector. -/
  len : Nat
  maxBytes : Option Nat
  dims : Option Nat
  enumValues : List String
  target : Option RefTarget
  edges : Option E
  default : Option Value
  min : Option Binary64
  max : Option Binary64
  validator : Option Validator
  /-- The ids of the locales that a text takes. -/
  locales : List UInt8

/-- The tree of the segments of property paths. -/
inductive PathNode where
  /-- The property with this index. -/
  | leaf (index : Nat)
  | branch (children : List (String × PathNode))
  deriving Inhabited

namespace PathNode

mutual

/-- The indexes of the properties below a node of the path tree. -/
def leaves : PathNode → List Nat
  | leaf i => [i]
  | branch children => leavesAll children

def leavesAll : List (String × PathNode) → List Nat
  | [] => []
  | (_, n) :: rest => leaves n ++ leavesAll rest

end

/-- The children of the branch that a path leads to. -/
def branch? (children : List (String × PathNode)) : List String → Option (List (String × PathNode))
  | [] => some children
  | segment :: rest =>
    match Assoc.find? segment children with
    | some (branch inner) => branch? inner rest
    | _ => none

end PathNode

/-- The compiled layout of some properties. -/
structure Layout (E : Type) where
  name : String
  /-- Zero for the layout of what links store. -/
  id : TypeId
  mainLen : Nat
  /-- The main properties by offset, then the separate ones by slot. -/
  props : List (PropDef E)
  tree : List (String × PathNode)
  /-- The main block with every default applied and zeros elsewhere. -/
  mainDefaults : Bytes

/-- The layout of what links store. -/
abbrev EdgeLayout := Layout Empty

/-- A compiled type. -/
abbrev TypeLayout := Layout EdgeLayout

/-- Orders separate properties before they get their slots: lower first. -/
abbrev Priority := (E : Type) → PropDef E → Int

namespace PropDef

variable {E : Type}

def isMain (p : PropDef E) : Bool :=
  match p.location with
  | .main _ => true
  | .separate _ => false

def offset? (p : PropDef E) : Option Nat :=
  match p.location with
  | .main offset => some offset
  | .separate _ => none

def slot? (p : PropDef E) : Option UInt8 :=
  match p.location with
  | .main _ => none
  | .separate slot => some slot

/-- The number of a label on the wire, counted from 1. -/
def enumIndex? (p : PropDef E) (label : String) : Option UInt8 :=
  (p.enumValues.findIdx? (· = label)).map fun i => UInt8.ofNat (i + 1)

/-- The order of the separate properties: defaulted strings, defaulted texts, references, all others, and last the
aliases and the columnar vectors. -/
def defaultPriority (p : PropDef E) : Int :=
  match p.type with
  | .string | .binary => if p.default.isSome then -600 else 0
  | .text => if p.default.isSome then -400 else 0
  | .reference | .references => -300
  | .alias | .colvec => 300
  | _ => 0

end PropDef

namespace Layout

variable {E : Type}

def prop? (t : Layout E) (name : String) : Option (PropDef E) := t.props.find? (·.name = name)

def propIndex? (t : Layout E) (name : String) : Option Nat := t.props.findIdx? (·.name = name)

def propBySlot? (t : Layout E) (slot : UInt8) : Option (PropDef E) :=
  t.props.find? (·.slot? = some slot)

def mainProps (t : Layout E) : List (PropDef E) := t.props.filter (·.isMain)

def separateProps (t : Layout E) : List (PropDef E) := t.props.filter (!·.isMain)

/-- The property named by at most `n` of the segments, as many as possible, and their number. -/
def longestPropWithin (t : Layout E) (segments : List String) : Nat → Option (PropDef E × Nat)
  | 0 => none
  | n + 1 =>
    match t.prop? (Path.join (segments.take (n + 1))) with
    | some p => some (p, n + 1)
    | none => t.longestPropWithin segments n

/-- The property named by the longest possible run of leading segments, and the length of the run. -/
def longestProp? (t : Layout E) (segments : List String) : Option (PropDef E × Nat) :=
  t.longestPropWithin segments segments.length

theorem longestPropWithin_pos {t : Layout E} {segments : List String} {k n : Nat} {p : PropDef E}
    (h : t.longestPropWithin segments k = some (p, n)) : 0 < n := by
  induction k with
  | zero => cases h
  | succ k ih =>
    rw [longestPropWithin] at h
    split at h
    · cases h
      omega
    · exact ih h

/-- The run is never empty. -/
theorem longestProp?_pos {t : Layout E} {segments : List String} {n : Nat} {p : PropDef E}
    (h : t.longestProp? segments = some (p, n)) : 0 < n := longestPropWithin_pos h

/-- Is this the layout of what links store? -/
def isEdge (t : Layout E) : Bool := t.id = 0

end Layout

/-- A property on links in the place of one on nodes: its own links store nothing. -/
def PropDef.widen (p : PropDef Empty) : PropDef EdgeLayout := { p with edges := none }

/-- The layout of what links store in the place of a type. -/
def EdgeLayout.asType (t : EdgeLayout) : TypeLayout := { t with props := t.props.map PropDef.widen }

/-- A compiled schema. -/
structure SchemaLayout where
  /-- The types; the first one has the id 1. -/
  types : List TypeLayout
  locales : List Locale
  /-- The digest of the layout. -/
  fingerprint : Bytes

namespace SchemaLayout

def typeByName? (s : SchemaLayout) (name : String) : Option TypeLayout := s.types.find? (·.name = name)

def typeById? (s : SchemaLayout) (id : TypeId) : Option TypeLayout :=
  if id = 0 then none else s.types[id.toNat - 1]?

def localeByCode? (s : SchemaLayout) (code : String) : Option Locale := s.locales.find? (·.code = code)

def localeById? (s : SchemaLayout) (id : UInt8) : Option Locale := s.locales.find? (·.id = id)

end SchemaLayout

end NodeStore
