import Std.Data.HashSet.Basic
import NodeStore.Codec.Fixed
import NodeStore.Limits
import NodeStore.Schema.Fingerprint
import NodeStore.Schema.Relation
import NodeStore.Schema.Validate

/-!
# Compiling a schema

A declared schema becomes layouts: main properties by falling width, separate properties by a priority, both with the
name as the tie break, so that the order of declaration moves nothing.

* `compileProp`: one property, not yet placed; `layoutOf` places the properties of a type.
* `edgeLayout`: the layout of what the links of a relation store, made once for its two ends.
* `SchemaDecl.compile`: the whole schema; the first fault rejects it.
-/

namespace NodeStore.Schema

/-! ## Locales -/

/-- The id of a supported code. -/
def localeId (code : String) : Except Error UInt8 :=
  match Locale.idOf? code with
  | some id => .ok id
  | none => .error (.unknownLocale code)

/-- A declared locale with its ids; what it falls back to has to be declared too. -/
def compileLocale (declared : List String) (l : LocaleDecl) : Except Error Locale := do
  let id ← localeId l.code
  let fallback ← l.fallback.mapM fun code => do
    if !declared.contains code then throw (.unknownLocale code)
    localeId code
  return { code := l.code, id, fallback, required := l.required }

/-- Keeps the first of neighbours with the same id. -/
def dropRepeated : List Locale → List Locale
  | [] => []
  | [l] => [l]
  | l :: m :: rest =>
    if l.id = m.id then dropRepeated (l :: rest) else l :: dropRepeated (m :: rest)
  termination_by ls => ls.length

/-- The enabled locales by their ids. -/
def compileLocales (ls : List LocaleDecl) : Except Error (List Locale) := do
  let compiled ← ls.mapM (compileLocale (ls.map (·.code)))
  return dropRepeated (compiled.mergeSort fun a b => a.id ≤ b.id)

/-! ## Properties -/

/-- What the compilation of every property needs. -/
structure Context where
  /-- The names of the types in the order of their ids. -/
  typeNames : List String
  localeIds : List UInt8
  /-- The order of separate properties: lower first. -/
  priority : Priority

/-- The two ends of a relation, the lesser first. -/
abbrev RelationKey := (String × String) × (String × String)

/-- The edge layouts made so far, each under its relation. -/
abbrev EdgeCache := List (RelationKey × EdgeLayout)

abbrev CompileM := StateT EdgeCache (Except Error)

/-- Makes the layout of what the links of a property store. -/
abbrev EdgeCompiler (E : Type) :=
  (type : String) → (path : String) → Option RefTarget → List (String × PropDecl) → CompileM E

/-- The width of a property and whether it lives in the main block. -/
def measure (type : String) (p : FlatProp) : Except Error (Nat × Bool) :=
  match p.type with
  | .enum =>
    let count := p.options.enumValues.length
    if count = 0 ∨ Limits.maxEnumValues < count then
      .error (.invalidEnum type p.name count Limits.maxEnumValues)
    else .ok (1, true)
  | .vector | .colvec =>
    let dims := p.options.dims.getD 0
    if dims = 0 then .error (.invalidProperty type p.name .dimensions)
    else if Limits.maxVectorBytes < dims * 4 then
      .error (.fieldTooLarge type p.name (dims * 4) Limits.maxVectorBytes)
    else .ok (dims * 4, false)
  | .string | .binary | .text | .alias =>
    match p.options.maxBytes with
    | none => .ok (0, false)
    | some max =>
      if Limits.maxFieldLength < max then .error (.fieldTooLarge type p.name max Limits.maxFieldLength)
      else if !p.type.alwaysSeparate ∧ max ≤ Limits.maxFixedString then .ok (max + 1, true)
      else .ok (0, false)
  | .reference | .references | .cardinality => .ok (0, false)
  | _ =>
    match p.type.fixedWidth with
    | some width => .ok (width, true)
    | none => .error (.invalidProperty type p.name .unsupported)

/-- The declared least value may not be above the greatest. -/
def boundsCross (o : LeafOptions) : Bool :=
  match o.min, o.max with
  | some min, some max => max.lt min
  | _, _ => false

/-- The target of a reference; `inverses` tells whether it has a property that points back. -/
def resolveTarget (c : Context) (inverses : Bool) (type : String) (p : FlatProp) :
    Except Error (Option RefTarget) :=
  if !p.type.isReference then .ok none
  else
    match p.options.reference with
    | none => .error (.invalidProperty type p.name .untypedEdgeReference)
    | some target =>
      match c.typeNames.findIdx? (· = target) with
      | none => .error (.unknownTarget type p.name target)
      | some i =>
        .ok (some { type := target, id := UInt16.ofNat (i + 1),
                    inverse := if inverses then p.options.inverse else none })

/-- A declared default has to be a valid value; references have none. -/
def checkDefault {E : Type} (type : String) (d : PropDef E) : Except Error Unit :=
  match d.default with
  | none => .ok ()
  | some v =>
    if d.type.isReference then .error (.invalidDefault type d.name "references cannot have defaults")
    else
      match d.validate v with
      | .ok () => .ok ()
      | .error e => .error (.invalidDefault type d.name e.message)

/-- The tests of a declared property that need nothing but itself. -/
def checkProp (type : String) (p : FlatProp) : Except Error Unit :=
  if boundsCross p.options then .error (.invalidProperty type p.name .bounds)
  else if !p.edges.isEmpty && !p.type.isReference then .error (.invalidProperty type p.name .edgesOnValue)
  else .ok ()

/-- The layout of what the links of a property store, if it declares anything for them. -/
def compileEdges {E : Type} (edgesOf : EdgeCompiler E) (type : String) (p : FlatProp) (target : Option RefTarget) :
    CompileM (Option E) :=
  if p.edges.isEmpty then return none else some <$> edgesOf type p.name target p.edges

/-- A property from its declaration, its width and what its links lead to and store; it has no place yet. -/
def unplaced {E : Type} (c : Context) (p : FlatProp) (len : Nat) (main : Bool) (target : Option RefTarget)
    (edges : Option E) : PropDef E where
  path := p.path
  name := p.name
  type := p.type
  location := if main then .main 0 else .separate 0
  len
  maxBytes := p.options.maxBytes
  dims := p.options.dims
  enumValues := p.options.enumValues
  target
  edges
  default := p.options.default
  min := p.options.min
  max := p.options.max
  validator := p.options.validator
  locales := if p.type = .text then c.localeIds else []

/-- A compiled property without its place. -/
def compileProp {E : Type} (c : Context) (inverses : Bool) (edgesOf : EdgeCompiler E) (type : String)
    (p : FlatProp) : CompileM (PropDef E) := do
  let (len, main) ← measure type p
  checkProp type p
  let target ← resolveTarget c inverses type p
  let edges ← compileEdges edgesOf type p target
  let d := unplaced c p len main target edges
  checkDefault type d
  return d

/-! ## Placing -/

section

variable {E : Type}

/-- Main properties by falling width, then by name. -/
def mainOrder (a b : PropDef E) : Bool :=
  b.len < a.len || (a.len = b.len && a.name ≤ b.name)

/-- Separate properties by rising priority, then by name. -/
def separateOrder (priority : Priority) (a b : PropDef E) : Bool :=
  priority E a < priority E b || (priority E a = priority E b && a.name ≤ b.name)

/-- One after the other from an offset on. -/
def placeMain (offset : Nat) : List (PropDef E) → List (PropDef E)
  | [] => []
  | d :: ds => { d with location := .main offset } :: placeMain (offset + d.len) ds

/-- Consecutive slots from `slot` on. -/
def placeSeparate (slot : Nat) : List (PropDef E) → List (PropDef E)
  | [] => []
  | d :: ds => { d with location := .separate (UInt8.ofNat slot) } :: placeSeparate (slot + 1) ds

/-- The bytes of a main property in a fresh block. -/
def defaultBytes (type : String) (d : PropDef E) : Except Error Bytes :=
  match d.default with
  | none => .ok (List.replicate d.len 0)
  | some v =>
    match d.encodeFixed d.len v with
    | .ok bs => .ok bs
    | .error e => .error (.invalidDefault type d.name e.message)

/-- Puts a property into the tree of paths; a property already on the way stays. -/
def insertPath (index : Nat) : List String → List (String × PathNode) → List (String × PathNode)
  | [], tree => tree
  | [k], tree => Assoc.insert k (.leaf index) tree
  | k :: k' :: ks, tree =>
    match Assoc.find? k tree with
    | none => Assoc.insert k (.branch (insertPath index (k' :: ks) [])) tree
    | some (.branch children) => Assoc.insert k (.branch (insertPath index (k' :: ks) children)) tree
    | some (.leaf _) => tree

/-- The tree of the paths of some properties, whose indexes start at `index`. -/
def pathTree (index : Nat) (tree : List (String × PathNode)) :
    List (PropDef E) → List (String × PathNode)
  | [] => tree
  | d :: ds => pathTree (index + 1) (insertPath index d.path tree) ds

/-- The length of some properties in the main block. -/
def mainLength (ds : List (PropDef E)) : Nat := ds.foldr (fun d n => d.len + n) 0

/-- The layout of a type from its compiled properties. -/
def layoutOf (priority : Priority) (name : String) (id : TypeId)
    (defs : List (PropDef E)) : Except Error (Layout E) := do
  let main := (defs.filter (·.isMain)).mergeSort mainOrder
  let separate := (defs.filter (!·.isMain)).mergeSort (separateOrder priority)
  let mainLen := mainLength main
  if Limits.maxMainLength < mainLen then
    throw (.mainBlockTooLarge name mainLen Limits.maxMainLength)
  if Limits.maxSeparateSlot < separate.length then
    throw (.tooManySeparate name separate.length Limits.maxSeparateSlot)
  let main := placeMain 0 main
  let separate := placeSeparate 1 separate
  let mainDefaults ← main.mapM (defaultBytes name)
  let props := main ++ separate
  return { name, id, mainLen, props, tree := pathTree 0 [] props, mainDefaults := mainDefaults.flatten }

end

/-! ## Types -/

/-- A reference on a link cannot store anything on links of its own. -/
def noEdges : EdgeCompiler Empty := fun type path _ _ => throw (.invalidProperty type path .edgesOnEdge)

/-- The key of the relation of a property. -/
def relationKey (type path : String) (target : Option RefTarget) : RelationKey :=
  let here := (type, path)
  let there :=
    match target with
    | some t => (t.type, t.inverse.getD "")
    | none => ("", "")
  if here.1 < there.1 ∨ (here.1 = there.1 ∧ here.2 ≤ there.2) then (here, there) else (there, here)

/-- The layout of what the links of a relation store; both ends share it. -/
def edgeLayout (c : Context) : EdgeCompiler EdgeLayout := fun type path target edges => do
  let key := relationKey type path target
  match (← get).find? (·.1 = key) with
  | some (_, layout) => return layout
  | none =>
    let name := key.1.1 ++ "." ++ key.1.2
    let flat ← flattenAll name [] edges
    checkPaths name flat
    let defs ← flat.mapM (compileProp c false noEdges name)
    let layout ← layoutOf c.priority name 0 defs
    modify fun cache => cache ++ [(key, layout)]
    return layout

/-- The layout of a type. -/
def typeLayout (c : Context) (name : String) (id : TypeId) (flat : List FlatProp) : CompileM TypeLayout := do
  checkPaths name flat
  let defs ← flat.mapM (compileProp c true (edgeLayout c) name)
  layoutOf c.priority name id defs

/-- The layouts of all types, whose ids start at `id`. -/
def typeLayouts (c : Context) (id : Nat) : FlatTypes → CompileM (List TypeLayout)
  | [] => return []
  | (name, flat) :: rest => do
    let layout ← typeLayout c name (UInt16.ofNat id) flat
    let others ← typeLayouts c (id + 1) rest
    return layout :: others

/-! ## Schemas -/

/-- The flattened types in the order of declaration, with the names met before. -/
def flattenTypes (seen : Std.HashSet String) : List (String × List (String × PropDecl)) → Except Error FlatTypes
  | [] => .ok []
  | (name, props) :: rest => do
    if seen.contains name then throw (.duplicateType name)
    let flat ← flattenAll name [] props
    let others ← flattenTypes (seen.insert name) rest
    return (name, flat) :: others

/-- The flattened types in the order of their names. -/
def sortTypes (types : FlatTypes) : FlatTypes := types.mergeSort fun a b => a.1 ≤ b.1

end Schema

/-- Compiles a declared schema. `priority` orders the separate properties of each type. -/
def SchemaDecl.compile (decl : SchemaDecl) (priority : Priority := fun _ => PropDef.defaultPriority) :
    Except Schema.Error SchemaLayout := do
  let locales ← Schema.compileLocales decl.locales
  if Limits.maxTypes < decl.types.length then
    throw (.tooManyTypes decl.types.length Limits.maxTypes)
  let flat ← Schema.flattenTypes ∅ decl.types
  let flat ← Schema.resolveInverses (Schema.sortTypes flat)
  let c : Schema.Context := { typeNames := flat.map (·.1), localeIds := locales.map (·.id), priority }
  let (types, _) ← (Schema.typeLayouts c 1 flat).run []
  return { types, locales, fingerprint := Sha256.digest (describeSchema types locales) }

end NodeStore
