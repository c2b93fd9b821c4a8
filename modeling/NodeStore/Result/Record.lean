import NodeStore.Codec.Payload
import NodeStore.Query.Plan
import NodeStore.Record
import NodeStore.Result.Instr

/-!
# Reading records

A result is read by the plan of its query. A fault of the framing fails the whole result; a fault inside of a record
fails that record only. Fields that were asked for and did not come are null.

* `ReadPlan.decode`: the record of some instructions, by recursion on the plan.
* `decodeResult`: a whole result.
-/

namespace NodeStore

open Query

namespace Result

/-- Reads the body of a nested record. -/
abbrev Decoder := Bytes → Except Wire.Error Record

/-- What is known of a record while its instructions are read. -/
structure Partial where
  record : Record
  /-- The texts by slot, each with its property. -/
  texts : List (UInt8 × PropDef EdgeLayout × List (UInt8 × String))

namespace Partial

def empty : Partial := ⟨.empty, []⟩

/-- Stores the value of a property. -/
def put (s : Partial) (p : PropDef EdgeLayout) (v : Value) : Partial :=
  { s with record := Record.insertPath v p.path s.record }

/-- Stores a text in one locale. -/
def putText (s : Partial) (slot : UInt8) (p : PropDef EdgeLayout) (locale : UInt8) (text : String) : Partial :=
  let known := ((Assoc.find? slot s.texts).map (·.2)).getD []
  { s with texts := Assoc.insert slot (p, Assoc.insert locale text known) s.texts }

end Partial

/-- The name under which the size of a collection is stored. -/
def countKey (p : PropDef EdgeLayout) : String := s!"count({p.name})"

/-- The name of a field of the link. -/
def edgeKey (name : String) : String := "$" ++ name

def propAt (t : TypeLayout) (slot : UInt8) : Except Wire.Error (PropDef EdgeLayout) :=
  match t.propBySlot? slot with
  | some p => .ok p
  | none => .error (.unknownSlot t.name slot)

/-- Stores the values of a run of main properties that stand one behind the other. -/
def decodeParts (s : Partial) : List (PropDef EdgeLayout) → Bytes → Except Wire.Error Partial
  | [], [] => .ok s
  | [], _ :: _ => .error (.malformed "main block longer than requested")
  | p :: ps, bs =>
    if bs.length < p.len then .error (.endOfInput "main value")
    else do decodeParts (s.put p (← p.decodeFixed (bs.take p.len))) ps (bs.drop p.len)

/-- Stores the values of a main block, or of the parts that were asked for. -/
def decodeMain (t : TypeLayout) (plan : MainPlan) (bs : Bytes) (s : Partial) : Except Wire.Error Partial :=
  match plan with
  | .none => .error (.malformed "unrequested main block")
  | .all =>
    if bs.length ≠ t.mainLen then .error (.overrun "main block" t.mainLen bs.length)
    else
      t.mainProps.foldlM (fun s p => return s.put p (← p.decodeFixed ((bs.drop (p.offset?.getD 0)).take p.len))) s
  | .props ps => decodeParts s ps bs

/-- The text in the requested locale or in the first of its fallbacks, and all texts if none was requested. -/
def textValue (schema : SchemaLayout) (requested : Option UInt8) (texts : List (UInt8 × String)) :
    Except Wire.Error Value :=
  match requested with
  | none => do
    let entries ← texts.mapM fun (id, text) =>
      match Locale.codeOf? id with
      | some code => .ok (code, text)
      | none => .error (Wire.Error.malformed "text locale")
    return .text (Assoc.ofList entries)
  | some locale =>
    let chain := locale :: ((schema.localeById? locale).map (·.fallback)).getD []
    match chain.findSome? (Assoc.find? · texts) with
    | some text => .ok (.string text)
    | none => .ok .null

/-- Reads a record and stores its id. -/
def decodeNode (decode : Decoder) (f : NodeId × Bytes) : Except Wire.Error Record := do
  return (← decode f.2).insert "id" (.int (.ofInt f.1.toNat))

/-- The record of a reference. -/
def decodeLink (decode : Decoder) (body : Bytes) : Except Wire.Error Value := do
  match readFrame "nested record" (.ofBytes body) with
  | .error e _ => throw e
  | .ok f r =>
    let record ← decodeNode decode f
    if !r.isEmpty then throw (.malformed "bytes after reference records")
    return .object record

/-- The records of a collection. -/
def decodeLinks (decode : Decoder) (body : Bytes) : Except Wire.Error Value := do
  match Wire.Read.nat 4 "reference count" (.ofBytes body) with
  | .error e _ => throw e
  | .ok n r =>
    let (fs, rest) := frames "nested record" n r
    let records ← fs.mapM (decodeNode decode)
    if !(← rest).isEmpty then throw (.malformed "bytes after reference records")
    return .list (records.map .object)

/-- How the instructions of one record are read. -/
structure Context where
  schema : SchemaLayout
  layout : TypeLayout
  main : MainPlan
  links : List (UInt8 × PropDef EdgeLayout × Decoder)
  edges : Option Decoder

/-- The reference at a slot, if its nodes were asked for. -/
def Context.link (c : Context) (slot : UInt8) : Except Wire.Error (PropDef EdgeLayout × Decoder) :=
  match Assoc.find? slot c.links with
  | some l => .ok l
  | none => .error (.unknownSlot c.layout.name slot)

/-- Takes in one instruction other than the end mark. -/
def Context.step (c : Context) (s : Partial) : Instr → Except Wire.Error Partial
  | .main block => decodeMain c.layout c.main block s
  | .field slot payload => do
    let p ← propAt c.layout slot
    if p.type = .text then
      let (locale, text) ← Payload.text payload
      return s.putText slot p locale text
    else return s.put p (← p.decodeSeparate payload)
  | .link slot body => do
    let (p, decode) ← c.link slot
    return s.put p (← decodeLink decode body)
  | .links slot body => do
    let (p, decode) ← c.link slot
    return s.put p (← decodeLinks decode body)
  | .edge body =>
    match c.edges with
    | none => .error (.malformed "unrequested edge block")
    | some decode => do
      let fields ← decode body
      return { s with record := fields.foldl (fun r f => r.insert (edgeKey f.1) f.2) s.record }
  | .count slot kind value =>
    if AggregateKind.ofCode? kind ≠ some .count then .error (.badOpcode kind "reference count")
    else do
      let p ← propAt c.layout slot
      return { s with record := s.record.insert (countKey p) (.int (.ofInt value)) }
  | .stop => .ok s

/-- Takes in the instructions up to the end mark, which has to be the last byte. -/
def Context.run (c : Context) (s : Partial) (r : Wire.Reader) : Except Wire.Error Partial :=
  match _h : Instr.read r with
  | .error e _ => .error e
  | .ok .stop r => if r.isEmpty then .ok s else .error (.malformed "bytes after END")
  | .ok i r => do c.run (← c.step s i) r
  termination_by r.rest.length
  decreasing_by
    have := Instr.takes_read _ _ _ _h
    simp at this
    omega

/-- Stores a null unless there is a value. -/
def fillProp (r : Record) (p : PropDef EdgeLayout) : Record :=
  if r.hasPath p.path then r else Record.insertPath .null p.path r

/-- Stores a value unless there is one. -/
def fillKey (v : Value) (r : Record) (key : String) : Record :=
  if (r.get? key).isSome then r else r.insert key v

/-- The main properties of a plan. -/
def mainProps (t : TypeLayout) : MainPlan → List (PropDef EdgeLayout)
  | .none => []
  | .all => t.mainProps
  | .props ps => ps

mutual

/-- Stores nulls for the fields of a plan that did not come, and 0 for the sizes. -/
def fillMissing : ReadPlan → Record → Record
  | ⟨layout, main, fields, links, edges, counts, _⟩, r =>
    let r := (mainProps layout main ++ fields ++ links.map (·.prop)).foldl fillProp r
    let r := (counts.map countKey).foldl (fillKey (.int 0)) r
    fillEdges edges r

def fillEdges : Option ReadPlan → Record → Record
  | none, r => r
  | some plan, r => (fillMissing plan .empty).foldl (fun r f => fillKey f.2 r (edgeKey f.1)) r

end

/-- The texts of a record, in the order of their slots. -/
def putTexts (c : Context) (locale : Option UInt8) (s : Partial) : Except Wire.Error Record := do
  s.texts.foldlM (fun r (_, p, texts) => return Record.insertPath (← textValue c.schema locale texts) p.path r) s.record

mutual

/-- The record that some instructions make by a plan. -/
def decodeBody (schema : SchemaLayout) : ReadPlan → Decoder
  | ⟨layout, main, fields, links, edges, counts, locale⟩, body => do
    let c : Context := ⟨schema, layout, main, linkDecoders schema links, edgeDecoder schema edges⟩
    let s ← c.run .empty (.ofBytes body)
    return fillMissing ⟨layout, main, fields, links, edges, counts, locale⟩ (← putTexts c locale s)

def linkDecoders (schema : SchemaLayout) : List (LinkPlan ReadPlan) → List (UInt8 × PropDef EdgeLayout × Decoder)
  | [] => []
  | ⟨p, slot, plan⟩ :: rest => (slot, p, decodeBody schema plan) :: linkDecoders schema rest

def edgeDecoder (schema : SchemaLayout) : Option ReadPlan → Option Decoder
  | none => none
  | some plan => some (decodeBody schema plan)

end

end Result

/-- The answer to a query for records. -/
structure QueryResult where
  /-- The matching nodes before the range was applied. -/
  total : Nat
  records : List (Except Wire.Error Record)

namespace QueryResult

/-- The first record that could not be read. -/
def firstError? (r : QueryResult) : Option Wire.Error :=
  r.records.findSome? fun
    | .error e => some e
    | .ok _ => none

end QueryResult

namespace Result

/-- Reads a result: the number of matching nodes, then framed records to the end. -/
def decodeResult (schema : SchemaLayout) (plan : ReadPlan) (bs : Bytes) : Except Wire.Error QueryResult := do
  match Wire.Read.nat 4 "result total" (.ofBytes bs) with
  | .error e _ => throw e
  | .ok total r =>
    let fs ← allFrames r
    return ⟨total, fs.map (decodeNode (decodeBody schema plan))⟩
where
  /-- The framed records of what is left. -/
  allFrames (r : Wire.Reader) : Except Wire.Error (List (NodeId × Bytes)) :=
    if r.isEmpty then .ok []
    else
      match _h : readFrame "record" r with
      | .error e _ => .error e
      | .ok f r => return f :: (← allFrames r)
  termination_by r.rest.length
  decreasing_by
    have := takes_readFrame "record" _ _ _ _h
    simp at this
    omega

end Result

end NodeStore
