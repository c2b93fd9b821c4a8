import NodeStore.Engine.Order
import NodeStore.Engine.Scan
import NodeStore.Query.Descriptor
import NodeStore.Result.Instr

/-!
# Writing records

A record holds what the include descriptor of the query asks for. The nodes of references are filtered, sorted and cut
before their own records are written.

* `Ask`: the items of a descriptor as they are met.
* `recordBody`: the instructions of a record; `record`: a framed record.
-/

namespace NodeStore.Engine

open Query (IncludeItem SortSpec Range)
open Result (Instr)

/-- An item of an encoded descriptor. -/
inductive Ask where
  /-- Parts of the main block, already taken out of it. -/
  | main (bytes : Bytes)
  | field (slot locale : UInt8)
  | link (one : Bool) (slot : UInt8) (range : Range) (sort : Option SortSpec) (filter body : Bytes)
  | edge (body : Bytes)
  | count (slot : UInt8)

namespace Ask

/-- The bytes of some parts of a main block, of which `n` follow. -/
def parts (main : Bytes) : Nat → Scan Bytes
  | 0 => return []
  | n + 1 => do
    let start ← Wire.Read.nat 4 "main start"
    let length ← Wire.Read.nat 2 "main len"
    if main.length < start + length then throw .includePlace
    else
      let rest ← parts main n
      return (main.drop start).take length ++ rest

/-- The item at the front of what is left, for a node with that main block. -/
def read (main : Bytes) : Scan Ask := do
  let opcode ← Wire.Read.byte "include item"
  if opcode = IncludeItem.opMain then
    let n ← Wire.Read.nat 2 "main ranges"
    if n = 0 then return .main main
    let bytes ← parts main n
    return .main bytes
  else if opcode = IncludeItem.opField then
    let slot ← Wire.Read.byte "field slot"
    let _ ← Wire.Read.byte "field type"
    let locale ← Wire.Read.byte "field locale"
    return .field slot locale
  else if opcode = IncludeItem.opLink ∨ opcode = IncludeItem.opLinks then
    let slot ← Wire.Read.byte "reference slot"
    let _ ← Wire.Read.u16 "reference type"
    let range ← Range.read
    let sort ← SortSpec.read
    let filter ← Wire.Read.sized "reference filter"
    let body ← Wire.Read.sized "reference include"
    return .link (opcode = IncludeItem.opLink) slot range sort filter body
  else if opcode = IncludeItem.opEdge then
    let body ← Wire.Read.sized "edge include"
    return .edge body
  else if opcode = IncludeItem.opCount then
    let slot ← Wire.Read.byte "count slot"
    return .count slot
  else throw (.wire (.badOpcode opcode "include descriptor"))

/-- The bytes of an item that are a descriptor of their own. -/
def nested : Ask → Nat
  | link _ _ _ _ _ body | edge body => body.length
  | _ => 0

open Wire in
theorem takes_parts (main : Bytes) (n : Nat) : Takes (parts main n) fun _ => 0 := by
  induction n with
  | zero => exact .pure rfl
  | succ n ih =>
    refine .bind (Scan.takes_ofRead (.nat 4 _)) fun start => .bind (Scan.takes_ofRead (.nat 2 _)) fun length => ?_
    split
    · exact .throw
    · exact .bind ih fun _ => .pure (by omega)

open Wire in
/-- An item takes its opcode and what is nested in it. -/
theorem takes_read (main : Bytes) : Takes (read main) fun a => 1 + a.nested := by
  have hr : Takes Range.read fun _ => 0 :=
    .bind (.u32 _) fun _ => .bind (.u32 _) fun _ => .pure (by omega)
  have hs : Takes SortSpec.read fun _ => 0 := by
    refine .bind (.byte _) fun flag => ?_
    split
    · exact .pure (by omega)
    · exact .bind (.byte _) fun _ => .bind (.byte _) fun _ => .bind (.propType _) fun _ => .bind (.nat 4 _) fun _ =>
        .bind (.nat 2 _) fun _ => .bind (.byte _) fun _ => .pure (by omega)
  refine .bind (Scan.takes_ofRead (.byte _)) fun opcode => ?_
  split
  · refine .bind (Scan.takes_ofRead (.nat 2 _)) fun n => ?_
    split
    · exact .pure (by simp only [nested])
    · exact .bind (takes_parts main n) fun _ => .pure (by simp only [nested])
  · split
    · exact .bind (Scan.takes_ofRead (.byte _)) fun _ => .bind (Scan.takes_ofRead (.byte _)) fun _ =>
        .bind (Scan.takes_ofRead (.byte _)) fun _ => .pure (by simp only [nested])
    · split
      · exact .bind (Scan.takes_ofRead (.byte _)) fun _ => .bind (Scan.takes_ofRead (.u16 _)) fun _ =>
          .bind (Scan.takes_ofRead hr) fun _ => .bind (Scan.takes_ofRead hs) fun _ =>
            .bind (Scan.takes_ofRead (.sized _)) fun _ => .bind (Scan.takes_ofRead (.sized _)) fun _ =>
              .pure (by simp only [nested]; omega)
      · split
        · exact .bind (Scan.takes_ofRead (.sized _)) fun _ => .pure (by simp only [nested]; omega)
        · split
          · exact .bind (Scan.takes_ofRead (.byte _)) fun _ => .pure (by simp only [nested])
          · exact .throw

end Ask

/-- The payloads of a separate field: a text has one for each locale that is asked for and present. -/
def payloads (schema : SchemaLayout) (p : PropDef EdgeLayout) (locale : UInt8) : Option (Content EdgeNode) → List Bytes
  | none | some (.ref _) | some (.refs _) => []
  | some (.bytes bs) =>
    match p.type with
    | .vector | .colvec => [bs]
    | _ => [Payload.plain bs]
  | some (.text entries) =>
    let locales := if locale = Locale.none then entries.map (·.1) else localeChain schema locale
    locales.filterMap fun l => (Assoc.find? l entries).map (Payload.localized l)
  | some (.sketch hashes) => [leBytes 4 hashes.length]

/-- The instructions of a separate field. -/
def fieldInstrs (schema : SchemaLayout) (t : TypeLayout) (n : StoredNode) (slot locale : UInt8) :
    Except Fault Bytes :=
  match t.propBySlot? slot with
  | none => .error (.wire (.unknownSlot t.name slot))
  | some p => .ok ((payloads schema p locale (n.field? slot)).flatMap fun payload => (Instr.field slot payload).encode)

/-- The nodes among some that pass a filter block. -/
def passing (schema : SchemaLayout) (store : Store) (filter : Bytes) (ss : List Subject) : Except Fault (List Subject) :=
  ss.filterM fun s => s.passes schema store filter

/-- The framed records of some nodes; `body` makes the instructions of each. -/
def framed (body : Subject → Except Fault Bytes) (ss : List Subject) : Except Fault (List Bytes) :=
  ss.mapM fun s => return Result.frame s.id (← body s)

/-- The instructions of a record: what the rest of a descriptor asks for, and the end mark. -/
def recordBody (schema : SchemaLayout) (store : Store) (descriptor : Bytes) (s : Subject) : Except Fault Bytes :=
  if descriptor.isEmpty then .ok Instr.stop.encode
  else
    match _h : Ask.read s.node.main (.ofBytes descriptor) with
    | .error e _ => .error e
    | .ok (.main bytes) r => return (Instr.main bytes).encode ++ (← recordBody schema store r.rest s)
    | .ok (.field slot locale) r => do
      let field ← fieldInstrs schema s.layout s.node slot locale
      return field ++ (← recordBody schema store r.rest s)
    | .ok (.link one slot range sort filter body) r => do
      let linked ← linkedSubjects schema store s.layout slot (s.node.links slot)
      let hits := arrange schema sort (some range) (← passing schema store filter linked)
      let records ← framed (recordBody schema store body) (if one then hits.take 1 else hits)
      let instrs := if one then records.flatMap fun bytes => (Instr.link slot bytes).encode
        else (Instr.links slot (leBytes 4 records.length ++ records.flatten)).encode
      return instrs ++ (← recordBody schema store r.rest s)
    | .ok (.edge body) r => do
      let edge ← match s.edge with
        | none => pure []
        | some (t, n) => pure (Instr.edge (← recordBody schema store body (.ofEdge t n))).encode
      return edge ++ (← recordBody schema store r.rest s)
    | .ok (.count slot) r => do
      let size := Instr.count slot Query.AggregateKind.count.code (s.node.links slot).length
      return size.encode ++ (← recordBody schema store r.rest s)
  termination_by descriptor.length
  decreasing_by
    all_goals
      have hr := Ask.takes_read _ _ _ _ _h
      simp only [Wire.Reader.ofBytes, Ask.nested] at hr
      omega

/-- The framed record of a node. -/
def record (schema : SchemaLayout) (store : Store) (descriptor : Bytes) (s : Subject) : Except Fault Bytes :=
  return Result.frame s.id (← recordBody schema store descriptor s)

end NodeStore.Engine
