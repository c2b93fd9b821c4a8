import NodeStore.Codec.Payload
import NodeStore.Engine.Store

/-!
# Contents from payloads

* `PropDef.store`: the content of a field after a payload was written to it. A text changes in one locale and a sketch
  grows; any other content is replaced.
-/

namespace NodeStore

open Engine

/-- The content of a field after a payload was written to it. -/
def PropDef.store {E L : Type} (p : PropDef L) (payload : Bytes) (existing : Option (Content E)) :
    Except Fault (Content E) :=
  match p.type with
  | .string | .alias | .binary => return .bytes (← ofWire (Payload.string payload))
  | .vector | .colvec => if payload.length = p.len then .ok (.bytes payload) else .error (.vectorLength p.name p.len)
  | .text => do
    let (locale, s) ← ofWire (Payload.text payload)
    match existing with
    | some (.text entries) => return .text (Assoc.insert locale s entries)
    | _ => return .text [(locale, s)]
  | .cardinality => do
    let hashes ← ofWire (Payload.readHashes payload)
    match existing with
    | some (.sketch known) => return .sketch (hashes.foldl (fun k h => KeySet.insert h k) known)
    | _ => return .sketch (KeySet.ofList hashes)
  | type => .error (.noPayload type)

namespace Engine.Node

variable {E L : Type}

/-- Writes a payload to a separate field. -/
def writePayload (p : PropDef L) (slot : UInt8) (payload : Bytes) (n : Node E) : Except Fault (Node E) :=
  return n.setField slot (← p.store payload (n.field? slot))

/-- Drops a text in one locale; no text is left without locales. -/
def dropText (slot : UInt8) (locale : UInt8) (n : Node E) : Node E :=
  match n.field? slot with
  | some (.text entries) =>
    match Assoc.erase locale entries with
    | [] => n.dropField slot
    | entries => n.setField slot (.text entries)
  | _ => n

end Engine.Node

end NodeStore
