import NodeStore.Limits
import NodeStore.Query.Error
import NodeStore.Wire.Reader

/-!
# Sort orders and ranges

* `SortBy`: the order of a query, by the id or by one property.
* `SortSpec`: the same on the wire, with `SortSpec.encode` and `SortSpec.read`.
* `Range`: a part of a result, with `Range.encode` and `Range.read`.
-/

namespace NodeStore.Query

/-- The order of a result. -/
structure SortBy where
  field : String
  descending : Bool
  deriving DecidableEq, Inhabited

/-- A part of a result: how many entries are skipped, and how many follow at most. -/
structure Range where
  offset : UInt32
  limit : UInt32
  deriving DecidableEq, Inhabited

namespace Range

/-- The whole result. -/
def whole : Range := ⟨0, 0xffffffff⟩

def encode (r : Range) : Bytes := leBytes 4 r.offset.toNat ++ leBytes 4 r.limit.toNat

open Wire in
/-- The range at the front of what is left. -/
def read : Read Range := do
  let offset ← Read.u32 "range offset"
  let limit ← Read.u32 "range limit"
  return ⟨offset, limit⟩

/-- The entries in the range. -/
def slice {α : Type} (r : Range) (entries : List α) : List α := (entries.drop r.offset.toNat).take r.limit.toNat

end Range

/-- A sort order on the wire: the field by its place. -/
structure SortSpec where
  descending : Bool
  slot : UInt8
  type : PropType
  start : Nat
  width : Nat
  locale : UInt8
  deriving DecidableEq, Inhabited

namespace SortSpec

/-- The bytes of an order, if there is one. -/
def encode : Option SortSpec → Bytes
  | none => [0]
  | some s =>
    1 :: (if s.descending then 1 else 0) :: s.slot :: s.type.tag :: leBytes 4 s.start ++ leBytes 2 s.width ++ [s.locale]

open Wire in
/-- The order at the front of what is left. -/
def read : Read (Option SortSpec) := do
  if (← Read.byte "sort flag") = 0 then return none
  let order ← Read.byte "sort order"
  let slot ← Read.byte "sort slot"
  let type ← Read.propType "sort type"
  let start ← Read.nat 4 "sort start"
  let width ← Read.nat 2 "sort len"
  let locale ← Read.byte "sort locale"
  return some { descending := order = 1, slot, type, start, width, locale }

end SortSpec

/-- Types whose values have no order. -/
def unordered : PropType → Bool
  | .reference | .references | .vector | .colvec | .cardinality => true
  | _ => false

/-- The place of a sort order's field; texts are compared in one locale. -/
def SortBy.spec (s : SortBy) (t : TypeLayout) (locale : UInt8) : Except Error SortSpec :=
  if s.field = "id" ∧ !t.isEdge then
    .ok { descending := s.descending, slot := Limits.idSlot, type := .uint32, start := 0, width := 4, locale := 0 }
  else
    match t.prop? s.field with
    | none => .error (.unknownField t.name s.field)
    | some p =>
      if unordered p.type then .error (.unsupported p.name "sort" p.type)
      else
        .ok { descending := s.descending, slot := p.slot?.getD Limits.mainSlot, type := p.type,
              start := p.offset?.getD 0, width := if p.isMain then p.len else 0,
              locale := if p.type = .text then locale else 0 }

/-- The place of an optional sort order's field. -/
def sortSpec? (sort : Option SortBy) (t : TypeLayout) (locale : UInt8) : Except Error (Option SortSpec) :=
  sort.mapM (·.spec t locale)

end NodeStore.Query
