import NodeStore.Hash.Sha256
import NodeStore.Schema.Layout
import NodeStore.Text.Utf8

/-!
# The fingerprint of a schema

Two schemas with the same layout have the same fingerprint: the digest of a description of the locales, the types and
their properties.

* `SchemaLayout.describe`: the bytes that are digested, built from `Layout.describe`.
-/

namespace NodeStore

/-- A string with its length in front. -/
def describeString (s : String) : Bytes := leBytes 4 (Utf8.size s) ++ Utf8.encode s

def Location.describe : Location → Bytes
  | .main offset => 0 :: leBytes 4 offset
  | .separate slot => [1, slot]

/-- The description of a property, given how to describe what its links store. -/
def PropDef.describe {E : Type} (edges : E → Bytes) (p : PropDef E) : Bytes :=
  describeString p.name ++ [p.type.tag] ++ p.location.describe ++ leBytes 4 p.len
    ++ p.enumValues.flatMap describeString
    ++ (match p.target with
      | some t => leBytes 2 t.id.toNat
      | none => [])
    ++ (match p.edges with
      | some e => edges e
      | none => [])

/-- The description of a layout, given how to describe what links store. -/
def Layout.describe {E : Type} (edges : E → Bytes) (t : Layout E) : Bytes :=
  leBytes 2 t.id.toNat ++ describeString t.name ++ leBytes 4 t.mainLen ++ t.props.flatMap (PropDef.describe edges)

/-- The description of what links store. -/
def EdgeLayout.describe (t : EdgeLayout) : Bytes := Layout.describe nofun t

/-- The description of a type with all that its links store. -/
def TypeLayout.describe (t : TypeLayout) : Bytes := Layout.describe EdgeLayout.describe t

/-- The description of the locales. -/
def describeLocales (locales : List Locale) : Bytes := locales.flatMap fun l => l.id :: l.fallback

/-- What the fingerprint digests. -/
def describeSchema (types : List TypeLayout) (locales : List Locale) : Bytes :=
  describeLocales locales ++ types.flatMap TypeLayout.describe

end NodeStore
