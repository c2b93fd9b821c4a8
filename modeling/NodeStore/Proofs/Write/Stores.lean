import NodeStore.Proofs.Engine.StoredValues
import NodeStore.Proofs.Write.Ledger
import NodeStore.Proofs.Write.Settled

/-!
# Stores of sessions

A memory is given the batches that sessions close. These are canonical as long as calls are steady, and so are the nodes
that they leave behind.

* `ReachedSteadily.sealed`: the batches of a session.
* `Built`: the memories that get no other ones; `Built.reached`, `Built.canonical`.
-/

namespace NodeStore.Write.Session

variable {decl : SchemaDecl} {priority : Priority} {schema : SchemaLayout} {options : Options} {s : Session}

/-- A session of steady calls closes canonical batches. -/
theorem ReachedSteadily.sealed (hschema : decl.compile priority = .ok schema) (h : ReachedSteadily schema options s) :
    ∀ b ∈ s.drain.1, Sealed schema b.bytes := by
  obtain ⟨is, ht⟩ := h.tracks hschema
  obtain ⟨l, hl⟩ := h.reached.logged hschema
  obtain ⟨is', ht'⟩ := (called_close s).tracks ht fun _ => nofun
  have hclosed := ht'.closed
  rwa [(alike_close s).schema, (hl.compiled hschema).2.1] at hclosed

/-- The memories that get the batches of sessions with steady calls, of less than four gigabytes each. -/
inductive Built (schema : SchemaLayout) : Engine.Memory → Prop
  | new : Built schema (.new schema)
  | refuseNext {m : Engine.Memory} (h : Built schema m) (reason : String) : Built schema (m.refuseNext reason)
  | apply {m : Engine.Memory} (h : Built schema m) {options : Options} {s : Session} (hs : ReachedSteadily schema options s)
      {b : Batch} (hb : b ∈ s.drain.1) (hsize : b.bytes.length < 2 ^ 32) : Built schema (m.apply b.bytes).2

namespace Built

variable {m : Engine.Memory}

theorem reached (h : Built schema m) : Engine.Reached schema m := by
  induction h with
  | new => exact .new
  | refuseNext _ reason ih => exact .refuseNext reason ih
  | apply _ _ _ _ ih => exact .apply _ ih

/-- Their nodes are canonical. -/
theorem canonical (hschema : decl.compile priority = .ok schema) (h : Built schema m) :
    m.store.Each schema Engine.Node.Canonical := by
  have hp := compile_placed hschema
  induction h with
  | new => exact .empty
  | refuseNext _ reason ih => exact ih
  | @apply m h options s hs b hb hsize ih =>
    obtain ⟨hm, hregular⟩ := Engine.reached_regular hp h.reached
    obtain ⟨is, hbytes, hcanonical⟩ := hs.sealed hschema b hb
    unfold Engine.Memory.apply
    split
    · exact ih
    · split
      · rename_i ids store happly
        rw [hm, hbytes] at happly
        exact Engine.applyBatch_canonical hp (compile_packed hschema) hcanonical (hbytes ▸ hsize) hregular ih happly
      · exact ih

end Built

end NodeStore.Write.Session
