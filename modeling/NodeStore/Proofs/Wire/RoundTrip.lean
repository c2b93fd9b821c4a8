import NodeStore.Wire.Reader
import NodeStore.Wire.Writer

/-!
# Reading what was written

A reader at the front of what a writer wrote gets it back, and stands behind it; what follows does not matter.

* `Reads x bs a`: the action `x` makes `a` of the bytes `bs`, wherever they stand.
* `Reads.bind`, and one lemma for each primitive.
* `length_le_flatMap_of_mem`, `length_le_length_flatMap`: the lengths of pieces that are written one after the other.
-/

namespace NodeStore.Wire

variable {ε α β : Type}

/-- The action makes `a` of exactly these bytes, whatever follows them. -/
def Reads (x : EStateM ε Reader α) (bs : Bytes) (a : α) : Prop :=
  ∀ pos rest, x ⟨pos, bs ++ rest⟩ = .ok a ⟨pos + bs.length, rest⟩

namespace Reads

theorem pure (a : α) : Reads (Pure.pure a : EStateM ε Reader α) [] a := fun _ _ => rfl

theorem bind {x : EStateM ε Reader α} {f : α → EStateM ε Reader β} {bs cs : Bytes} {a : α} {b : β}
    (hx : Reads x bs a) (hf : Reads (f a) cs b) : Reads (x >>= f) (bs ++ cs) b := by
  intro pos rest
  change EStateM.bind x f _ = _
  unfold EStateM.bind
  rw [List.append_assoc, hx]
  dsimp only
  rw [hf, List.length_append, Nat.add_assoc]

theorem map {x : EStateM ε Reader α} {f : α → β} {bs : Bytes} {a : α} (hx : Reads x bs a) :
    Reads (f <$> x) bs (f a) := by
  intro pos rest
  change EStateM.map f x _ = _
  unfold EStateM.map
  rw [hx]

/-- An action that takes nothing more. -/
theorem bind_pure {x : EStateM ε Reader α} {f : α → EStateM ε Reader β} {bs : Bytes} {a : α} {b : β}
    (hx : Reads x bs a) (hf : Reads (f a) [] b) : Reads (x >>= f) bs b := by
  simpa using hx.bind hf

theorem byte (context : String) (b : UInt8) : Reads (Read.byte context) [b] b := fun _ _ => rfl

theorem bytes {n : Nat} {bs : Bytes} (h : bs.length = n) (context : String) : Reads (Read.bytes n context) bs bs := by
  intro pos rest
  unfold Read.bytes
  rw [if_pos (by simp [h])]
  simp [Reader.advance, ← h]

theorem nat {w n : Nat} (h : n < 256 ^ w) (context : String) : Reads (Read.nat w context) (leBytes w n) n := by
  have := (bytes (length_leBytes w n) context).map (f := leNat)
  rwa [leNat_leBytes_of_lt h] at this

/-- Of a number that has no room in its bytes the higher bits are lost. -/
theorem nat_mod (w n : Nat) (context : String) : Reads (Read.nat w context) (leBytes w n) (n % 256 ^ w) := by
  have := (bytes (length_leBytes w n) context).map (f := leNat)
  rwa [leNat_leBytes] at this

theorem u16 (n : UInt16) (context : String) : Reads (Read.u16 context) (leBytes 2 n.toNat) n := by
  have := (nat (w := 2) (n := n.toNat) (by simpa using n.toNat_lt) context).map (f := UInt16.ofNat)
  rwa [UInt16.ofNat_toNat] at this

theorem u32 (n : UInt32) (context : String) : Reads (Read.u32 context) (leBytes 4 n.toNat) n := by
  have := (nat (w := 4) (n := n.toNat) (by simpa using n.toNat_lt) context).map (f := UInt32.ofNat)
  rwa [UInt32.ofNat_toNat] at this

theorem bounded {n : Nat} {bs : Bytes} (h : bs.length = n) (context : String) :
    Reads (Read.bounded n context) bs bs := by
  intro pos rest
  unfold Read.bounded
  rw [if_pos (by simp [h])]
  simp [Reader.advance, ← h]

/-- A length has four bytes. -/
theorem sized {body : Bytes} (h : body.length < 2 ^ 32) (context : String) :
    Reads (Read.sized context) (Wire.sized body) body :=
  (nat (w := 4) h context).bind (bounded rfl context)

theorem propType (t : PropType) (context : String) : Reads (Read.propType context) [t.tag] t := by
  refine (byte context t.tag).bind_pure ?_
  rw [PropType.ofTag?_tag]
  exact pure t

end Reads

/-- The length of what has its length in front. -/
@[simp] theorem length_sized (body : Bytes) : (sized body).length = 4 + body.length := by
  simp [sized]

/-! ### Pieces of a whole -/

section

variable (f : α → Bytes) {as : List α}

theorem length_le_flatMap_of_mem {a : α} (h : a ∈ as) : (f a).length ≤ (as.flatMap f).length :=
  (List.sublist_flatten_of_mem (List.mem_map_of_mem h)).length_le

/-- There are no more pieces than bytes. -/
theorem length_le_length_flatMap {f : α → Bytes} (hf : ∀ a, 0 < (f a).length) (as : List α) :
    as.length ≤ (as.flatMap f).length := by
  induction as with
  | nil => exact Nat.le_refl _
  | cons a as ih =>
    have := hf a
    rw [List.flatMap_cons, List.length_append, List.length_cons]
    omega

end

theorem length_sized_pos (body : Bytes) : 0 < (sized body).length := by
  rw [length_sized]
  omega

end NodeStore.Wire
