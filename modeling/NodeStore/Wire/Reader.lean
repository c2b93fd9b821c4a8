import NodeStore.Binary64
import NodeStore.Schema.PropType
import NodeStore.Wire.Error

/-!
# Reading encoded data

A `Reader` is what is left of a byte string, with the number of bytes already read; a `Read` action takes bytes from
its front or stops with a fault, and its state shows how far it came either way.

* `Read.byte`, `Read.nat w`, `Read.double`, `Read.bytes n`: the primitives.
* `Read.sized`: a length in four bytes, then that many bytes; `Read.sub n`: a reader of its own over the next `n`.
* `Takes x k`: the action `x` keeps the whole length and moves forward by at least `k` bytes.
-/

namespace NodeStore.Wire

/-- Unread bytes and the number of those read before them. -/
structure Reader where
  pos : Nat
  rest : Bytes
  deriving DecidableEq, Inhabited

/-- A reader at the start of a byte string. -/
def Reader.ofBytes (bs : Bytes) : Reader := ⟨0, bs⟩

def Reader.remaining (r : Reader) : Nat := r.rest.length

def Reader.isEmpty (r : Reader) : Bool := r.rest.isEmpty

/-- The reader behind the next `n` bytes. -/
def Reader.advance (n : Nat) (r : Reader) : Reader := ⟨r.pos + n, r.rest.drop n⟩

/-- An action on a reader. -/
abbrev Read := EStateM Error Reader

namespace Read

/-- Exactly `n` bytes. -/
def bytes (n : Nat) (context : String) : Read Bytes := fun r =>
  if n ≤ r.rest.length then .ok (r.rest.take n) (r.advance n) else .error (.endOfInput context) r

/-- One byte. -/
def byte (context : String) : Read UInt8 := fun r =>
  match r.rest with
  | b :: rest => .ok b ⟨r.pos + 1, rest⟩
  | [] => .error (.endOfInput context) r

/-- A natural of `w` bytes. -/
def nat (w : Nat) (context : String) : Read Nat := leNat <$> bytes w context

def u16 (context : String) : Read UInt16 := UInt16.ofNat <$> nat 2 context

def u32 (context : String) : Read UInt32 := UInt32.ofNat <$> nat 4 context

def double (context : String) : Read Binary64 := Binary64.ofBytes <$> bytes 8 context

/-- The next `n` bytes, where running past the end means that a boundary was crossed. -/
def bounded (n : Nat) (context : String) : Read Bytes := fun r =>
  if n ≤ r.rest.length then .ok (r.rest.take n) (r.advance n) else .error (.overrun context n r.rest.length) r

/-- A length in four bytes and that many bytes. -/
def sized (context : String) : Read Bytes := do
  bounded (← nat 4 context) context

/-- A reader of its own over the next `n` bytes. -/
def sub (n : Nat) (context : String) : Read Reader := Reader.ofBytes <$> bounded n context

/-- The tag of a property type. -/
def propType (context : String) : Read PropType := do
  let tag ← byte context
  match PropType.ofTag? tag with
  | some t => return t
  | none => throw (.badTypeTag tag)

/-- The same action `n` times. -/
def list {α : Type} (x : Read α) : Nat → Read (List α)
  | 0 => return []
  | n + 1 => do
    let a ← x
    let as ← list x n
    return a :: as

/-- Is everything read? -/
def atEnd : Read Bool := Reader.isEmpty <$> get

end Read

/-- The result of an action on a whole byte string, whatever it leaves. -/
def Read.run {α : Type} (x : Read α) (bs : Bytes) : Except Error α :=
  match x (Reader.ofBytes bs) with
  | .ok a _ => .ok a
  | .error e _ => .error e

/-! ## Progress -/

/-- Reading `a` moves at least `k a` bytes forward, and what is read and what is left add up to the same length. -/
def Takes {ε α : Type} (x : EStateM ε Reader α) (k : α → Nat) : Prop :=
  ∀ r a r', x r = .ok a r' → r.pos + k a ≤ r'.pos ∧ r'.pos + r'.rest.length = r.pos + r.rest.length

namespace Takes

variable {ε α β : Type}

theorem mono {x : EStateM ε Reader α} {k l : α → Nat} (h : Takes x k) (hl : ∀ a, l a ≤ k a) : Takes x l := by
  intro r a r' hx
  have := h r a r' hx
  have := hl a
  omega

theorem pure {a : α} {k : α → Nat} (h : k a = 0) : Takes (Pure.pure a : EStateM ε Reader α) k := by
  intro r b r' hx
  cases hx
  omega

theorem throw {e : ε} {k : α → Nat} : Takes (MonadExcept.throw e : EStateM ε Reader α) k := by
  intro r b r' hx
  cases hx

/-- Actions in a row: what the first takes need not be taken by the second. -/
theorem bind {x : EStateM ε Reader α} {f : α → EStateM ε Reader β} {k : α → Nat} {l : β → Nat} (hx : Takes x k)
    (hf : ∀ a, Takes (f a) fun b => l b - k a) : Takes (x >>= f) l := by
  intro r b r' h
  change EStateM.bind x f r = _ at h
  unfold EStateM.bind at h
  split at h
  · rename_i a r₁ h₁
    have := hx r a r₁ h₁
    have : r₁.pos + (l b - k a) ≤ r'.pos ∧ _ := hf a r₁ b r' h
    omega
  · cases h

theorem map {x : EStateM ε Reader α} {f : α → β} {k : α → Nat} {l : β → Nat} (hx : Takes x k)
    (h : ∀ a, l (f a) ≤ k a) : Takes (f <$> x) l := by
  intro r b r' hr
  change EStateM.map f x r = _ at hr
  unfold EStateM.map at hr
  split at hr
  · rename_i a r₁ h₁
    cases hr
    have := hx r a _ h₁
    have := h a
    omega
  · cases hr

theorem byte (context : String) : Takes (Read.byte context) fun _ => 1 := by
  intro r a r' h
  unfold Read.byte at h
  split at h
  · rename_i b rest hr
    cases h
    simp [hr]
    omega
  · cases h

theorem bytes (n : Nat) (context : String) : Takes (Read.bytes n context) fun _ => n := by
  intro r a r' h
  unfold Read.bytes at h
  split at h
  · cases h
    simp [Reader.advance]
    omega
  · cases h

theorem nat (w : Nat) (context : String) : Takes (Read.nat w context) fun _ => w :=
  map (bytes w context) fun _ => Nat.le_refl _

theorem u16 (context : String) : Takes (Read.u16 context) fun _ => 2 :=
  map (nat 2 context) fun _ => Nat.le_refl _

theorem u32 (context : String) : Takes (Read.u32 context) fun _ => 4 :=
  map (nat 4 context) fun _ => Nat.le_refl _

theorem bounded (n : Nat) (context : String) : Takes (Read.bounded n context) fun bs => bs.length := by
  intro r a r' h
  unfold Read.bounded at h
  split at h
  · cases h
    simp [Reader.advance]
    omega
  · cases h

theorem sized (context : String) : Takes (Read.sized context) fun bs => 4 + bs.length :=
  bind (nat 4 context) fun n => mono (bounded n context) fun bs => by omega

theorem propType (context : String) : Takes (Read.propType context) fun _ => 1 := by
  refine bind (byte context) fun tag => ?_
  split
  · exact pure rfl
  · exact throw

end Takes

end NodeStore.Wire
