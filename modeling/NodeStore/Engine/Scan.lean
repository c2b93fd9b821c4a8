import NodeStore.Engine.Fault
import NodeStore.Wire.Reader

/-!
# Reading instructions

* `Scan`: an action on a reader that can fail with any fault of the engine; reading encoded data is one, and so is a
  test that needs no reader.
* `Scan.run`: the result on a whole byte string.
-/

namespace NodeStore.Engine

/-- An action on a reader. -/
abbrev Scan := EStateM Fault Wire.Reader

/-- Reads encoded data. -/
def Scan.ofRead {α : Type} (x : Wire.Read α) : Scan α := fun r =>
  match x r with
  | .ok a r => .ok a r
  | .error e r => .error (.wire e) r

/-- A test that needs no reader. -/
def Scan.ofExcept {α : Type} (x : Except Fault α) : Scan α := fun r =>
  match x with
  | .ok a => .ok a r
  | .error e => .error e r

instance : MonadLift Wire.Read Scan := ⟨Scan.ofRead⟩

instance : MonadLift (Except Fault) Scan := ⟨Scan.ofExcept⟩

/-- The result on a whole byte string, whatever is left of it. -/
def Scan.run {α : Type} (x : Scan α) (bs : Bytes) : Except Fault α :=
  match x (.ofBytes bs) with
  | .ok a _ => .ok a
  | .error e _ => .error e

theorem Scan.takes_ofRead {α : Type} {x : Wire.Read α} {k : α → Nat} (h : Wire.Takes x k) :
    Wire.Takes (Scan.ofRead x) k := by
  intro r a r' hx
  unfold Scan.ofRead at hx
  split at hx
  · rename_i h₁
    cases hx
    exact h _ _ _ h₁
  · cases hx

theorem Scan.takes_ofExcept {α : Type} (x : Except Fault α) : Wire.Takes (Scan.ofExcept x) fun _ => 0 := by
  intro r a r' hx
  unfold Scan.ofExcept at hx
  split at hx
  · cases hx
    exact ⟨Nat.le_refl _, rfl⟩
  · cases hx

/-- Fails unless there is a value. -/
def orFail {α : Type} (f : Fault) : Option α → Except Fault α
  | some a => .ok a
  | none => .error f

end NodeStore.Engine
