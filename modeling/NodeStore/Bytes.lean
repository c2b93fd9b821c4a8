/-!
# Bytes: fixed-width little-endian numbers

Every number on the wire is a run of bytes, least significant first, of a width fixed by its place.

* `leBytes w n` / `leNat`: naturals, with the laws `leNat_leBytes` (as `n % 256 ^ w`), `leBytes_leNat` and
  `leNat_append`.
* `intBytes w i` / `leInt`: two's complement on the same bytes; `leInt_intBytes` holds inside the signed range.
* `Bytes.overwrite pos new bs` replaces a run of bytes in place: it keeps the length, and the bytes before and behind.
-/

namespace NodeStore

-- Powers are those of the naturals and integers themselves, whatever algebra is imported.
attribute [instance (2000)] instPowNat
attribute [default_instance 10001] instPowNat

/-- A string of bytes. -/
abbrev Bytes := List UInt8

/-! ## Naturals -/

/-- The `w` little-endian bytes of `n`; higher bits are dropped. -/
def leBytes : Nat → Nat → Bytes
  | 0, _ => []
  | w + 1, n => UInt8.ofNat n :: leBytes w (n / 256)

/-- The natural with the given little-endian bytes. -/
def leNat : Bytes → Nat
  | [] => 0
  | b :: bs => b.toNat + 256 * leNat bs

@[simp] theorem length_leBytes (w n : Nat) : (leBytes w n).length = w := by
  induction w generalizing n with
  | zero => rfl
  | succ w ih => simp [leBytes, ih]

theorem leNat_leBytes (w n : Nat) : leNat (leBytes w n) = n % 256 ^ w := by
  induction w generalizing n with
  | zero => simp [leBytes, leNat, Nat.mod_one]
  | succ w ih =>
    rw [leBytes, leNat, ih, Nat.pow_succ, Nat.mul_comm (256 ^ w), Nat.mod_mul]
    simp [UInt8.toNat_ofNat']

theorem leNat_leBytes_of_lt {w n : Nat} (h : n < 256 ^ w) : leNat (leBytes w n) = n := by
  rw [leNat_leBytes, Nat.mod_eq_of_lt h]

theorem leNat_lt (bs : Bytes) : leNat bs < 256 ^ bs.length := by
  induction bs with
  | nil => simp [leNat]
  | cons b bs ih =>
    have hb : b.toNat < 256 := b.toNat_lt
    rw [leNat, List.length_cons, Nat.pow_succ]
    omega

theorem leBytes_leNat (bs : Bytes) : leBytes bs.length (leNat bs) = bs := by
  induction bs with
  | nil => rfl
  | cons b bs ih =>
    have hb : b.toNat < 256 := b.toNat_lt
    rw [List.length_cons, leBytes, leNat, show (b.toNat + 256 * leNat bs) / 256 = leNat bs by omega, ih]
    congr 1
    apply UInt8.toNat.inj
    rw [UInt8.toNat_ofNat']
    omega

theorem leNat_append (as bs : Bytes) : leNat (as ++ bs) = leNat as + 256 ^ as.length * leNat bs := by
  induction as with
  | nil => simp [leNat]
  | cons a as ih =>
    rw [List.cons_append, leNat, leNat, ih, List.length_cons, Nat.pow_succ, Nat.mul_add, ← Nat.mul_assoc,
      Nat.mul_comm 256 (256 ^ _), Nat.add_assoc]

/-! ## Two's complement -/

/-- The `w` bytes of `i` in two's complement. -/
def intBytes (w : Nat) (i : Int) : Bytes :=
  leBytes w (i % ((256 ^ w : Nat) : Int)).toNat

/-- The two's complement integer with the given bytes. -/
def leInt (bs : Bytes) : Int :=
  (leNat bs : Int).bmod (256 ^ bs.length)

@[simp] theorem length_intBytes (w : Nat) (i : Int) : (intBytes w i).length = w := length_leBytes ..

theorem leInt_intBytes (w : Nat) (i : Int) : leInt (intBytes w i) = i.bmod (256 ^ w) := by
  have hpos : (0 : Int) < ((256 ^ w : Nat) : Int) := by exact_mod_cast Nat.pow_pos (by decide)
  have hnn : 0 ≤ i % ((256 ^ w : Nat) : Int) := Int.emod_nonneg _ (by omega)
  have hlt : (i % ((256 ^ w : Nat) : Int)).toNat < 256 ^ w := by
    have h := Int.emod_lt_of_pos i hpos
    omega
  rw [leInt, length_intBytes, intBytes, leNat_leBytes_of_lt hlt, Int.toNat_of_nonneg hnn]
  exact Int.emod_bmod ..

/-! ## Replacing bytes in place -/

/-- `bs` with the bytes from position `pos` on replaced by `new`, as far as `new` reaches. -/
def Bytes.overwrite (pos : Nat) (new bs : Bytes) : Bytes :=
  bs.take pos ++ new ++ bs.drop (pos + new.length)

theorem Bytes.length_overwrite {pos : Nat} {new bs : Bytes} (h : pos + new.length ≤ bs.length) :
    (Bytes.overwrite pos new bs).length = bs.length := by
  simp [Bytes.overwrite]
  omega

theorem Bytes.getElem?_overwrite {pos : Nat} {new bs : Bytes} (h : pos + new.length ≤ bs.length) (k : Nat) :
    (Bytes.overwrite pos new bs)[k]? =
      if k < pos then bs[k]? else if k < pos + new.length then new[k - pos]? else bs[k]? := by
  have hpos : (bs.take pos).length = pos := by simp; omega
  unfold overwrite
  split
  · rename_i hk
    rw [List.append_assoc, List.getElem?_append_left (by omega), List.getElem?_take, if_pos hk]
  · rename_i hk
    rw [List.append_assoc, List.getElem?_append_right (by omega), hpos]
    split
    · rw [List.getElem?_append_left (by omega)]
    · rw [List.getElem?_append_right (by omega), List.getElem?_drop]
      congr 1
      omega

/-- Bytes that stand between others are replaced by as many. -/
theorem Bytes.overwrite_append (front old new back : Bytes) (h : new.length = old.length) :
    Bytes.overwrite front.length new (front ++ old ++ back) = front ++ new ++ back := by
  simp [Bytes.overwrite, h, List.drop_append]

end NodeStore
