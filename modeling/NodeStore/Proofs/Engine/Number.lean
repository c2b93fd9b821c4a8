import NodeStore.Engine.Condition

/-!
# Stored numbers read back

Bytes of the same length that stand for the same number are the same, and a number that was written within the range of
its type is read back.

* `leNat_inj`, `leInt_inj`; `readInt_inj` and `readInt_intBytes` for the integers of property types.
* `pieces_flatten`: a run of pieces of one width cut up again.
-/

namespace NodeStore

theorem leNat_inj {bs cs : Bytes} (hlen : bs.length = cs.length) (h : leNat bs = leNat cs) : bs = cs := by
  rw [← leBytes_leNat bs, ← leBytes_leNat cs, hlen, h]

theorem leInt_inj {bs cs : Bytes} (hlen : bs.length = cs.length) (h : leInt bs = leInt cs) : bs = cs := by
  have hb := leNat_lt bs
  have hc := leNat_lt cs
  unfold leInt at h
  rw [hlen] at hb h
  have hmod : ((leNat bs : Int).bmod (256 ^ cs.length)) % ((256 ^ cs.length : Nat) : Int) =
      ((leNat cs : Int).bmod (256 ^ cs.length)) % ((256 ^ cs.length : Nat) : Int) := by rw [h]
  rw [Int.bmod_emod, Int.bmod_emod, Int.emod_eq_of_lt (by omega) (by omega), Int.emod_eq_of_lt (by omega) (by omega)] at hmod
  exact leNat_inj hlen (by omega)

theorem leNat_intBytes {w : Nat} {i : Int} (h : 0 ≤ i) (hi : i < (256 ^ w : Nat)) : (leNat (intBytes w i) : Int) = i := by
  rw [intBytes, Int.emod_eq_of_lt h hi, leNat_leBytes_of_lt (by omega)]
  omega

namespace Engine

theorem readInt_inj {signed : Bool} {bs cs : Bytes} (hlen : bs.length = cs.length) (hmax : cs.length ≤ 8)
    (h : readInt signed bs = readInt signed cs) : bs = cs := by
  unfold readInt at h
  rw [List.take_of_length_le (hlen ▸ hmax), List.take_of_length_le hmax] at h
  split at h
  · exact leInt_inj hlen h
  · exact leNat_inj hlen (by omega)

/-- The range of an integer type is what its width has room for. -/
theorem range_fits {type : PropType} {low high : Int} (hrange : type.intRange? = some (low, high)) {w : Nat}
    (hw : type.fixedWidth = some w) :
    w ≤ 8 ∧ if type.isSigned then -((256 ^ w / 2 : Nat) : Int) ≤ low ∧ high < ((256 ^ w + 1) / 2 : Nat)
      else 0 ≤ low ∧ high < (256 ^ w : Nat) := by
  cases type <;> cases hrange <;> cases hw <;> decide

theorem range_of_isInteger {type : PropType} (h : type.isInteger = true) :
    ∃ w low high, type.fixedWidth = some w ∧ type.intRange? = some (low, high) := by
  cases type <;> first
    | exact ⟨_, _, _, rfl, rfl⟩
    | cases h

/-- All bytes of the width of an integer type stand for an integer of its range. -/
theorem readInt_range {type : PropType} {low high : Int} (hrange : type.intRange? = some (low, high)) {w : Nat}
    (hw : type.fixedWidth = some w) {bs : Bytes} (hb : bs.length = w) :
    low ≤ readInt type.isSigned bs ∧ readInt type.isSigned bs ≤ high := by
  have hlt := leNat_lt bs
  have hmax : w ≤ 8 := (range_fits hrange hw).1
  rw [readInt, List.take_of_length_le (hb ▸ hmax)]
  unfold leInt
  rw [hb] at hlt ⊢
  have hpos : 0 < 256 ^ w := Nat.pow_pos (by decide)
  have hupper := Int.bmod_lt (x := (leNat bs : Int)) hpos
  have hlower := Int.le_bmod (x := (leNat bs : Int)) hpos
  cases type <;> cases hw <;> cases hrange <;>
    simp only [PropType.isSigned, if_true, Bool.false_eq_true, if_false] <;> omega

/-- The ranges of all integer types are in that of 64 bits. -/
theorem range_int64 {type : PropType} {low high : Int} (hrange : type.intRange? = some (low, high)) :
    -2 ^ 63 ≤ low ∧ high < 2 ^ 63 := by
  cases type <;> cases hrange <;> decide

theorem toInt_readInt {type : PropType} (hint : type.isInteger = true) {w : Nat} (hw : type.fixedWidth = some w) {bs : Bytes}
    (hb : bs.length = w) : (Int64.ofInt (readInt type.isSigned bs)).toInt = readInt type.isSigned bs := by
  obtain ⟨-, low, high, -, hrange⟩ := range_of_isInteger hint
  obtain ⟨hlow, hhigh⟩ := readInt_range hrange hw hb
  have hfits := range_int64 hrange
  exact Int64.toInt_ofInt_of_le (by omega) (by omega)

/-- An integer of the range of a type is read back. -/
theorem readInt_intBytes {type : PropType} {low high : Int} (hrange : type.intRange? = some (low, high)) {w : Nat}
    (hw : type.fixedWidth = some w) {i : Int} (hlow : low ≤ i) (hhigh : i ≤ high) :
    readInt type.isSigned (intBytes w i) = i := by
  obtain ⟨hmax, hfits⟩ := range_fits hrange hw
  rw [readInt, List.take_of_length_le (by simpa using hmax)]
  split at hfits
  · rename_i hsigned
    rw [if_pos hsigned, leInt_intBytes]
    generalize 256 ^ w = m at hfits ⊢
    exact Int.bmod_eq_of_le (by omega) (by omega)
  · rename_i hsigned
    rw [if_neg hsigned, leNat_intBytes (by omega) (by omega)]

/-- Two integers of a width are less than its room apart. -/
theorem readInt_sub_lt (signed : Bool) {w : Nat} {bs cs : Bytes} (hw : w ≤ 8) (hb : bs.length = w) (hc : cs.length = w) :
    readInt signed bs - readInt signed cs < (256 ^ w : Nat) := by
  have h1 := leNat_lt bs
  have h2 := leNat_lt cs
  rw [hb] at h1
  rw [hc] at h2
  rw [readInt, readInt, List.take_of_length_le (hb ▸ hw), List.take_of_length_le (hc ▸ hw)]
  have hpos : 0 < 256 ^ w := Nat.pow_pos (by decide)
  split
  · rw [leInt, leInt, hb, hc]
    generalize 256 ^ w = m at hpos
    have h3 := Int.bmod_lt (x := (leNat bs : Int)) hpos
    have h4 := Int.le_bmod (x := (leNat cs : Int)) hpos
    omega
  · omega

end Engine

/-- Pieces of one width are told apart by it. -/
theorem Payload.pieces_flatten {w : Nat} {xs : List Bytes} (h : ∀ x ∈ xs, x.length = w) :
    Payload.pieces w xs.length xs.flatten = xs := by
  induction xs with
  | nil => rfl
  | cons x xs ih =>
    have hx := h x List.mem_cons_self
    rw [List.length_cons, Payload.pieces, List.flatten_cons, ← hx, List.take_left, List.drop_left, hx,
      ih fun y hy => h y (List.mem_cons_of_mem _ hy)]

theorem length_flatten_of_width {w : Nat} {xs : List Bytes} (h : ∀ x ∈ xs, x.length = w) :
    xs.flatten.length = xs.length * w := by
  induction xs with
  | nil => simp
  | cons x xs ih =>
    rw [List.flatten_cons, List.length_append, ih fun y hy => h y (List.mem_cons_of_mem _ hy), h x List.mem_cons_self,
      List.length_cons, Nat.succ_mul, Nat.add_comm]

/-- The search for a part finds it. -/
theorem Bytes.hasInfix_iff {part bs : Bytes} : Bytes.hasInfix part bs = true ↔ part <:+: bs := by
  induction bs with
  | nil => simp [Bytes.hasInfix]
  | cons b bs ih => rw [Bytes.hasInfix, Bool.or_eq_true, List.isPrefixOf_iff_prefix, ih, List.infix_cons_iff]

end NodeStore
