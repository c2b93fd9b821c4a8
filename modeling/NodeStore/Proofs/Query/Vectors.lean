import NodeStore.Proofs.Query.Comparisons

/-!
# Vectors of values

Several values of one width are compared at once by packing them into vectors, and whatever the width and the number of
values the comparison is membership.

* `exists_rows`, `padded_rows`: padded values are whole vectors, the values first and then the first of them again.
* `equalityOperand_batched`: with two values or more there are as few vectors as the values need.
* `equality_membership`: a content is found exactly if it is one of the values, by the comparison that their number
  asks for.
-/

namespace NodeStore.Query

open Engine

/-! ## Whole vectors -/

/-- A list of `k * n` elements is `k` rows of `n`. -/
theorem exists_rows {α : Type} (n : Nat) {k : Nat} {xs : List α} (h : xs.length = k * n) :
    ∃ rows : List (List α), rows.flatten = xs ∧ rows.length = k ∧ ∀ row ∈ rows, row.length = n := by
  induction k generalizing xs with
  | zero =>
    obtain rfl : xs = [] := List.eq_nil_of_length_eq_zero (by rw [h, Nat.zero_mul])
    exact ⟨[], rfl, rfl, fun _ h => nomatch h⟩
  | succ k ih =>
    rw [Nat.succ_mul] at h
    have hrest : (xs.drop n).length = k * n := by rw [List.length_drop, h, Nat.add_sub_cancel]
    obtain ⟨rows, hflat, hlen, hrows⟩ := ih hrest
    refine ⟨xs.take n :: rows, by rw [List.flatten_cons, hflat, List.take_append_drop], by rw [List.length_cons, hlen], ?_⟩
    rintro row (_ | ⟨_, hrow⟩)
    · rw [List.length_take]
      omega
    · exact hrows row hrow

theorem lanes_pos (w : Nat) : 0 < lanes w := Nat.le_max_right ..

/-- Vectors of a width that divides theirs have no room left. -/
theorem lanes_mul {w : Nat} (hw : w ∣ Limits.vectorWidth) : lanes w * w = Limits.vectorWidth := by
  have hpos : 0 < w := Nat.pos_of_dvd_of_pos hw (by decide)
  have hle : w ≤ Limits.vectorWidth := Nat.le_of_dvd (by decide) hw
  rw [lanes, Nat.max_eq_left hpos, Nat.max_eq_left (Nat.div_pos hle hpos), Nat.div_mul_cancel hw]

theorem length_padded {n : Nat} (hn : 0 < n) (first : Bytes) (values : List Bytes) :
    (padded n first values).length = (values.length + n - 1) / n * n := by
  -- rounding up to whole vectors never loses a value
  have hround : values.length ≤ (values.length + n - 1) / n * n := by
    have := Nat.lt_div_mul_add hn (a := values.length + n - 1)
    omega
  rw [padded, List.length_append, List.length_replicate]
  omega

/-- Padded values are whole vectors. -/
theorem padded_rows {n : Nat} (hn : 0 < n) (first : Bytes) (values : List Bytes) :
    ∃ vectors : List (List Bytes), vectors.flatten = padded n first values ∧
      vectors.length = (values.length + n - 1) / n ∧ ∀ vector ∈ vectors, vector.length = n :=
  exists_rows n (length_padded hn first values)

/-! ## The operand -/

variable {w : Nat} {values : List Bytes} {comparison : Comparison} {operand : Bytes}

/-- The number of values decides the comparison. -/
theorem equalityOperand_by_count (hne : values ≠ []) (h : equalityOperand values w = (comparison, operand)) :
    comparison = if values.length = 1 then .equal else if values.length ≤ lanes w then .equalSmall else .equalLarge := by
  match values, hne, h with
  | [_], _, h => exact (Prod.mk.inj h).1.symm
  | first :: second :: rest, _, h => exact (Prod.mk.inj h).1.symm.trans (if_neg (by simp)).symm

/-- Several values take as few vectors as hold them, and the lanes that remain repeat the first value. -/
theorem equalityOperand_batched (hne : values ≠ []) (hmany : values.length ≠ 1)
    (h : equalityOperand values w = (comparison, operand)) :
    ∃ vectors : List (List Bytes), operand = vectors.flatten.flatten ∧
      vectors.length = (values.length + lanes w - 1) / lanes w ∧ (∀ vector ∈ vectors, vector.length = lanes w) ∧
        ∃ spare, vectors.flatten = values ++ spare ∧ ∀ cs ∈ spare, values.head? = some cs := by
  match values, hne, hmany, h with
  | first :: second :: rest, _, _, h =>
    obtain ⟨vectors, hflat, hcount, hlanes⟩ := padded_rows (lanes_pos w) first (first :: second :: rest)
    refine ⟨vectors, ?_, hcount, hlanes, _, hflat, fun cs hcs => ?_⟩
    · rw [hflat]
      exact (Prod.mk.inj h).2.symm
    · rw [List.eq_of_mem_replicate hcs]
      rfl

/-- A comparison that the packing of values chooses is understood as itself. -/
theorem Comparison.ofCode_code_equality (hne : values ≠ []) (h : equalityOperand values w = (comparison, operand)) :
    Comparison.ofCode comparison.code = comparison := by
  rw [equalityOperand_by_count hne h]
  split
  · rfl
  · split <;> rfl

/-- Comparing with some values packed into an operand is testing whether the content is one of them; one value is
compared as it is, and more are packed into as few vectors as hold them. -/
theorem equality_membership (hpos : 0 < w) (hne : values ≠ []) (hw : ∀ cs ∈ values, cs.length = w)
    (h : equalityOperand values w = (comparison, operand)) :
    (∀ c : Condition, c.comparison = .ofCode comparison.code → c.operand = operand →
      ∀ x : Bytes, x.length = w → c.fixed x = .ok (decide (x ∈ values))) ∧
    ((comparison = .equal ↔ values.length = 1) ∧
      (comparison = .equalSmall ↔ 2 ≤ values.length ∧ values.length ≤ lanes w) ∧
      (comparison = .equalLarge ↔ lanes w < values.length)) ∧
    (comparison ≠ .equal →
      (∃ vectors : List (List Bytes), operand = vectors.flatten.flatten ∧
        vectors.length = (values.length + lanes w - 1) / lanes w ∧ (∀ vector ∈ vectors, vector.length = lanes w) ∧
          ∃ spare, vectors.flatten = values ++ spare ∧ ∀ cs ∈ spare, values.head? = some cs) ∧
      (w ∣ Limits.vectorWidth → Limits.vectorWidth ∣ operand.length)) := by
  have hcomparison := equalityOperand_by_count hne h
  have hsome : 0 < values.length := List.length_pos_iff.2 hne
  have hlanes := lanes_pos w
  refine ⟨?_, ?_, fun hbatch => ?_⟩
  · intro c hc ho x hx
    refine Condition.fixed_equality hne hw hpos hx ?_
    rw [h, hc, ho, Comparison.ofCode_code_equality hne h]
  · rw [hcomparison]
    refine ⟨?_, ?_, ?_⟩ <;> split <;> try split
    all_goals simp only [reduceCtorEq, true_iff, false_iff]
    all_goals omega
  · have hmany : values.length ≠ 1 := fun h1 => hbatch (by rw [hcomparison, if_pos h1])
    obtain ⟨vectors, ho, hcount, hrows, spare, hflat, hspare⟩ := equalityOperand_batched hne hmany h
    refine ⟨⟨vectors, ho, hcount, hrows, spare, hflat, hspare⟩, fun hdvd => ?_⟩
    have hwidth : ∀ cs ∈ vectors.flatten, cs.length = w := fun cs hcs => by
      rw [hflat] at hcs
      rcases List.mem_append.1 hcs with hcs | hcs
      · exact hw cs hcs
      · exact hw cs (List.mem_of_mem_head? (hspare cs hcs))
    have hlength : vectors.flatten.length = vectors.length * lanes w := by
      rw [List.length_flatten, List.map_congr_left hrows, List.map_const', List.sum_replicate_nat]
    rw [ho, length_flatten_of_width hwidth, hlength, Nat.mul_assoc, lanes_mul hdvd]
    exact Nat.dvd_mul_left ..

/-- Five words take two vectors, the second of which has three lanes to spare. -/
def fiveWords : List Bytes := [[1, 0, 0, 0], [2, 0, 0, 0], [0, 1, 0, 0], [255, 255, 255, 255], [0, 0, 0, 128]]

def amongFiveWords : Condition where
  comparison := .ofCode 3
  negate := false
  slot := 0
  type := .uint32
  start := 0
  width := 4
  locale := 0
  operand := fiveWords.flatten ++ [1, 0, 0, 0, 1, 0, 0, 0, 1, 0, 0, 0]

theorem equality_membership_words :
    ((∀ cs ∈ fiveWords, cs.length = 4) ∧ equalityOperand fiveWords 4 = (.equalLarge, amongFiveWords.operand)) ∧
      amongFiveWords.fixed [0, 0, 0, 128] = .ok true ∧ amongFiveWords.fixed [0, 0, 1, 0] = .ok false ∧
        lanes 4 < fiveWords.length ∧ Limits.vectorWidth ∣ amongFiveWords.operand.length := by
  have hw : ∀ cs ∈ fiveWords, cs.length = 4 := by decide
  have h : equalityOperand fiveWords 4 = (.equalLarge, amongFiveWords.operand) := by decide
  obtain ⟨hfixed, ⟨-, -, hlarge⟩, hbatch⟩ := equality_membership (by decide) (by decide) hw h
  exact ⟨⟨hw, h⟩, (hfixed amongFiveWords rfl rfl _ rfl).trans (by decide), (hfixed amongFiveWords rfl rfl _ rfl).trans (by decide),
    hlarge.1 rfl, (hbatch (by decide)).2 (by decide)⟩

end NodeStore.Query
