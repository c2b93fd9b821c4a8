/-!
# Finite maps as sorted lists

A finite map is the list of its entries in increasing order of the keys; equal maps are equal lists.

* `Assoc.find?`, `insert`, `erase`, `ofList`, and `Assoc.Sorted`, which every operation keeps.
* `find?_insert`, `find?_erase`: what each operation does to the look-up.
* `Sorted.insert`, `Sorted.erase`, over keys in a linear order.
-/

namespace NodeStore.Assoc

variable {κ α : Type} [DecidableEq κ] [LT κ] [DecidableRel (α := κ) (· < ·)]

/-- The value stored under a key. -/
def find? (k : κ) : List (κ × α) → Option α
  | [] => none
  | (k', v) :: rest => if k = k' then some v else find? k rest

/-- Stores a value, replacing what the key held. -/
def insert (k : κ) (v : α) : List (κ × α) → List (κ × α)
  | [] => [(k, v)]
  | (k', v') :: rest =>
    if k = k' then (k, v) :: rest
    else if k < k' then (k, v) :: (k', v') :: rest
    else (k', v') :: insert k v rest

/-- Drops a key. -/
def erase (k : κ) : List (κ × α) → List (κ × α)
  | [] => []
  | (k', v') :: rest => if k = k' then rest else (k', v') :: erase k rest

/-- The map with the given entries, the last one for a key winning. -/
def ofList (entries : List (κ × α)) : List (κ × α) :=
  entries.foldl (fun m e => insert e.1 e.2 m) []

/-- The keys are strictly increasing. -/
def Sorted (m : List (κ × α)) : Prop := (m.map Prod.fst).Pairwise (· < ·)

omit [LT κ] [DecidableRel (α := κ) (· < ·)] in
@[simp] theorem find?_nil (k : κ) : find? k ([] : List (κ × α)) = none := rfl

@[simp] theorem find?_insert_self (k : κ) (v : α) (m : List (κ × α)) : find? k (insert k v m) = some v := by
  induction m with
  | nil => simp [insert, find?]
  | cons e rest ih =>
    simp only [insert]
    split
    · simp [find?]
    · split
      · simp [find?]
      · simp_all [find?]

theorem find?_insert_of_ne {k j : κ} (h : j ≠ k) (v : α) (m : List (κ × α)) :
    find? j (insert k v m) = find? j m := by
  induction m with
  | nil => simp [insert, find?, h]
  | cons e rest ih =>
    simp only [insert]
    split
    · rename_i heq
      subst heq
      simp [find?, h]
    · split
      · simp [find?, h]
      · simp [find?, ih]

/-- Storing under `k` changes the look-up at `k` only. -/
theorem find?_insert (j k : κ) (v : α) (m : List (κ × α)) :
    find? j (insert k v m) = if j = k then some v else find? j m := by
  split
  · rename_i h
    subst h
    exact find?_insert_self ..
  · rename_i h
    exact find?_insert_of_ne h ..

omit [LT κ] [DecidableRel (α := κ) (· < ·)] in
theorem find?_map {β : Type} (g : α → β) (k : κ) (m : List (κ × α)) :
    find? k (m.map fun e => (e.1, g e.2)) = (find? k m).map g := by
  induction m with
  | nil => rfl
  | cons e m ih =>
    rw [List.map_cons, find?, find?]
    split
    · rfl
    · exact ih

omit [LT κ] [DecidableRel (α := κ) (· < ·)] in
theorem find?_eq_none_of_notMem {k : κ} {m : List (κ × α)} (h : k ∉ m.map Prod.fst) : find? k m = none := by
  induction m with
  | nil => rfl
  | cons e rest ih =>
    simp only [List.map_cons, List.mem_cons, not_or] at h
    rw [find?, if_neg h.1, ih h.2]

omit [LT κ] [DecidableRel (α := κ) (· < ·)] in
theorem mem_of_find? {k : κ} {v : α} {m : List (κ × α)} (h : find? k m = some v) : (k, v) ∈ m := by
  induction m with
  | nil => simp at h
  | cons e rest ih =>
    rw [find?] at h
    split at h
    · rename_i hk
      cases h
      exact hk ▸ List.mem_cons_self
    · exact List.mem_cons_of_mem _ (ih h)

theorem mem_insert {e : κ × α} {k : κ} {v : α} {m : List (κ × α)} (h : e ∈ insert k v m) : e = (k, v) ∨ e ∈ m := by
  induction m with
  | nil => simpa [insert] using h
  | cons e' rest ih =>
    simp only [insert] at h
    split at h
    · rcases List.mem_cons.1 h with h | h
      · exact .inl h
      · exact .inr (List.mem_cons_of_mem _ h)
    · split at h
      · rcases List.mem_cons.1 h with h | h
        · exact .inl h
        · exact .inr h
      · rcases List.mem_cons.1 h with h | h
        · exact .inr (h ▸ List.mem_cons_self)
        · exact (ih h).imp_right (List.mem_cons_of_mem _)

omit [LT κ] [DecidableRel (α := κ) (· < ·)] in
theorem erase_sublist (k : κ) (m : List (κ × α)) : (erase k m).Sublist m := by
  induction m with
  | nil => exact .slnil
  | cons e rest ih =>
    simp only [erase]
    split
    · exact List.sublist_cons_self ..
    · exact ih.cons_cons e

/-! ## Sorted maps -/

omit [DecidableRel (α := κ) (· < ·)] in
theorem Sorted.erase {m : List (κ × α)} (h : Sorted m) (k : κ) : Sorted (erase k m) :=
  List.Pairwise.sublist ((erase_sublist k m).map _) h

variable [LE κ] [Std.LawfulOrderLT κ]

omit [DecidableRel (α := κ) (· < ·)] in
/-- Dropping `k` changes the look-up at `k` only. -/
theorem find?_erase [Std.IsPreorder κ] {m : List (κ × α)} (h : Sorted m) (j k : κ) :
    find? j (Assoc.erase k m) = if j = k then none else find? j m := by
  induction m with
  | nil => simp [Assoc.erase]
  | cons e rest ih =>
    have hr : Sorted rest := (List.pairwise_cons.1 h).2
    simp only [Assoc.erase]
    split
    · rename_i hk
      subst hk
      by_cases hj : j = e.1
      · subst hj
        rw [if_pos rfl]
        exact find?_eq_none_of_notMem fun hm => Std.lt_irrefl ((List.pairwise_cons.1 h).1 _ hm)
      · simp [find?, hj]
    · rename_i hk
      by_cases hj : j = e.1
      · subst hj
        simp [find?, Ne.symm hk]
      · simp only [find?, if_neg hj, ih hr]

omit [DecidableRel (α := κ) (· < ·)] in
/-- The keys of a sorted map are distinct, so every entry is found. -/
theorem Sorted.find?_of_mem [Std.IsPreorder κ] {m : List (κ × α)} (h : Sorted m) {k : κ} {v : α} (hm : (k, v) ∈ m) :
    find? k m = some v := by
  induction m with
  | nil => cases hm
  | cons e rest ih =>
    obtain ⟨hlt, hr⟩ := List.pairwise_cons.1 h
    rcases List.mem_cons.1 hm with rfl | hm
    · simp [find?]
    · have hne : k ≠ e.1 := fun he => Std.lt_irrefl (he ▸ hlt k (List.mem_map_of_mem (f := Prod.fst) hm))
      rw [find?, if_neg hne]
      exact ih hr hm

theorem Sorted.insert [Std.IsLinearOrder κ] {m : List (κ × α)} (h : Sorted m) (k : κ) (v : α) :
    Sorted (insert k v m) := by
  induction m with
  | nil => simp [Assoc.insert, Sorted]
  | cons e rest ih =>
    have hr : Sorted rest := (List.pairwise_cons.1 h).2
    have hlt : ∀ e' ∈ rest, e.1 < e'.1 := fun e' he' =>
      (List.pairwise_cons.1 h).1 e'.1 (List.mem_map_of_mem he')
    simp only [Assoc.insert]
    split
    · rename_i hk
      subst hk
      exact h
    · rename_i hk
      split
      · rename_i hlt'
        refine List.pairwise_cons.2 ⟨fun j hj => ?_, h⟩
        rcases List.mem_cons.1 hj with rfl | hj
        · exact hlt'
        · obtain ⟨e', he', rfl⟩ := List.mem_map.1 hj
          exact Std.lt_trans hlt' (hlt e' he')
      · rename_i hlt'
        refine List.pairwise_cons.2 ⟨fun j hj => ?_, ih hr⟩
        obtain ⟨e', he', rfl⟩ := List.mem_map.1 hj
        rcases mem_insert he' with rfl | he'
        · exact Std.lt_of_le_of_ne (Std.not_lt.1 hlt') (Ne.symm hk)
        · exact hlt e' he'

end NodeStore.Assoc
