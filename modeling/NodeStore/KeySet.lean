/-!
# Finite sets as sorted lists

A finite set is the list of its elements in increasing order; equal sets are equal lists.

* `KeySet.insert`, `KeySet.ofList`, and `mem_insert`.
-/

namespace NodeStore.KeySet

variable {κ : Type} [DecidableEq κ] [LT κ] [DecidableRel (α := κ) (· < ·)]

/-- Adds an element. -/
def insert (k : κ) : List κ → List κ
  | [] => [k]
  | k' :: rest => if k = k' then k' :: rest else if k < k' then k :: k' :: rest else k' :: insert k rest

/-- The set of the given elements. -/
def ofList (ks : List κ) : List κ := ks.foldl (fun s k => insert k s) []

theorem mem_insert (j k : κ) (s : List κ) : j ∈ insert k s ↔ j = k ∨ j ∈ s := by
  induction s with
  | nil => simp [insert]
  | cons x rest ih =>
    simp only [insert]
    split
    · rename_i h
      subst h
      simp
    · split
      · simp
      · simp only [List.mem_cons, ih]
        grind

end NodeStore.KeySet
