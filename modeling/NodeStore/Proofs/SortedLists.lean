import Mathlib.Algebra.GroupWithZero.Nat
import Mathlib.Data.List.Dedup
import Mathlib.Data.List.Forall2
import NodeStore.Assoc
import NodeStore.KeySet
import NodeStore.Schema.Locale

/-!
# Maps and sets as sorted lists

* `Assoc.insert_insert`, `Assoc.insert_comm`: two entries, one after the other.
* `Assoc.ofList_perm`: entries with different keys are all kept.
* `Assoc.insert_of_lt`, `Assoc.ofList_of_sorted`: entries that come in order stay as they are.
* `Assoc.map_insert`, `Assoc.map_erase`: the keys may be given in another form of the same order.
* `Assoc.select`, `Assoc.ofList_select`: entries dropped or changed, as their keys say.
* `KeySet.length_insertAll`: a set has as many elements as there are distinct ones among those given.
* `Locale.codeOf`: the ids of the locales are in the order of their codes.
* `filter_mergeSort`: what is left of a sorted list is what is left, sorted; `forall₂_mergeSort`: lists that are alike are
  sorted alike.
-/

namespace NodeStore

section

variable {α : Type} {le : α → α → Bool}

/-- There is one way to cut a list where a test that its elements pass first is no longer passed. -/
theorem append_inj_of_cut {q : α → Bool} {as bs as' bs' : List α} (h : as ++ bs = as' ++ bs') (has : ∀ a ∈ as, q a = true)
    (hbs : ∀ b ∈ bs, q b = false) (has' : ∀ a ∈ as', q a = true) (hbs' : ∀ b ∈ bs', q b = false) : as = as' ∧ bs = bs' := by
  have hcut : ∀ {xs ys : List α}, (∀ x ∈ xs, q x = true) → (∀ y ∈ ys, q y = false) → (xs ++ ys).filter q = xs := by
    intro xs ys hxs hys
    rw [List.filter_append, List.filter_eq_self.2 hxs, List.filter_eq_nil_iff.2 fun y hy => by simp [hys y hy],
      List.append_nil]
  obtain rfl : as = as' := (hcut has hbs).symm.trans (h ▸ hcut has' hbs')
  exact ⟨rfl, List.append_cancel_left h⟩

variable (trans : ∀ a b c, le a b → le b c → le a c) (total : ∀ a b, le a b || le b a)

include trans total

/-- An element is sorted in before the first one that it may stand before. -/
theorem mergeSort_cons_cut (x : α) (xs : List α) : ∃ front back, (x :: xs).mergeSort le = front ++ x :: back ∧
    xs.mergeSort le = front ++ back ∧ (∀ a ∈ front, (!le x a) = true) ∧ ∀ b ∈ back, (!le x b) = false := by
  obtain ⟨front, back, hsort, hrest, hfront⟩ := List.mergeSort_cons trans total x xs
  have hsorted := List.pairwise_mergeSort trans total (x :: xs)
  rw [hsort] at hsorted
  have hback := (List.pairwise_cons.1 (List.pairwise_append.1 hsorted).2.1).1
  exact ⟨front, back, hsort, hrest, hfront, fun b hb => by simp [hback b hb]⟩

/-- Sorting is stable, so it does not matter whether elements are left out before or after. -/
theorem filter_mergeSort (q : α → Bool) (xs : List α) : (xs.mergeSort le).filter q = (xs.filter q).mergeSort le := by
  induction xs with
  | nil => simp
  | cons x xs ih =>
    obtain ⟨front, back, hsort, hrest, hfront, hback⟩ := mergeSort_cons_cut trans total x xs
    cases hq : q x with
    | false => rw [List.filter_cons_of_neg (by simp [hq]), ← ih, hsort, hrest, List.filter_append, List.filter_append,
        List.filter_cons_of_neg (by simp [hq])]
    | true =>
      obtain ⟨front', back', hsort', hrest', hfront', hback'⟩ := mergeSort_cons_cut trans total x (xs.filter q)
      have hparts : front.filter q ++ back.filter q = front' ++ back' := by
        rw [← hrest', ← ih, hrest, List.filter_append]
      obtain ⟨rfl, rfl⟩ := append_inj_of_cut hparts (fun a ha => hfront a (List.mem_filter.1 ha).1)
        (fun b hb => hback b (List.mem_filter.1 hb).1) hfront' hback'
      rw [List.filter_cons_of_pos hq, hsort, hsort', List.filter_append, List.filter_cons_of_pos hq]

end

/-- Lists whose elements are alike, and in particular compare alike, are sorted alike. -/
theorem forall₂_mergeSort {α β : Type} {R : α → β → Prop} {le : α → α → Bool} {le' : β → β → Bool}
    (hle : ∀ a a' b b', R a b → R a' b' → le a a' = le' b b') {xs : List α} {ys : List β} (h : List.Forall₂ R xs ys) :
    List.Forall₂ R (xs.mergeSort le) (ys.mergeSort le') := by
  have hxs : (xs.zip ys).map Prod.fst = xs := List.map_fst_zip (Nat.le_of_eq h.length_eq)
  have hys : (xs.zip ys).map Prod.snd = ys := List.map_snd_zip (Nat.le_of_eq h.length_eq.symm)
  have hpairs : ∀ z ∈ xs.zip ys, R z.1 z.2 := fun _ hz => List.forall₂_zip h hz
  -- The pairs are sorted by their first parts, so each of the lists is one side of them.
  have hfst : ((xs.zip ys).mergeSort fun a b => le a.1 b.1).map Prod.fst = xs.mergeSort le := by
    rw [List.map_mergeSort (s := le) fun _ _ _ _ => rfl, hxs]
  have hsnd : ((xs.zip ys).mergeSort fun a b => le a.1 b.1).map Prod.snd = ys.mergeSort le' := by
    rw [List.map_mergeSort (s := le') fun a ha b hb => hle _ _ _ _ (hpairs a ha) (hpairs b hb), hys]
  rw [← hfst, ← hsnd, List.forall₂_map_left_iff, List.forall₂_map_right_iff, List.forall₂_same]
  exact fun z hz => hpairs z (List.mem_mergeSort.1 hz)

namespace Assoc

section

variable {κ α : Type} [DecidableEq κ] [LT κ] [DecidableRel (α := κ) (· < ·)]

/-- What is stored last under a key is what it holds. -/
theorem insert_insert (k : κ) (v w : α) (m : List (κ × α)) : insert k v (insert k w m) = insert k v m := by
  induction m with
  | nil => simp [insert]
  | cons e m ih =>
    simp only [insert]
    split
    · simp [insert]
    · split
      · simp [insert]
      · simp [insert, *]

/-- Entries under different keys may be stored in either order. -/
theorem insert_comm [LE κ] [Std.LawfulOrderLT κ] [Std.IsLinearOrder κ] {k j : κ} (h : k ≠ j) (v w : α)
    (m : List (κ × α)) : insert k v (insert j w m) = insert j w (insert k v m) := by
  -- The two keys and the first of the map are in a linear order, and that decides every comparison on both sides.
  induction m with
  | nil => grind [insert]
  | cons e m ih => grind [insert]

/-- Entries under other keys stay. -/
theorem mem_insert_of_ne {k : κ} {v : α} {m : List (κ × α)} {e : κ × α} (h : e.1 ≠ k) (he : e ∈ m) : e ∈ insert k v m := by
  induction m with
  | nil => cases he
  | cons e' m ih =>
    rw [insert]
    split
    · rename_i hk
      exact (List.mem_cons.1 he).elim (fun heq => absurd (heq ▸ hk.symm) h) (List.mem_cons_of_mem _)
    · split
      · exact List.mem_cons_of_mem _ he
      · exact (List.mem_cons.1 he).elim (fun heq => heq ▸ List.mem_cons_self) fun he => List.mem_cons_of_mem _ (ih he)

/-- A new key is put in somewhere. -/
theorem insert_perm {k : κ} {m : List (κ × α)} (h : k ∉ m.map Prod.fst) (v : α) : (insert k v m).Perm ((k, v) :: m) := by
  induction m with
  | nil => exact .refl _
  | cons e m ih =>
    rw [List.map_cons, List.mem_cons, not_or] at h
    obtain ⟨hne, hrest⟩ := h
    rw [insert, if_neg hne]
    split
    · exact .refl _
    · exact ((ih hrest).cons e).trans (.swap ..)

/-- Entries with keys that are all different are kept. -/
theorem ofList_perm {m : List (κ × α)} (h : (m.map Prod.fst).Nodup) : (ofList m).Perm m := by
  suffices hgo : ∀ front : List (κ × α), ((front ++ m).map Prod.fst).Nodup →
      (m.foldl (fun m e => insert e.1 e.2 m) front).Perm (front ++ m) from hgo [] h
  induction m with
  | nil => exact fun front _ => .of_eq (List.append_nil front).symm
  | cons e m ih =>
    intro front hfront
    have hmoved : (front ++ e :: m).Perm (e :: (front ++ m)) := List.perm_middle
    have hkeys := (hmoved.map Prod.fst).nodup_iff.1 hfront
    have hnew : e.1 ∉ front.map Prod.fst := fun hmem =>
      (List.nodup_cons.1 hkeys).1 (List.map_append ▸ List.mem_append_left _ hmem)
    have hinsert : (insert e.1 e.2 front ++ m).Perm (e :: (front ++ m)) := (insert_perm hnew e.2).append_right m
    have hm : (m.map Prod.fst).Nodup := (List.nodup_cons.1 h).2
    rw [List.foldl_cons]
    exact (ih hm _ ((hinsert.map Prod.fst).nodup_iff.2 hkeys)).trans (hinsert.trans hmoved.symm)

variable [LE κ] [Std.LawfulOrderLT κ] [Std.IsPreorder κ]

/-- A key behind all others goes to the end. -/
theorem insert_of_lt {k : κ} {m : List (κ × α)} (h : ∀ e ∈ m, e.1 < k) (v : α) : insert k v m = m ++ [(k, v)] := by
  induction m with
  | nil => rfl
  | cons e m ih =>
    have hlt := h e List.mem_cons_self
    have hne : k ≠ e.1 := fun he => Std.lt_irrefl (he ▸ hlt)
    have hnot : ¬k < e.1 := fun hk => Std.lt_irrefl (Std.lt_trans hk hlt)
    rw [insert, if_neg hne, if_neg hnot, ih fun e' he' => h e' (List.mem_cons_of_mem _ he'), List.cons_append]

/-- Entries in the order of their keys are a map already. -/
theorem ofList_of_sorted {m : List (κ × α)} (h : Sorted m) : ofList m = m := by
  suffices hgo : ∀ front : List (κ × α), Sorted (front ++ m) → m.foldl (fun m e => insert e.1 e.2 m) front = front ++ m from
    hgo [] h
  induction m with
  | nil =>
    intro front _
    exact (List.append_nil front).symm
  | cons e m ih =>
    intro front hfront
    have hlt : ∀ e' ∈ front, e'.1 < e.1 := fun e' he' =>
      (List.pairwise_append.1 (List.pairwise_map.1 hfront)).2.2 e' he' e List.mem_cons_self
    rw [List.foldl_cons, insert_of_lt hlt, ih (List.pairwise_cons.1 h).2 (front ++ [(e.1, e.2)]) (by simpa using hfront)]
    simp

/-- What a value adds to a sum is what it has more than the one that it replaces. -/
theorem Sorted.sum_insert {m : List (κ × α)} (h : Sorted m) (f : α → Nat) (k : κ) (v : α) :
    ((Assoc.insert k v m).map fun e => f e.2).sum + ((find? k m).map f).getD 0 = (m.map fun e => f e.2).sum + f v := by
  induction m with
  | nil => simp [Assoc.insert]
  | cons e m ih =>
    obtain ⟨hlt, hm⟩ := List.pairwise_cons.1 h
    have hrest := ih hm
    simp only [Assoc.insert, find?]
    split
    · simp only [List.map_cons, List.sum_cons, Option.map_some, Option.getD_some]
      omega
    · split
      · rename_i hk
        have hnone : find? k m = none := find?_eq_none_of_notMem fun hmem => Std.lt_irrefl (Std.lt_trans hk (hlt k hmem))
        simp only [hnone, List.map_cons, List.sum_cons, Option.map_none, Option.getD_none]
        omega
      · simp only [List.map_cons, List.sum_cons]
        omega

end

section

variable {κ κ' α : Type} [DecidableEq κ] [LT κ] [DecidableRel (α := κ) (· < ·)] [DecidableEq κ'] [LT κ']
  [DecidableRel (α := κ') (· < ·)] {f : κ → κ'} {k : κ} {m : List (κ × α)}

/-- Keys in another form of the same order make the same map. -/
theorem map_insert (heq : ∀ e ∈ m, f k = f e.1 ↔ k = e.1) (hlt : ∀ e ∈ m, f k < f e.1 ↔ k < e.1) (v : α) :
    (insert k v m).map (fun e => (f e.1, e.2)) = insert (f k) v (m.map fun e => (f e.1, e.2)) := by
  induction m with
  | nil => rfl
  | cons e m ih =>
    have hrest := ih (fun e' he' => heq e' (List.mem_cons_of_mem _ he')) fun e' he' => hlt e' (List.mem_cons_of_mem _ he')
    simp only [insert, List.map_cons, heq e List.mem_cons_self, hlt e List.mem_cons_self]
    split
    · rfl
    · split
      · rfl
      · rw [List.map_cons, hrest]

omit [LT κ] [DecidableRel (α := κ) (· < ·)] [LT κ'] [DecidableRel (α := κ') (· < ·)] in
theorem map_erase (heq : ∀ e ∈ m, f k = f e.1 ↔ k = e.1) :
    (erase k m).map (fun e => (f e.1, e.2)) = erase (f k) (m.map fun e => (f e.1, e.2)) := by
  induction m with
  | nil => rfl
  | cons e m ih =>
    simp only [erase, List.map_cons, heq e List.mem_cons_self]
    split
    · rfl
    · rw [List.map_cons, ih fun e' he' => heq e' (List.mem_cons_of_mem _ he')]

end

section

variable {κ α β ν : Type} (K : κ → Option ν) (F : ν → α → β)

/-- Entries are dropped or changed, as their keys say. -/
def select (m : List (κ × α)) : List (κ × β) := m.filterMap fun e => (K e.1).map fun n => (e.1, F n e.2)

theorem select_cons_of_none {k : κ} (h : K k = none) (v : α) (m : List (κ × α)) : select K F ((k, v) :: m) = select K F m := by
  rw [select, List.filterMap_cons, h]
  rfl

theorem select_cons_of_some {k : κ} {n : ν} (h : K k = some n) (v : α) (m : List (κ × α)) :
    select K F ((k, v) :: m) = (k, F n v) :: select K F m := by
  rw [select, List.filterMap_cons, h]
  rfl

theorem mem_select {e : κ × β} {m : List (κ × α)} (h : e ∈ select K F m) : ∃ e' ∈ m, e'.1 = e.1 := by
  obtain ⟨e', he', h⟩ := List.mem_filterMap.1 h
  obtain ⟨n, -, rfl⟩ := Option.map_eq_some_iff.1 h
  exact ⟨e', he', rfl⟩

variable [DecidableEq κ] [LT κ] [DecidableRel (α := κ) (· < ·)] [LE κ] [Std.LawfulOrderLT κ]

/-- A key in front of all others goes to the front. -/
theorem insert_of_gt [Std.IsPreorder κ] {k : κ} {m : List (κ × β)} (h : ∀ e ∈ m, k < e.1) (v : β) :
    insert k v m = (k, v) :: m := by
  cases m with
  | nil => rfl
  | cons e m =>
    have hlt := h e List.mem_cons_self
    rw [insert, if_neg fun he => Std.lt_irrefl (he ▸ hlt), if_pos hlt]

/-- What is stored under a key is dropped or changed. -/
theorem select_insert [Std.IsPreorder κ] {m : List (κ × α)} (hm : Sorted m) (k : κ) (v : α) :
    select K F (insert k v m) = (K k).elim (select K F m) fun n => insert k (F n v) (select K F m) := by
  induction m with
  | nil =>
    cases h : K k with
    | none => exact select_cons_of_none K F h v []
    | some n => exact select_cons_of_some K F h v []
  | cons e m ih =>
    obtain ⟨k', v'⟩ := e
    obtain ⟨hlt, hrest⟩ := List.pairwise_cons.1 hm
    rw [insert]
    by_cases hk : k = k'
    · subst hk
      rw [if_pos rfl]
      cases h : K k with
      | none =>
        rw [select_cons_of_none K F h, select_cons_of_none K F h]
        rfl
      | some n => rw [select_cons_of_some K F h, select_cons_of_some K F h, Option.elim_some, insert, if_pos rfl]
    · rw [if_neg hk]
      by_cases hfront : k < k'
      · rw [if_pos hfront]
        cases h : K k with
        | none => exact select_cons_of_none K F h v _
        | some n =>
          rw [select_cons_of_some K F h, Option.elim_some, insert_of_gt]
          intro e he
          obtain ⟨x, hx, hkey⟩ := mem_select K F he
          rw [← hkey]
          rcases List.mem_cons.1 hx with rfl | hx
          · exact hfront
          · exact Std.lt_trans hfront (hlt x.1 (List.mem_map_of_mem hx))
      · rw [if_neg hfront]
        cases he : K k' with
        | none => rw [select_cons_of_none K F he, select_cons_of_none K F he, ih hrest]
        | some n =>
          rw [select_cons_of_some K F he, select_cons_of_some K F he, ih hrest]
          cases K k with
          | none => rfl
          | some n' => rw [Option.elim_some, Option.elim_some, insert, if_neg hk, if_neg hfront]

/-- Entries may be dropped and changed before they are put into a map, or after. -/
theorem ofList_select [Std.IsLinearOrder κ] (entries : List (κ × α)) :
    ofList (select K F entries) = select K F (ofList entries) := by
  suffices hgo : ∀ m : List (κ × α), Sorted m →
      (select K F entries).foldl (fun m e => insert e.1 e.2 m) (select K F m) =
        select K F (entries.foldl (fun m e => insert e.1 e.2 m) m) from hgo [] .nil
  induction entries with
  | nil => exact fun m _ => rfl
  | cons e entries ih =>
    intro m hm
    obtain ⟨k, v⟩ := e
    rw [List.foldl_cons, ← ih _ (hm.insert k v), select_insert K F hm]
    cases h : K k with
    | none => rw [select_cons_of_none K F h, Option.elim_none]
    | some n => rw [select_cons_of_some K F h, List.foldl_cons, Option.elim_some]

end

end Assoc

namespace KeySet

variable {κ : Type} [DecidableEq κ] [LT κ] [DecidableRel (α := κ) (· < ·)] [LE κ] [Std.LawfulOrderLT κ]

/-- An element behind all others goes to the end. -/
theorem insert_of_lt [Std.IsPreorder κ] {k : κ} {s : List κ} (h : ∀ j ∈ s, j < k) : insert k s = s ++ [k] := by
  induction s with
  | nil => rfl
  | cons j s ih =>
    have hlt := h j List.mem_cons_self
    have hne : k ≠ j := fun he => Std.lt_irrefl (he ▸ hlt)
    have hnot : ¬k < j := fun hk => Std.lt_irrefl (Std.lt_trans hk hlt)
    rw [insert, if_neg hne, if_neg hnot, ih fun j' hj' => h j' (List.mem_cons_of_mem _ hj'), List.cons_append]

variable [Std.IsLinearOrder κ]

theorem insert_sorted {s : List κ} (h : s.Pairwise (· < ·)) (k : κ) : (insert k s).Pairwise (· < ·) := by
  induction s with
  | nil => simp [insert]
  | cons j s ih =>
    obtain ⟨hlt, hs⟩ := List.pairwise_cons.1 h
    rw [insert]
    split
    · exact h
    · rename_i hne
      split
      · rename_i hk
        refine List.pairwise_cons.2 ⟨fun i hi => ?_, h⟩
        rcases List.mem_cons.1 hi with rfl | hi
        · exact hk
        · exact Std.lt_trans hk (hlt i hi)
      · rename_i hk
        refine List.pairwise_cons.2 ⟨fun i hi => ?_, ih hs⟩
        rcases (mem_insert i k s).1 hi with rfl | hi
        · exact Std.lt_of_le_of_ne (Std.not_lt.1 hk) (Ne.symm hne)
        · exact hlt i hi

/-- A set of given elements has the distinct ones among them. -/
theorem length_insertAll (ks : List κ) : (ks.foldl (fun s k => insert k s) []).length = ks.dedup.length := by
  have hset : ∀ s : List κ, s.Pairwise (· < ·) → (ks.foldl (fun s k => insert k s) s).Pairwise (· < ·) ∧
      ∀ j, j ∈ ks.foldl (fun s k => insert k s) s ↔ j ∈ s ∨ j ∈ ks := by
    induction ks with
    | nil => exact fun s hs => ⟨hs, fun j => by simp⟩
    | cons k ks ih =>
      intro s hs
      obtain ⟨hsorted, hmem⟩ := ih (insert k s) (insert_sorted hs k)
      refine ⟨hsorted, fun j => (hmem j).trans ?_⟩
      rw [mem_insert, List.mem_cons]
      tauto
  obtain ⟨hsorted, hmem⟩ := hset [] .nil
  have hnodup := hsorted.imp fun {a b} (hlt : a < b) (he : a = b) => Std.lt_irrefl (he ▸ hlt)
  refine ((List.perm_ext_iff_of_nodup hnodup (List.nodup_dedup ks)).2 fun j => ?_).length_eq
  rw [hmem, List.mem_dedup]
  simp

end KeySet

namespace Locale

/-- The code of an id; other ids have none. -/
def codeOf (id : UInt8) : String := (codeOf? id).getD ""

theorem codes_sorted : codes.Pairwise (· < ·) := by decide +kernel

variable {i j : UInt8} {a b : String}

theorem codeOf?_eq_some (h : codeOf? i = some a) : i.toNat ≠ 0 ∧ codes[i.toNat - 1]? = some a := by
  unfold codeOf? at h
  split at h
  · cases h
  · rename_i hi
    exact ⟨fun hzero => hi (UInt8.toNat.inj hzero), h⟩

theorem codeOf_lt_codeOf (hi : codeOf? i = some a) (hj : codeOf? j = some b) (h : i < j) : codeOf i < codeOf j := by
  obtain ⟨hi0, hia⟩ := codeOf?_eq_some hi
  obtain ⟨hj0, hjb⟩ := codeOf?_eq_some hj
  obtain ⟨hilt, rfl⟩ := List.getElem?_eq_some_iff.1 hia
  obtain ⟨hjlt, rfl⟩ := List.getElem?_eq_some_iff.1 hjb
  have hlt : i.toNat < j.toNat := h
  rw [codeOf, codeOf, hi, hj]
  exact List.pairwise_iff_getElem.1 codes_sorted _ _ hilt hjlt (by omega)

/-- The ids of the locales are in the order of their codes. -/
theorem codeOf_lt_iff (hi : codeOf? i = some a) (hj : codeOf? j = some b) : codeOf i < codeOf j ↔ i < j := by
  refine ⟨fun h => ?_, codeOf_lt_codeOf hi hj⟩
  by_contra hnot
  rcases Std.le_iff_lt_or_eq.1 (Std.not_lt.1 hnot) with hlt | rfl
  · exact Std.lt_irrefl (Std.lt_trans h (codeOf_lt_codeOf hj hi hlt))
  · exact Std.lt_irrefl h

theorem codeOf_inj (hi : codeOf? i = some a) (hj : codeOf? j = some b) : codeOf i = codeOf j ↔ i = j := by
  refine ⟨fun h => ?_, fun h => h ▸ rfl⟩
  by_contra hne
  rcases Nat.lt_or_gt_of_ne fun he => hne (UInt8.toNat.inj he) with hlt | hlt
  · exact Std.lt_irrefl (h.symm ▸ codeOf_lt_codeOf hi hj hlt)
  · exact Std.lt_irrefl (h ▸ codeOf_lt_codeOf hj hi hlt)

/-- The id of a code leads back to it. -/
theorem codeOf?_of_idOf? (h : idOf? a = some i) : codeOf? i = some a := by
  obtain ⟨n, hn, rfl⟩ := Option.map_eq_some_iff.1 h
  obtain ⟨hlt, hname, -⟩ := List.findIdx?_eq_some_iff_getElem.1 hn
  have hlen : codes.length = 96 := rfl
  have hnat : (UInt8.ofNat (n + 1)).toNat = n + 1 := by
    rw [UInt8.toNat_ofNat']
    omega
  have hne : UInt8.ofNat (n + 1) ≠ Locale.none := fun he => by
    rw [he] at hnat
    cases hnat
  rw [codeOf?, if_neg hne, hnat, Nat.add_sub_cancel, List.getElem?_eq_getElem hlt]
  simpa using hname

theorem ne_none_of_idOf? (h : idOf? a = some i) : i ≠ Locale.none := fun hi =>
  (codeOf?_eq_some (codeOf?_of_idOf? h)).1 (congrArg UInt8.toNat hi)

end Locale

end NodeStore
