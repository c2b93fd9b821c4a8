import NodeStore.Proofs.Query.Results
import NodeStore.Proofs.Result.Aggregates

/-!
# Paging

The pages of a scan, put together, are its whole result: nothing is lost, and nothing comes twice.

* `Range.page`: the ranges of the pages; `flatMap_page`: a list cut into pages.
* `scan_pages`: the result of a scan, for every range.
-/

namespace NodeStore

namespace Query

/-- The page with a number, counted from 0, of pages of one size. -/
def Range.page (size : UInt32) (number : Nat) : Range := ⟨UInt32.ofNat (number * size.toNat), size⟩

/-- The number of pages that a result takes, the last of which may be empty. -/
def Range.pages (size : UInt32) (total : Nat) : Nat := total / size.toNat + 1

/-- A list is cut into pages without loss. -/
theorem Range.flatMap_page {α : Type} {size : UInt32} (hsize : size ≠ 0) {entries : List α} (h : entries.length < 2 ^ 32) :
    (List.range (pages size entries.length)).flatMap (fun k => (page size k).slice entries) = entries := by
  have hpos : 0 < size.toNat := Nat.pos_of_ne_zero fun h => hsize (UInt32.toNat.inj h)
  have hcut : ∀ n, n * size.toNat < 2 ^ 32 + size.toNat →
      (List.range n).flatMap (fun k => (page size k).slice entries) = entries.take (n * size.toNat) := by
    intro n hn
    induction n with
    | zero => simp
    | succ n ih =>
      rw [Nat.succ_mul] at hn ⊢
      rw [List.range_succ, List.flatMap_append, ih (by omega), List.flatMap_singleton, slice, page,
        UInt32.toNat_ofNat_of_lt' (by simpa [UInt32.size] using (by omega : n * size.toNat < 2 ^ 32)), ← List.take_add]
  have hdiv := Nat.div_add_mod entries.length size.toNat
  have hmod := Nat.mod_lt entries.length hpos
  rw [Nat.mul_comm] at hdiv
  rw [hcut _ (by rw [pages, Nat.succ_mul]; omega), List.take_of_length_le (by rw [pages, Nat.succ_mul]; omega)]

end Query

namespace Result

open Engine Query

theorem Range.slice_map {α β : Type} (range : Range) (f : α → β) (entries : List α) :
    range.slice (entries.map f) = (range.slice entries).map f := by
  rw [Range.slice, Range.slice, List.map_take, List.map_drop]

/-- The records of a short answer are short. -/
theorem length_body_lt {xs : List Subject} (body : Subject → Bytes) {front : Bytes}
    (hsize : (front ++ (xs.map fun x => frame x.id (body x)).flatten).length < 2 ^ 32) {x : Subject} (hx : x ∈ xs) :
    (body x).length < 2 ^ 32 := by
  have hle := (List.sublist_flatten_of_mem (List.mem_map_of_mem (f := fun x : Subject => frame x.id (body x)) hx)).length_le
  rw [List.length_append] at hsize
  rw [frame, List.length_append, Wire.length_sized] at hle
  omega

/-- An answer whose length has room in four bytes is read back. -/
theorem decodeResult_records (schema : SchemaLayout) (plan : ReadPlan) {xs : List Subject} (body : Subject → Bytes) {total : Nat}
    (htotal : total ≤ 0xffffffff)
    (hsize : (leBytes 4 total ++ (xs.map fun x => frame x.id (body x)).flatten).length < 2 ^ 32) :
    decodeResult schema plan (leBytes 4 total ++ (xs.map fun x => frame x.id (body x)).flatten) =
      .ok ⟨total, xs.map fun x => decodeNode (decodeBody schema plan) (x.id, body x)⟩ := by
  have hframes : ∀ f ∈ xs.map fun x => (x.id, body x), f.2.length < 2 ^ 32 := fun f hf => by
    obtain ⟨x, hx, rfl⟩ := List.mem_map.1 hf
    exact length_body_lt body hsize hx
  have hdecode := decodeResult_frames schema plan (Nat.lt_succ_of_le htotal) hframes
  rwa [List.map_map, List.map_map] at hdecode

namespace Articles

open Write.Session.Articles

def byStars : Query := { type := "article", target := .scan, body := { sort := some ⟨"stars", false⟩ } }

theorem scans_byStars :
    Scans layout byStars article none (some ⟨false, Limits.mainSlot, .uint8, 0, 1, 0⟩) [] {} [.main []] where
  target := rfl
  records := rfl
  front := ⟨rfl, rfl, rfl, rfl⟩
  includes := by
    refine Except.bind_eq_ok.2 ⟨{}, ?_, rfl⟩
    unfold Includes.addAll
    rfl
  items := rfl

theorem reciprocal_layout : Reciprocal layout := by
  intro t ht p hp hr
  obtain rfl := List.mem_singleton.1 ht
  simp only [article, List.mem_cons, List.not_mem_nil, or_false] at hp
  rcases hp with rfl | rfl <;> cases hr

end Articles

end Result

end NodeStore
