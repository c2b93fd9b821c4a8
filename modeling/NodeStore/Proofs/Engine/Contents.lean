import Mathlib.Algebra.GroupWithZero.Nat
import NodeStore.Proofs.Codec.RoundTrip
import NodeStore.Proofs.Engine.Shape

/-!
# Contents by the values written

What a separate field holds after a value was written to it, and how many bytes of an answer that takes.

* `PropDef.assign`: the content after a value; `store_localized` and `store_encodeSeparate` say that it is what the
  engine makes of the payload.
* `Content.size`, `Node.size`: a bound of the bytes in an answer.
-/

namespace NodeStore

namespace KeySet

theorem length_insertAll_le (hashes : List UInt64) (known : List UInt64) :
    (hashes.foldl (fun known h => insert h known) known).length ≤ known.length + hashes.length := by
  have hinsert : ∀ (h : UInt64) (s : List UInt64), (insert h s).length ≤ s.length + 1 := by
    intro h s
    induction s with
    | nil => exact Nat.le_refl _
    | cons x s ih =>
      rw [insert]
      split
      · exact Nat.le_succ _
      · split <;> simp only [List.length_cons] <;> omega
  induction hashes generalizing known with
  | nil => exact Nat.le_refl _
  | cons h hashes ih =>
    have := ih (insert h known)
    have := hinsert h known
    simp only [List.foldl_cons, List.length_cons]
    omega

end KeySet

namespace Engine

variable {E L : Type}

/-! ### Contents -/

/-- The texts of a content by locale. -/
def textsIn : Option (Content E) → List (UInt8 × String)
  | some (.text entries) => entries
  | _ => []

/-- The hashes of a content. -/
def hashesIn : Option (Content E) → List UInt64
  | some (.sketch hashes) => hashes
  | _ => []

/-- A content with a text in one locale. -/
def withText (locale : UInt8) (s : String) (c : Option (Content E)) : Option (Content E) :=
  some (.text (Assoc.insert locale s (textsIn c)))

/-- A content without the text in one locale. -/
def withoutText (locale : UInt8) : Option (Content E) → Option (Content E)
  | some (.text entries) =>
    match Assoc.erase locale entries with
    | [] => none
    | entries => some (.text entries)
  | c => c

/-- A content with more hashes. -/
def withHashes (hashes : List UInt64) (c : Option (Content E)) : Option (Content E) :=
  some (.sketch (hashes.foldl (fun known h => KeySet.insert h known) (hashesIn c)))

/-- One text by the code of its locale. The empty string takes a text away, from a node that is there already. -/
def assignText (create : Bool) (c : Option (Content E)) (entry : String × String) : Option (Content E) :=
  match Locale.idOf? entry.1 with
  | none => c
  | some locale =>
    if !entry.2.isEmpty then withText locale entry.2 c
    else if create then c
    else withoutText locale c

end Engine

open Engine

/-- The content of a separate field after a valid value was written to it, where plain strings are texts in `locale`.
Without a locale they are no texts. -/
def PropDef.assign {E L : Type} (p : PropDef L) (locale : UInt8) (create : Bool) (v : Value) (c : Option (Content E)) :
    Option (Content E) :=
  match p.type, v with
  | _, .null => if create then c else none
  | .text, .string s => if locale = Locale.none then c else withText locale s c
  | .text, .text entries => entries.foldl (assignText create) c
  | .cardinality, v => withHashes v.sketchHashes c
  | _, .string s => some (.bytes (Utf8.encode s))
  | _, .binary bs => some (.bytes bs)
  | _, .vector xs => some (.bytes (xs.flatMap (·.toBytes)))
  | _, _ => c

namespace Engine

variable {E L : Type} {p : PropDef L} {c : Option (Content E)}

/-! ### Sizes -/

/-- A bound of the bytes that a content takes in an answer. -/
def Content.size : Content E → Nat
  | .bytes bs => 7 + bs.length
  | .text entries => (entries.map fun e => 8 + (Utf8.encode e.2).length).sum
  | .sketch hashes => 10 + hashes.length
  | .ref _ | .refs _ => 0

/-- A bound of the bytes that an optional content takes. -/
def contentSize (c : Option (Content E)) : Nat := (c.map Content.size).getD 0

/-- A bound of the bytes that the separate fields of a node take in an answer. -/
def Node.size (n : Node E) : Nat := (n.fields.map (·.2.size)).sum

section

variable {α : Type} (f : α → Nat) (k : UInt8) (v : α)

theorem sum_insert_le (m : List (UInt8 × α)) :
    ((Assoc.insert k v m).map fun e => f e.2).sum ≤ (m.map fun e => f e.2).sum + f v := by
  induction m with
  | nil => simp [Assoc.insert]
  | cons e m ih =>
    rw [Assoc.insert]
    split
    · simp only [List.map_cons, List.sum_cons]
      omega
    · split <;> simp only [List.map_cons, List.sum_cons] at ih ⊢ <;> omega

/-- What a key held before is gone. -/
theorem sum_insert {m : List (UInt8 × α)} (h : Assoc.Sorted m) :
    ((Assoc.insert k v m).map fun e => f e.2).sum + ((Assoc.find? k m).map f).getD 0 =
      (m.map fun e => f e.2).sum + f v := by
  induction m with
  | nil => simp [Assoc.insert]
  | cons e m ih =>
    obtain ⟨hlt, hm⟩ := List.pairwise_cons.1 h
    have hrest := ih hm
    rw [Assoc.insert, Assoc.find?]
    split
    · simp only [List.map_cons, List.sum_cons, Option.map_some, Option.getD_some]
      omega
    · split
      · rename_i hk
        have hnone : Assoc.find? k m = none := Assoc.find?_eq_none_of_notMem fun hmem =>
          Std.lt_irrefl (Std.lt_trans hk (hlt k hmem))
        simp [hnone, Nat.add_comm]
      · simp only [List.map_cons, List.sum_cons]
        omega

theorem sum_erase (m : List (UInt8 × α)) :
    ((Assoc.erase k m).map fun e => f e.2).sum + ((Assoc.find? k m).map f).getD 0 = (m.map fun e => f e.2).sum := by
  induction m with
  | nil => rfl
  | cons e m ih =>
    rw [Assoc.erase, Assoc.find?]
    split
    · simp [Nat.add_comm]
    · simp only [List.map_cons, List.sum_cons]
      omega

theorem sum_erase_le (m : List (UInt8 × α)) : ((Assoc.erase k m).map fun e => f e.2).sum ≤ (m.map fun e => f e.2).sum := by
  have := sum_erase f k m
  omega

/-- What is stored under different keys is no more than all there is. -/
theorem sum_find?_le {m : List (UInt8 × α)} (h : Assoc.Sorted m) {ks : List UInt8} (hks : ks.Nodup) :
    (ks.map fun k => ((Assoc.find? k m).map f).getD 0).sum ≤ (m.map fun e => f e.2).sum := by
  induction ks generalizing m with
  | nil => exact Nat.zero_le _
  | cons k ks ih =>
    obtain ⟨hk, hks⟩ := List.nodup_cons.1 hks
    have hrest := ih (h.erase k) hks
    have hsame : ∀ j ∈ ks, Assoc.find? j (Assoc.erase k m) = Assoc.find? j m := fun j hj => by
      have hne : j ≠ k := fun he => hk (he ▸ hj)
      rw [Assoc.find?_erase h, if_neg hne]
    rw [List.map_congr_left fun j hj => by rw [hsame j hj]] at hrest
    have := sum_erase f k m
    rw [List.map_cons, List.sum_cons]
    omega

end

theorem length_hashesIn_le (c : Option (Content E)) : (hashesIn c).length ≤ contentSize c := by
  match c with
  | some (.sketch _) =>
    simp only [hashesIn, contentSize, Option.map_some, Option.getD_some, Content.size]
    omega
  | none | some (.bytes _) | some (.text _) | some (.ref _) | some (.refs _) => exact Nat.zero_le _

/-- A text in one locale adds no more than itself. -/
theorem size_withText_le (locale : UInt8) (s : String) (c : Option (Content E)) :
    (Content.text (Assoc.insert locale s (textsIn c)) : Content E).size ≤ contentSize c + (8 + (Utf8.encode s).length) := by
  have hinsert := sum_insert_le (fun s => 8 + (Utf8.encode s).length) locale s (textsIn c)
  refine Nat.le_trans hinsert (Nat.add_le_add_right ?_ _)
  match c with
  | some (.text _) => exact Nat.le_refl _
  | none | some (.bytes _) | some (.sketch _) | some (.ref _) | some (.refs _) => exact Nat.zero_le _

namespace Node

variable {n : Node E} {slot : UInt8} {m : Content E}

theorem size_setField (h : Assoc.Sorted n.fields) (slot : UInt8) (m : Content E) :
    (n.setField slot m).size + contentSize (n.field? slot) = n.size + m.size := sum_insert Content.size slot m h

theorem size_dropField (n : Node E) (slot : UInt8) : (n.dropField slot).size ≤ n.size := sum_erase_le Content.size slot n.fields

/-- The fields of different slots are no larger than the node. -/
theorem sum_contentSize_le (h : Assoc.Sorted n.fields) {slots : List UInt8} (hslots : slots.Nodup) :
    (slots.map fun slot => contentSize (n.field? slot)).sum ≤ n.size := sum_find?_le Content.size h hslots

/-- A content that is larger by some bytes makes the node larger by no more. -/
theorem size_setField_le (h : Assoc.Sorted n.fields) {k : Nat} (hm : m.size ≤ contentSize (n.field? slot) + k) :
    (n.setField slot m).size ≤ n.size + k := by
  have := size_setField h slot m
  omega

theorem size_dropText (h : Assoc.Sorted n.fields) (slot locale : UInt8) : (n.dropText slot locale).size ≤ n.size := by
  unfold dropText
  split
  · rename_i entries hf
    split
    · exact size_dropField n slot
    · refine size_setField_le (k := 0) h ?_
      rw [hf]
      exact sum_erase_le (fun s => 8 + (Utf8.encode s).length) locale entries
  · exact Nat.le_refl _

@[simp] theorem main_dropText (n : Node E) (slot locale : UInt8) : (n.dropText slot locale).main = n.main := by
  unfold dropText
  split
  · split <;> rfl
  · rfl

theorem field?_dropText_eq (h : Assoc.Sorted n.fields) (slot locale j : UInt8) :
    (n.dropText slot locale).field? j = if j = slot then withoutText locale (n.field? j) else n.field? j := by
  by_cases hj : j = slot
  · subst hj
    rw [if_pos rfl, dropText]
    cases hf : n.field? j with
    | none => exact hf
    | some c =>
      cases c with
      | text entries =>
        dsimp only [withoutText]
        cases Assoc.erase locale entries with
        | nil => exact (field?_dropField h j j).trans (if_pos rfl)
        | cons e es => exact (field?_setField j j _).trans (if_pos rfl)
      | _ => exact hf
  · rw [if_neg hj]
    unfold dropText
    split
    · split
      · rw [field?_dropField h, if_neg hj]
      · rw [field?_setField, if_neg hj]
    · rfl

end Node

/-! ### Payloads -/

/-- A text payload changes the text in its locale. -/
theorem store_localized (ht : p.type = .text) (locale : UInt8) (s : String) (c : Option (Content E)) :
    p.store (Payload.localized locale s) c = .ok (.text (Assoc.insert locale s (textsIn c))) := by
  unfold PropDef.store
  simp only [ht, Payload.text_localized]
  match c with
  | none | some (.bytes _) | some (.text _) | some (.sketch _) | some (.ref _) | some (.refs _) => rfl

/-- The values with a payload of their own. -/
theorem encodeSeparate_eq_ok {v : Value} {payload : Bytes} (h : p.encodeSeparate v = .ok payload) :
    ((p.type = .string ∨ p.type = .alias) ∧ ∃ s, v = .string s ∧ payload = Payload.plain (Utf8.encode s)) ∨
      (p.type = .binary ∧ ∃ bs, v = .binary bs ∧ payload = Payload.plain bs) ∨
      (p.type = .cardinality ∧ payload = Payload.hashes v.sketchHashes) ∨
      ((p.type = .vector ∨ p.type = .colvec) ∧ ∃ xs, v = .vector xs ∧ payload = xs.flatMap (·.toBytes)) := by
  unfold PropDef.encodeSeparate at h
  split at h
  all_goals
    cases h
    try simp_all

/-- A payload makes the content that its value asks for. -/
theorem store_encodeSeparate (hd : p.Declared) {v : Value} (hnull : v.isNull = false)
    (hvalid : p.validateBuiltin v = .ok ()) {payload : Bytes} (h : p.encodeSeparate v = .ok payload)
    (hsize : payload.length < 2 ^ 32) (locale : UInt8) (create : Bool) (c : Option (Content E)) :
    ∃ m, p.store payload c = .ok m ∧ p.assign locale create v c = some m ∧ m.size ≤ contentSize c + 2 * (5 + payload.length) := by
  rcases encodeSeparate_eq_ok h with ⟨ht, s, rfl, rfl⟩ | ⟨ht, bs, rfl, rfl⟩ | ⟨ht, rfl⟩ | ⟨ht, xs, rfl, rfl⟩
  · refine ⟨.bytes (Utf8.encode s), ?_, ?_, by simp only [Content.size, Payload.plain, List.length_cons]; omega⟩
    · rcases ht with ht | ht <;> simp only [PropDef.store, ht] <;> rfl
    · rcases ht with ht | ht <;> simp only [PropDef.assign, ht]
  · refine ⟨.bytes bs, ?_, ?_, by simp only [Content.size, Payload.plain, List.length_cons]; omega⟩
    · simp only [PropDef.store, ht]
      rfl
    · simp only [PropDef.assign, ht]
  · have hlen : (Payload.hashes v.sketchHashes).length = 4 + v.sketchHashes.length * 8 := by
      simp [Payload.hashes, List.length_flatMap, List.map_const']
    have hcount : v.sketchHashes.length < 2 ^ 32 := by omega
    refine ⟨.sketch (v.sketchHashes.foldl (fun known h => KeySet.insert h known) (hashesIn c)), ?_, ?_, ?_⟩
    · simp only [PropDef.store, ht, Payload.readHashes_hashes hcount]
      cases c with
      | none => rfl
      | some m => cases m <;> rfl
    · unfold PropDef.assign
      simp only [ht]
      cases v <;> first | rfl | cases hnull
    · have := KeySet.length_insertAll_le v.sketchHashes (hashesIn c)
      have := length_hashesIn_le c
      simp only [Content.size, hlen]
      omega
  · have hlen : (xs.flatMap (·.toBytes)).length = p.len := by
      have hdims : xs.length = p.dims.getD 0 := by
        unfold PropDef.validateBuiltin PropDef.validateVector at hvalid
        by_contra hne
        rcases ht with ht | ht <;> simp [ht, hne, Value.isNull] at hvalid
      rw [hd.vector ht, ← hdims]
      simp [List.length_flatMap, List.map_const']
    refine ⟨.bytes (xs.flatMap (·.toBytes)), ?_, ?_, by simp only [Content.size]; omega⟩
    · rcases ht with ht | ht <;> simp only [PropDef.store, ht, hlen, if_true]
    · rcases ht with ht | ht <;> simp only [PropDef.assign, ht]

end Engine

end NodeStore
