import Mathlib.Data.List.Pairwise
import NodeStore.Proofs.SortedLists
import NodeStore.Record

/-!
# Values at nested paths

What is stored at a path is found there, and paths that do not lead through one another do not see each other.

* `Path.Named`: the path has a dotted name. `Path.Apart`: neither path leads through the other.
* `Record.lookup_insertPath_self`, `Record.lookup_insertPath_of_apart`, `Record.lookup_insertPath_append`: what one insertion
  puts at its path, leaves elsewhere, and makes on the way.
* `Record.insertPath_comm`: two insertions that are apart, in either order. `Record.path_laws`: the same over dotted names.
* `Record.lookup_insertAll`, `Record.insertAll_perm`: one insertion after the other.
-/

namespace NodeStore

/-- The paths with a dotted name: there is a segment, and a dot is in none. -/
def Path.Named (p : List String) : Prop := p ≠ [] ∧ ∀ s ∈ p, '.' ∉ s.toList

/-- Neither path leads through the other. -/
def Path.Apart (p q : List String) : Prop := ¬p <+: q ∧ ¬q <+: p

instance : DecidablePred Path.Named := fun p => inferInstanceAs (Decidable (p ≠ [] ∧ ∀ s ∈ p, '.' ∉ s.toList))

instance : DecidableRel Path.Apart := fun p q => inferInstanceAs (Decidable (¬p <+: q ∧ ¬q <+: p))

/-- What stands above a path with a dotted name has one. -/
theorem Path.Named.of_append {q rest : List String} (h : Named (q ++ rest)) (hq : q ≠ []) : Named q :=
  ⟨hq, fun s hs => h.2 s (List.mem_append_left _ hs)⟩

namespace Path.Apart

variable {p q : List String}

theorem symm (h : Apart p q) : Apart q p := ⟨h.2, h.1⟩

theorem ne (h : Apart p q) : p ≠ q := fun he => h.1 (he ▸ List.prefix_refl _)

theorem ne_nil (h : Apart p q) : p ≠ [] := fun he => h.1 (he ▸ List.nil_prefix)

/-- Behind a common segment the rests are apart. -/
theorem of_cons {k : String} (h : Apart (k :: p) (k :: q)) : Apart p q := by
  simpa [Apart, List.prefix_cons_inj] using h

end Path.Apart

namespace Record

open Path (Apart)

variable {k : String} {ks : List String} {r : Record} {v : Value}

@[simp] theorem get?_insert (j k : String) (v : Value) (r : Record) :
    (r.insert k v).get? j = if j = k then some v else r.get? j := Assoc.find?_insert ..

theorem insert_insert (k : String) (v w : Value) (r : Record) : (r.insert k w).insert k v = r.insert k v :=
  Assoc.insert_insert ..

theorem insert_comm {k j : String} (h : k ≠ j) (v w : Value) (r : Record) :
    (r.insert j w).insert k v = (r.insert k v).insert j w := Assoc.insert_comm h ..

/-- There is a value at a path where one is found. -/
theorem hasPath_eq (r : Record) (path : List String) : r.hasPath path = (r.lookup path).isSome := by
  induction path generalizing r with
  | nil => rfl
  | cons k ks ih =>
    cases ks with
    | nil => rfl
    | cons k' ks =>
      rw [hasPath, lookup]
      split
      · exact ih _
      · rfl

/-- A path of more than one segment leads through the object at its first. -/
theorem lookup_cons (k : String) {ks : List String} (hks : ks ≠ []) (r : Record) :
    lookup r (k :: ks) = lookup (within (r.get? k)) ks := by
  obtain ⟨k', ks, rfl⟩ := List.exists_cons_of_ne_nil hks
  have hempty : ∀ qs, lookup empty qs = none := fun qs => by
    unfold lookup
    split <;> rfl
  rw [lookup]
  split
  · rename_i hr
    rw [hr, within]
  · rename_i hr
    unfold within
    split
    · rename_i inner hinner
      exact absurd hinner (hr inner)
    · rw [hempty]

theorem insertPath_cons (v : Value) (k : String) {ks : List String} (hks : ks ≠ []) (r : Record) :
    insertPath v (k :: ks) r = r.insert k (.object (insertPath v ks (within (r.get? k)))) := by
  obtain ⟨k', ks, rfl⟩ := List.exists_cons_of_ne_nil hks
  rfl

/-- An insertion changes one field of the record, by what the field holds. -/
theorem insertPath_eq_insert (v : Value) (k : String) (ks : List String) :
    ∃ f : Option Value → Value, ∀ r : Record, insertPath v (k :: ks) r = r.insert k (f (r.get? k)) := by
  by_cases hks : ks = []
  · subst hks
    exact ⟨fun _ => v, fun _ => rfl⟩
  · exact ⟨fun old => .object (insertPath v ks (within old)), insertPath_cons v k hks⟩

/-- Another first segment leads past what is inserted. -/
theorem lookup_insert_of_ne {q : List String} (h : q.head? ≠ some k) (v : Value) (r : Record) :
    (r.insert k v).lookup q = r.lookup q := by
  match q with
  | [] => rfl
  | [j] =>
    have hj : j ≠ k := fun he => h (he ▸ rfl)
    simp [lookup, hj]
  | j :: j' :: js =>
    have hj : j ≠ k := fun he => h (he ▸ rfl)
    simp [lookup, hj]

/-- What is stored at a path is found there. -/
theorem lookup_insertPath_self (v : Value) {path : List String} (h : path ≠ []) (r : Record) :
    (insertPath v path r).lookup path = some v := by
  induction path generalizing r with
  | nil => exact absurd rfl h
  | cons k ks ih =>
    by_cases hks : ks = []
    · subst hks
      simp [insertPath, lookup]
    · rw [insertPath_cons v k hks, lookup_cons k hks, get?_insert, if_pos rfl]
      exact ih hks _

/-- What is stored at a path changes nothing at paths that are apart from it. -/
theorem lookup_insertPath_of_apart (v : Value) {p q : List String} (h : Apart p q) (r : Record) :
    (insertPath v p r).lookup q = r.lookup q := by
  induction p generalizing q r with
  | nil => rfl
  | cons k ks ih =>
    cases q with
    | nil => rfl
    | cons j js =>
      by_cases hj : j = k
      · subst hj
        have hrest := h.of_cons
        have hjs := hrest.symm.ne_nil
        rw [insertPath_cons v j hrest.ne_nil, lookup_cons j hjs, lookup_cons j hjs, get?_insert, if_pos rfl]
        exact ih hrest _
      · have hne : (j :: js).head? ≠ some k := fun he => hj (Option.some.inj he)
        obtain ⟨f, hf⟩ := insertPath_eq_insert v k ks
        rw [hf]
        exact lookup_insert_of_ne hne _ r

/-- On the way to what is stored there are objects; each holds what it held before, and the rest of the path. -/
theorem lookup_insertPath_append (v : Value) {q rest : List String} (hq : q ≠ []) (hrest : rest ≠ []) (r : Record) :
    (insertPath v (q ++ rest) r).lookup q = some (.object (insertPath v rest (within (r.lookup q)))) := by
  induction q generalizing r with
  | nil => exact absurd rfl hq
  | cons k ks ih =>
    have hne : ks ++ rest ≠ [] := by simp [hrest]
    rw [List.cons_append, insertPath_cons v k hne]
    by_cases hks : ks = []
    · subst hks
      simp [lookup]
    · rw [lookup_cons k hks, lookup_cons k hks, get?_insert, if_pos rfl]
      exact ih hks _

/-- Insertions that are apart may be made in either order. -/
theorem insertPath_comm {p q : List String} (h : Apart p q) (v w : Value) (r : Record) :
    insertPath v p (insertPath w q r) = insertPath w q (insertPath v p r) := by
  induction p generalizing q r with
  | nil => exact absurd rfl h.ne_nil
  | cons k ks ih =>
    cases q with
    | nil => exact absurd rfl h.symm.ne_nil
    | cons j js =>
      by_cases hj : j = k
      · -- Both are insertions into the object of one field.
        subst hj
        have hrest := h.of_cons
        have hinner := ih hrest (within (r.get? j))
        simp only [insertPath_cons _ j hrest.ne_nil, insertPath_cons _ j hrest.symm.ne_nil, get?_insert, if_pos,
          insert_insert]
        exact congrArg (fun inner => r.insert j (.object inner)) hinner
      · obtain ⟨f, hf⟩ := insertPath_eq_insert v k ks
        obtain ⟨g, hg⟩ := insertPath_eq_insert w j js
        simp only [hf, hg, get?_insert, if_neg hj, if_neg (Ne.symm hj)]
        exact insert_comm (Ne.symm hj) _ _ r

theorem getPath?_join {q : List String} (h : Path.Named q) (r : Record) : r.getPath? (Path.join q) = r.lookup q := by
  rw [getPath?, Path.split_join h.1 h.2]

/-- What an insertion does, as seen through dotted names: the value is at its path, with objects on the way; nothing else
is disturbed; and insertions that are apart may be made in either order. -/
theorem path_laws (r : Record) {p : List String} (hp : Path.Named p) (v : Value) :
    ((insertPath v p r).getPath? (Path.join p) = some v ∧ (insertPath v p r).hasPath p = true) ∧
    (∀ q, Apart p q → (insertPath v p r).hasPath q = r.hasPath q ∧
      (Path.Named q → (insertPath v p r).getPath? (Path.join q) = r.getPath? (Path.join q))) ∧
    (∀ q, q ≠ [] → q <+: p → q ≠ p → ∃ inner, (insertPath v p r).getPath? (Path.join q) = some (.object inner)) ∧
    (∀ q, Path.Named q → (r.hasPath q = true ↔ ∃ w, r.getPath? (Path.join q) = some w)) ∧
    ∀ q w, Apart p q → insertPath w q (insertPath v p r) = insertPath v p (insertPath w q r) := by
  have hself := lookup_insertPath_self v hp.1 r
  refine ⟨⟨?_, ?_⟩, fun q hq => ⟨?_, fun hnamed => ?_⟩, fun q hne hpre hproper => ?_, fun q hq => ?_, fun q w hq => ?_⟩
  · rw [getPath?_join hp, hself]
  · rw [hasPath_eq, hself, Option.isSome_some]
  · rw [hasPath_eq, hasPath_eq, lookup_insertPath_of_apart v hq]
  · rw [getPath?_join hnamed, getPath?_join hnamed, lookup_insertPath_of_apart v hq]
  · obtain ⟨rest, rfl⟩ := hpre
    have hrest : rest ≠ [] := fun he => hproper (by rw [he, List.append_nil])
    rw [getPath?_join (hp.of_append hne)]
    exact ⟨_, lookup_insertPath_append v hne hrest r⟩
  · rw [hasPath_eq, getPath?_join hq, Option.isSome_iff_exists]
  · exact (insertPath_comm hq v w r).symm

/-- A city is put beside the postal code of an address. -/
theorem path_laws_address :
    Path.Named ["address", "city"] ∧ Apart ["address", "city"] ["address", "zip"] ∧
    (insertPath (.string "Utrecht") ["address", "city"] [("address", .object [("zip", .string "3511")])]).getPath?
      (Path.join ["address", "city"]) = some (.string "Utrecht") ∧
    (insertPath (.string "Utrecht") ["address", "city"] [("address", .object [("zip", .string "3511")])]).getPath?
      (Path.join ["address", "zip"]) = some (.string "3511") ∧
    (∃ inner, (insertPath (.string "Utrecht") ["address", "city"]
      [("address", .object [("zip", .string "3511")])]).getPath? (Path.join ["address"]) = some (.object inner)) ∧
    Record.hasPath [("address", .object [("zip", .string "3511")])] ["address", "zip"] = true ∧
    insertPath .null ["address", "zip"] (insertPath (.string "Utrecht") ["address", "city"]
        [("address", .object [("zip", .string "3511")])]) =
      insertPath (.string "Utrecht") ["address", "city"]
        (insertPath .null ["address", "zip"] [("address", .object [("zip", .string "3511")])]) := by
  have hzip : Path.Named ["address", "zip"] := by decide
  have hapart : Apart ["address", "city"] ["address", "zip"] := by decide
  have hold : Record.getPath? [("address", .object [("zip", .string "3511")])] (Path.join ["address", "zip"]) =
      some (.string "3511") := by rfl
  obtain ⟨⟨hself, -⟩, helsewhere, habove, hthere, hcomm⟩ :=
    path_laws [("address", .object [("zip", .string "3511")])] (p := ["address", "city"]) (by decide) (.string "Utrecht")
  exact ⟨by decide, hapart, hself, ((helsewhere _ hapart).2 hzip).trans hold,
    habove ["address"] (by decide) (by decide) (by decide), (hthere _ hzip).2 ⟨_, hold⟩, hcomm _ .null hapart⟩

/-- The record with some values stored at paths, one after the other. -/
def insertAll (entries : List (List String × Value)) (r : Record) : Record :=
  entries.foldl (fun r e => insertPath e.2 e.1 r) r

@[simp] theorem insertAll_nil (r : Record) : insertAll [] r = r := rfl

@[simp] theorem insertAll_cons (e : List String × Value) (entries : List (List String × Value)) (r : Record) :
    insertAll (e :: entries) r = insertAll entries (insertPath e.2 e.1 r) := rfl

theorem insertAll_append (as bs : List (List String × Value)) (r : Record) :
    insertAll (as ++ bs) r = insertAll bs (insertAll as r) := List.foldl_append ..

/-- Insertions elsewhere are not seen. -/
theorem lookup_insertAll_of_apart {entries : List (List String × Value)} {q : List String}
    (h : ∀ e ∈ entries, Apart e.1 q) (r : Record) : (insertAll entries r).lookup q = r.lookup q := by
  induction entries generalizing r with
  | nil => rfl
  | cons e entries ih =>
    rw [insertAll_cons, ih fun e' he' => h e' (List.mem_cons_of_mem _ he')]
    exact lookup_insertPath_of_apart e.2 (h e List.mem_cons_self) r

/-- Insertions that agree where their paths meet may be made in any order. -/
theorem insertAll_perm {entries entries' : List (List String × Value)} (h : entries.Perm entries')
    (hagree : ∀ e ∈ entries, ∀ e' ∈ entries, e = e' ∨ Apart e.1 e'.1) (r : Record) :
    insertAll entries r = insertAll entries' r := by
  refine h.foldl_eq' (fun e he e' he' r => ?_) r
  rcases hagree e he e' he' with rfl | hapart
  · rfl
  · exact (insertPath_comm hapart e.2 e'.2 r).symm

/-- Of insertions that agree where their paths meet each is found. -/
theorem lookup_insertAll {entries : List (List String × Value)} {path : List String} {v : Value} (hne : path ≠ [])
    (hagree : ∀ e ∈ entries, e = (path, v) ∨ Apart e.1 path) (h : (path, v) ∈ entries) (r : Record) :
    (insertAll entries r).lookup path = some v := by
  induction entries generalizing r with
  | nil => cases h
  | cons e entries ih =>
    have hrest := fun e' he' => hagree e' (List.mem_cons_of_mem _ he')
    rw [insertAll_cons]
    by_cases hlater : (path, v) ∈ entries
    · exact ih hrest hlater _
    · obtain rfl : (path, v) = e := (List.mem_cons.1 h).resolve_right hlater
      rw [lookup_insertAll_of_apart fun e' he' => (hrest e' he').resolve_left fun heq => hlater (heq ▸ he')]
      exact lookup_insertPath_self v hne r

end Record

end NodeStore
