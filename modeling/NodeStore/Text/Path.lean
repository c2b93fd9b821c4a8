/-!
# Dotted paths

A property inside an object is named by the names on the way joined by dots.

* `Path.split`: the segments of a dotted name; there is always at least one.
* `Path.join`: the dotted name of some segments; `split_join` when no segment holds a dot.
-/

namespace NodeStore.Path

/-- The parts between dots. -/
def splitChars : List Char → List (List Char)
  | [] => [[]]
  | c :: cs =>
    if c = '.' then [] :: splitChars cs
    else
      match splitChars cs with
      | [] => [[c]]
      | s :: ss => (c :: s) :: ss

/-- The segments of a dotted name. -/
def split (path : String) : List String := (splitChars path.toList).map String.ofList

/-- The segments joined by dots. -/
def joinChars : List (List Char) → List Char
  | [] => []
  | [s] => s
  | s :: t :: ss => s ++ '.' :: joinChars (t :: ss)

/-- The dotted name of some segments. -/
def join (segments : List String) : String := String.ofList (joinChars (segments.map String.toList))

theorem splitChars_ne_nil (cs : List Char) : splitChars cs ≠ [] := by
  induction cs with
  | nil => simp [splitChars]
  | cons c cs _ =>
    simp only [splitChars]
    split
    · simp
    · split <;> simp

/-- What stands before a dot is split by itself. -/
theorem splitChars_append (as bs : List Char) : splitChars (as ++ '.' :: bs) = splitChars as ++ splitChars bs := by
  induction as with
  | nil => simp [splitChars]
  | cons c cs ih =>
    rw [List.cons_append, splitChars, splitChars, ih]
    split
    · rfl
    · obtain ⟨s, ss, hs⟩ := List.exists_cons_of_ne_nil (splitChars_ne_nil cs)
      rw [hs]
      rfl

theorem splitChars_of_not_mem {s : List Char} (h : '.' ∉ s) : splitChars s = [s] := by
  induction s with
  | nil => rfl
  | cons c s ih =>
    have hc : c ≠ '.' := fun e => h (by simp [e])
    rw [splitChars, if_neg hc, ih (fun m => h (by simp [m]))]

theorem splitChars_append_dot {s : List Char} (h : '.' ∉ s) (rest : List Char) :
    splitChars (s ++ '.' :: rest) = s :: splitChars rest := by
  rw [splitChars_append, splitChars_of_not_mem h, List.singleton_append]

/-- A name below another has the segments of both. -/
theorem split_append (above below : String) : split (above ++ "." ++ below) = split above ++ split below := by
  have hchars : (above ++ "." ++ below).toList = above.toList ++ '.' :: below.toList := by simp
  rw [split, hchars, splitChars_append, List.map_append, split, split]

theorem splitChars_joinChars {ss : List (List Char)} (hne : ss ≠ []) (h : ∀ s ∈ ss, '.' ∉ s) :
    splitChars (joinChars ss) = ss := by
  induction ss with
  | nil => exact absurd rfl hne
  | cons s ss ih =>
    cases ss with
    | nil => exact splitChars_of_not_mem (h s (by simp))
    | cons t ss =>
      rw [joinChars, splitChars_append_dot (h s (by simp)), ih (by simp) (fun x hx => h x (by simp [hx]))]

/-- Segments without dots are read back from their dotted name. -/
theorem split_join {segments : List String} (hne : segments ≠ []) (h : ∀ s ∈ segments, '.' ∉ s.toList) :
    split (join segments) = segments := by
  rw [split, join, String.toList_ofList, splitChars_joinChars (by simpa using hne)]
  · simp [List.map_map, Function.comp_def]
  · intro s hs
    obtain ⟨t, ht, rfl⟩ := List.mem_map.1 hs
    exact h t ht

end NodeStore.Path
