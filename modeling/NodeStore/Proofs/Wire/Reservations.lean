import Mathlib.Data.List.Perm.Basic
import NodeStore.Wire.Writer

/-!
# Writing with reserved bytes

Sizes and other headers are reserved as zeros and filled after what follows them is written. Whatever order slots are
filled in, and however many sizes are open meanwhile, a fill only touches zeros that were reserved for it, and the bytes
are at last those that writing them in their place at once would have made.

* `Bytes.overwrite_comm`, `Bytes.overwrite_append_right`: bytes replaced in two places, and before what is appended.
* `Work` and `Work.step`: a writer with the regions that are still to be filled, and one call of it.
* `Work.Sound`: these regions hold zeros, lie in what is written and have no byte in common; `Sound.step`, `Sound.run`,
  and `Sound.fills` on what a call changes.
* `Work.finish`: the writer once all slots are filled; `finish_put`, `finish_reserve`, `finish_fill`, `finish_open`,
  `finish_close` say what each call does to it, and `closes` what a block comes to between its two calls.
-/

namespace NodeStore

/-! ## Replacing bytes in several places -/

namespace Bytes

variable {p q : Nat} {as bs cs : Bytes}

/-- Bytes replaced in two places that have nothing in common, in either order. -/
theorem overwrite_comm (hp : p + as.length ≤ cs.length) (hq : q + bs.length ≤ cs.length)
    (h : p + as.length ≤ q ∨ q + bs.length ≤ p) :
    overwrite p as (overwrite q bs cs) = overwrite q bs (overwrite p as cs) := by
  refine List.ext_getElem? fun k => ?_
  rw [getElem?_overwrite (by rwa [length_overwrite hq]), getElem?_overwrite hq,
    getElem?_overwrite (by rwa [length_overwrite hp]), getElem?_overwrite hp]
  split_ifs <;> first | rfl | omega

theorem overwrite_append_right (hp : p + as.length ≤ bs.length) (cs : Bytes) :
    overwrite p as (bs ++ cs) = overwrite p as bs ++ cs := by
  rw [overwrite, overwrite, List.take_append_of_le_length (by omega), List.drop_append_of_le_length hp,
    List.append_assoc _ (bs.drop _)]

end Bytes

namespace Wire

namespace Writer

variable {w : Writer} {p q : Nat} {as bs : Bytes}

@[simp] theorem length_append (w : Writer) (bs : Bytes) : (w.append bs).length = w.length + bs.length :=
  List.length_append

@[simp] theorem append_nil (w : Writer) : w.append [] = w := congrArg Writer.mk (List.append_nil _)

theorem append_append (w : Writer) (as bs : Bytes) : (w.append as).append bs = w.append (as ++ bs) :=
  congrArg Writer.mk (List.append_assoc ..)

theorem length_patch (h : p + as.length ≤ w.length) : (w.patch p as).length = w.length := Bytes.length_overwrite h

theorem patch_comm (hp : p + as.length ≤ w.length) (hq : q + bs.length ≤ w.length)
    (h : p + as.length ≤ q ∨ q + bs.length ≤ p) : (w.patch q bs).patch p as = (w.patch p as).patch q bs :=
  congrArg Writer.mk (Bytes.overwrite_comm hp hq h)

theorem patch_append (hp : p + as.length ≤ w.length) (bs : Bytes) :
    (w.append bs).patch p as = (w.patch p as).append bs :=
  congrArg Writer.mk (Bytes.overwrite_append_right hp bs)

/-- What is filled in stands where it was reserved. -/
theorem patch_reserved (w : Writer) (h : as.length = bs.length) (behind : Bytes) :
    ((w.append bs).append behind).patch w.length as = (w.append as).append behind :=
  congrArg Writer.mk (Bytes.overwrite_append w.bytes bs as behind h)

end Writer

/-! ## A writer at work -/

/-- A run of bytes: its position and its length. -/
abbrev Region := Nat × Nat

/-- Two runs of bytes have none in common. -/
def Region.Apart (a b : Region) : Prop := a.1 + a.2 ≤ b.1 ∨ b.1 + b.2 ≤ a.1

theorem Region.Apart.symm {a b : Region} (h : a.Apart b) : b.Apart a := Or.symm h

/-- A region that is reserved for some bytes. -/
structure Slot where
  pos : Nat
  bytes : Bytes

def Slot.region (s : Slot) : Region := (s.pos, s.bytes.length)

/-- One writer comes from another by filling a slot: zeros that were written before give way to the bytes of the slot, and
no other byte changes. -/
structure Slot.Fills (s : Slot) (v v' : Writer) : Prop where
  inside : s.pos + s.bytes.length ≤ v.length
  length : v'.length = v.length
  blank : ∀ i, s.pos ≤ i → i < s.pos + s.bytes.length → v.bytes[i]? = some 0
  filled : ∀ i, s.pos ≤ i → i < s.pos + s.bytes.length → v'.bytes[i]? = s.bytes[i - s.pos]?
  others : ∀ i, i < s.pos ∨ s.pos + s.bytes.length ≤ i → v'.bytes[i]? = v.bytes[i]?

/-- A writer with the sizes of the blocks that are open, the innermost first, and the slots that are still to be
filled. -/
structure Work where
  writer : Writer
  opened : List Nat
  slots : List Slot

namespace Work

/-- A call of the writer. -/
inductive Step where
  /-- Writes some bytes. -/
  | put (bs : Bytes)
  /-- Reserves a slot for some bytes. -/
  | reserve (bs : Bytes)
  /-- Fills one of the slots, the last one reserved being the first. -/
  | fill (i : Nat)
  /-- Reserves the size of a block. -/
  | openBlock
  /-- Fills the size of the innermost open block. -/
  | closeBlock

def start : Work := ⟨.empty, [], []⟩

/-- One call. -/
def step (w : Work) : Step → Work
  | .put bs => { w with writer := w.writer.append bs }
  | .reserve bs => { w with writer := (w.writer.reserve bs.length).2, slots := ⟨(w.writer.reserve bs.length).1, bs⟩ :: w.slots }
  | .fill i =>
    match w.slots[i]? with
    | some s => { w with writer := w.writer.patch s.pos s.bytes, slots := w.slots.eraseIdx i }
    | none => w
  | .openBlock => { w with writer := w.writer.openSized.2, opened := w.writer.openSized.1 :: w.opened }
  | .closeBlock =>
    match w.opened with
    | pos :: opened => { w with writer := (w.writer.closeSized pos).2, opened }
    | [] => w

/-- Some calls, one after the other. -/
def run (w : Work) (steps : List Step) : Work := steps.foldl step w

@[simp] theorem run_nil (w : Work) : w.run [] = w := rfl

@[simp] theorem run_cons (w : Work) (a : Step) (steps : List Step) : w.run (a :: steps) = (w.step a).run steps := rfl

theorem run_append (w : Work) (as bs : List Step) : w.run (as ++ bs) = (w.run as).run bs := List.foldl_append ..

/-- The size that is answered when the innermost block is closed. -/
def size? (w : Work) : Option Nat := w.opened.head?.map fun pos => (w.writer.closeSized pos).1

/-- What a call fills: a position, and the bytes that go there. -/
def patch? (w : Work) : Step → Option Slot
  | .fill i => w.slots[i]?
  | .closeBlock => w.opened.head?.map fun pos => ⟨pos, leBytes 4 (w.writer.closeSized pos).1⟩
  | _ => none

/-- Fills slots one after the other. -/
def fillAll (slots : List Slot) (v : Writer) : Writer := slots.foldl (fun v s => v.patch s.pos s.bytes) v

/-- The writer once all slots are filled. -/
def finish (w : Work) : Writer := fillAll w.slots w.writer

/-- What is reserved and not filled. -/
def regions (w : Work) : List Region := w.opened.map (·, 4) ++ w.slots.map Slot.region

/-- The regions that are still to be filled hold zeros, lie in what is written and have no byte in common. -/
structure Sound (w : Work) : Prop where
  inside : ∀ g ∈ w.regions, g.1 + g.2 ≤ w.writer.length
  blank : ∀ g ∈ w.regions, ∀ i, g.1 ≤ i → i < g.1 + g.2 → w.writer.bytes[i]? = some 0
  apart : w.regions.Pairwise Region.Apart

variable {w w' : Work}

/-! ### Each call keeps the regions sound -/

theorem sound_start : start.Sound := ⟨nofun, nofun, .nil⟩

namespace Sound

/-- Behind what is written everything can be written. -/
theorem append (h : w.Sound) {bs : Bytes} (hwriter : w'.writer = w.writer.append bs) (hregions : w'.regions = w.regions) :
    w'.Sound := by
  refine ⟨fun g hg => ?_, fun g hg i hi hlt => ?_, hregions ▸ h.apart⟩
  · have := h.inside g (hregions ▸ hg)
    rw [hwriter, Writer.length_append]
    omega
  · have hin : i < w.writer.length := by
      have := h.inside g (hregions ▸ hg)
      omega
    rw [hwriter]
    exact (List.getElem?_append_left hin).trans (h.blank g (hregions ▸ hg) i hi hlt)

/-- What is reserved lies behind everything before. -/
theorem reserve (h : w.Sound) {n : Nat} (hwriter : w'.writer = w.writer.append (.replicate n 0))
    (hregions : w'.regions.Perm ((w.writer.length, n) :: w.regions)) : w'.Sound := by
  have hlen : w'.writer.length = w.writer.length + n := by rw [hwriter, Writer.length_append, List.length_replicate]
  refine ⟨fun g hg => ?_, fun g hg i hi hlt => ?_, ?_⟩
  · rcases List.mem_cons.1 (hregions.mem_iff.1 hg) with rfl | hg
    · exact Nat.le_of_eq hlen.symm
    · have := h.inside g hg
      omega
  · rw [hwriter]
    rcases List.mem_cons.1 (hregions.mem_iff.1 hg) with rfl | hg
    · have hlt : i - w.writer.length < n := by
        dsimp only at hlt hi
        omega
      exact (List.getElem?_append_right hi).trans (List.getElem?_replicate_of_lt hlt)
    · have hin : i < w.writer.length := by
        have := h.inside g hg
        omega
      exact (List.getElem?_append_left hin).trans (h.blank g hg i hi hlt)
  · refine (hregions.pairwise_iff .symm).2 (List.pairwise_cons.2 ⟨fun g hg => .inr (h.inside g hg), h.apart⟩)

/-- What fills one region leaves the others as they are. -/
theorem patch (h : w.Sound) {s : Slot} (hwriter : w'.writer = w.writer.patch s.pos s.bytes)
    (hregions : w.regions.Perm (s.region :: w'.regions)) : w'.Sound := by
  have hin : s.pos + s.bytes.length ≤ w.writer.length := h.inside _ (hregions.mem_iff.2 List.mem_cons_self)
  obtain ⟨hothers, hapart⟩ := List.pairwise_cons.1 ((hregions.pairwise_iff .symm).1 h.apart)
  have hmem : ∀ g ∈ w'.regions, g ∈ w.regions := fun g hg => hregions.mem_iff.2 (List.mem_cons_of_mem _ hg)
  refine ⟨fun g hg => ?_, fun g hg i hi hlt => ?_, hapart⟩
  · rw [hwriter, Writer.length_patch hin]
    exact h.inside g (hmem g hg)
  · rw [hwriter, ← h.blank g (hmem g hg) i hi hlt]
    have hg := hothers g hg
    refine (Bytes.getElem?_overwrite hin i).trans ?_
    unfold Region.Apart Slot.region at hg
    dsimp only at hg
    split_ifs <;> first | rfl | omega

theorem step (h : w.Sound) (a : Step) : (w.step a).Sound := by
  cases a with
  | put bs => exact h.append rfl rfl
  | reserve bs =>
    refine h.reserve rfl ?_
    exact List.perm_middle
  | fill i =>
    rw [Work.step]
    split
    · rename_i s hs
      refine h.patch (s := s) rfl ?_
      obtain ⟨hi, rfl⟩ := List.getElem?_eq_some_iff.1 hs
      have hslots := (List.getElem_cons_eraseIdx_perm hi).symm.map Slot.region
      exact (hslots.append_left _).trans List.perm_middle
    · exact h
  | openBlock =>
    exact h.reserve rfl (.refl _)
  | closeBlock =>
    rw [Work.step]
    split
    · rename_i pos opened hopened
      refine h.patch (s := ⟨pos, leBytes 4 (w.writer.closeSized pos).1⟩) rfl ?_
      rw [regions, hopened]
      exact .refl _
    · exact h

theorem run (h : w.Sound) (steps : List Step) : (w.run steps).Sound := by
  induction steps generalizing w with
  | nil => exact h
  | cons a steps ih => exact ih (h.step a)

end Sound

/-- A call that fills something fills what was reserved for it, and nothing else. -/
theorem Sound.fills (h : w.Sound) {a : Step} {s : Slot} (hs : w.patch? a = some s) : s.Fills w.writer (w.step a).writer := by
  have hpatch : (w.step a).writer = w.writer.patch s.pos s.bytes ∧ s.region ∈ w.regions := by
    cases a with
    | fill i =>
      replace hs : w.slots[i]? = some s := hs
      rw [Work.step, hs]
      exact ⟨rfl, List.mem_append_right _ (List.mem_map_of_mem (List.mem_of_getElem? hs))⟩
    | closeBlock =>
      obtain ⟨pos, hpos, rfl⟩ := Option.map_eq_some_iff.1 hs
      obtain ⟨opened, hopened⟩ := List.head?_eq_some_iff.1 hpos
      rw [Work.step, regions, hopened]
      refine ⟨rfl, List.mem_append_left _ ?_⟩
      exact List.mem_cons_self
    | _ => cases hs
  obtain ⟨hwriter, hmem⟩ := hpatch
  have hin : s.pos + s.bytes.length ≤ w.writer.length := h.inside _ hmem
  rw [hwriter]
  refine ⟨hin, Writer.length_patch hin, h.blank _ hmem, fun i hi hlt => ?_, fun i hi => ?_⟩
  · exact (Bytes.getElem?_overwrite hin i).trans (by rw [if_neg (by omega), if_pos hlt])
  · refine (Bytes.getElem?_overwrite hin i).trans ?_
    split_ifs <;> first | rfl | omega

/-! ### What is written once all slots are filled -/

section

variable {slots : List Slot} {v : Writer}

theorem length_fillAll (hin : ∀ s ∈ slots, s.pos + s.bytes.length ≤ v.length) : (fillAll slots v).length = v.length := by
  induction slots generalizing v with
  | nil => rfl
  | cons s slots ih =>
    have hs := Writer.length_patch (hin s List.mem_cons_self)
    rw [fillAll, List.foldl_cons, ← fillAll, ih, hs]
    intro s' hs'
    rw [hs]
    exact hin s' (List.mem_cons_of_mem _ hs')

/-- What commutes with each fill commutes with all. -/
theorem fillAll_comm (hin : ∀ s ∈ slots, s.pos + s.bytes.length ≤ v.length) {f : Writer → Writer}
    (hf : ∀ s ∈ slots, ∀ u : Writer, u.length = v.length → (f u).patch s.pos s.bytes = f (u.patch s.pos s.bytes)) :
    fillAll slots (f v) = f (fillAll slots v) := by
  induction slots generalizing v with
  | nil => rfl
  | cons s slots ih =>
    have hs := Writer.length_patch (hin s List.mem_cons_self)
    have hrest := fun s' hs' => hin s' (List.mem_cons_of_mem s hs')
    rw [← hs] at hrest
    change fillAll slots ((f v).patch s.pos s.bytes) = f (fillAll slots (v.patch s.pos s.bytes))
    rw [hf s List.mem_cons_self v rfl]
    exact ih hrest fun s' hs' u hu => hf s' (List.mem_cons_of_mem _ hs') u (hu.trans hs)

theorem fillAll_append (hin : ∀ s ∈ slots, s.pos + s.bytes.length ≤ v.length) (bs : Bytes) :
    fillAll slots (v.append bs) = (fillAll slots v).append bs :=
  fillAll_comm hin (f := (·.append bs)) fun s hs _ hu => Writer.patch_append (hu ▸ hin s hs) bs

theorem fillAll_patch (hin : ∀ s ∈ slots, s.pos + s.bytes.length ≤ v.length) {p : Nat} {as : Bytes}
    (hp : p + as.length ≤ v.length) (hapart : ∀ s ∈ slots, s.region.Apart (p, as.length)) :
    fillAll slots (v.patch p as) = (fillAll slots v).patch p as :=
  fillAll_comm hin (f := (·.patch p as)) fun s hs _ hu => Writer.patch_comm (hu ▸ hin s hs) (hu ▸ hp) (hapart s hs)

/-- Any of the slots may be filled first. -/
theorem fillAll_eraseIdx (hin : ∀ s ∈ slots, s.pos + s.bytes.length ≤ v.length)
    (hapart : (slots.map Slot.region).Pairwise Region.Apart) {i : Nat} {s : Slot} (hs : slots[i]? = some s) :
    fillAll (slots.eraseIdx i) (v.patch s.pos s.bytes) = fillAll slots v := by
  induction slots generalizing v i with
  | nil => cases hs
  | cons t slots ih =>
    obtain ⟨hfirst, hrest⟩ := List.pairwise_cons.1 hapart
    cases i with
    | zero =>
      cases hs
      rfl
    | succ i =>
      have hmem : s ∈ slots := List.mem_of_getElem? hs
      have ht := hin t List.mem_cons_self
      have hlen := Writer.length_patch ht
      change fillAll (slots.eraseIdx i) ((v.patch s.pos s.bytes).patch t.pos t.bytes) = _
      rw [Writer.patch_comm ht (hin s (List.mem_cons_of_mem _ hmem)) (hfirst _ (List.mem_map_of_mem hmem))]
      exact ih (fun s' hs' => hlen ▸ hin s' (List.mem_cons_of_mem _ hs')) hrest hs

end

theorem Sound.slots_inside (h : w.Sound) : ∀ s ∈ w.slots, s.pos + s.bytes.length ≤ w.writer.length :=
  fun _ hs => h.inside _ (List.mem_append_right _ (List.mem_map_of_mem hs))

theorem Sound.length_finish (h : w.Sound) : w.finish.length = w.writer.length := length_fillAll h.slots_inside

theorem finish_put (h : w.Sound) (bs : Bytes) : (w.step (.put bs)).finish = w.finish.append bs :=
  fillAll_append h.slots_inside bs

/-- What a slot is reserved for counts as written. -/
theorem finish_reserve (h : w.Sound) (bs : Bytes) : (w.step (.reserve bs)).finish = w.finish.append bs := by
  have hblank : bs.length = (List.replicate bs.length (0 : UInt8)).length := List.length_replicate.symm
  have hfill := w.writer.patch_reserved hblank []
  rw [Writer.append_nil, Writer.append_nil] at hfill
  calc (w.step (.reserve bs)).finish
      = fillAll w.slots ((w.writer.append (.replicate bs.length 0)).patch w.writer.length bs) := rfl
    _ = fillAll w.slots (w.writer.append bs) := by rw [hfill]
    _ = w.finish.append bs := fillAll_append h.slots_inside bs

theorem finish_fill (h : w.Sound) (i : Nat) : (w.step (.fill i)).finish = w.finish := by
  rw [step]
  split
  · rename_i s hs
    exact fillAll_eraseIdx h.slots_inside (List.pairwise_append.1 h.apart).2.1 hs
  · rfl

theorem opened_fill (w : Work) (i : Nat) : (w.step (.fill i)).opened = w.opened := by
  rw [step]
  split <;> rfl

theorem finish_open (h : w.Sound) : (w.step .openBlock).finish = w.finish.append (.replicate 4 0) :=
  fillAll_append h.slots_inside _

/-- The size of a block is filled in whatever slots are filled before it. -/
theorem finish_close (h : w.Sound) {pos : Nat} {opened : List Nat} (hopened : w.opened = pos :: opened) :
    (w.step .closeBlock).finish = w.finish.patch pos (leBytes 4 (w.writer.closeSized pos).1) := by
  have hmem : (pos, 4) ∈ w.opened.map (·, 4) := by simp [hopened]
  have hpos := h.inside _ (List.mem_append_left _ hmem)
  obtain ⟨-, -, hapart⟩ := List.pairwise_append.1 h.apart
  rw [step, hopened]
  exact fillAll_patch h.slots_inside (by simpa using hpos) fun s hs => by
    simpa using (hapart _ hmem _ (List.mem_map_of_mem hs)).symm

/-- A block that was opened and over whose items nothing else was opened: its size is the length of the items, and closed
it is the block that is written as a whole. -/
theorem closes (h : w.Sound) (h' : w'.Sound) {body : Bytes} (hfinish : w'.finish = (w.step .openBlock).finish.append body)
    (hopened : w'.opened = (w.step .openBlock).opened) :
    w'.size? = some body.length ∧ (w'.step .closeBlock).finish = w.finish.append (sized body) ∧
      (w'.step .closeBlock).opened = w.opened := by
  replace hopened : w'.opened = w.writer.length :: w.opened := hopened
  rw [finish_open h] at hfinish
  have hlen : w'.writer.length = w.writer.length + 4 + body.length := by
    rw [← h'.length_finish, hfinish, Writer.length_append, Writer.length_append, h.length_finish, List.length_replicate]
  have hsize : (w'.writer.closeSized w.writer.length).1 = body.length := by
    rw [Writer.closeSized]
    dsimp only
    omega
  refine ⟨?_, ?_, ?_⟩
  · rw [size?, hopened, List.head?_cons, Option.map_some, hsize]
  · have hzeros : (leBytes 4 body.length).length = (List.replicate 4 (0 : UInt8)).length := length_leBytes 4 _
    rw [finish_close h' hopened, hsize, hfinish, ← h.length_finish, Writer.patch_reserved _ hzeros, Writer.append_append,
      sized]
  · rw [step, hopened]

end Work

end Wire

end NodeStore
