import NodeStore.Proofs.Inversion
import NodeStore.Proofs.Wire.Reservations
import NodeStore.Proofs.Wire.RoundTrip

/-!
# Reading nested blocks back

Items are numbers, runs of bytes and blocks of further items that have their size in front. A block is written as a
whole, or item by item behind a size that is filled at its end; any item can be written into a slot that is filled later.
However it is written, the bytes are the same, and reading them by their shape gives the items back to the last byte.

* `Scalar` and `Tree`: items, with their bytes `Tree.encode`; `Tree.Small` asks for room in the sizes.
* `Script`: how items are written, with the calls `Script.steps` and what they leave, `Script.output`; `Script.tree` is
  what is written.
* `Shape`: how items are read, with `Shape.read`.
* `Script.finish_steps`, `Script.output_eq`: a script writes the bytes of its tree, in the middle of whatever else is written.
* `Shape.reads`: these bytes are read back; `size_of_prefix`, `Shape.read_of_prefix`: a block that is cut is not.
* `script_round_trip`: all of it.
-/

namespace NodeStore.Wire

/-! ## Items and their bytes -/

/-- An item without items of its own. -/
inductive Scalar where
  | byte (b : UInt8)
  | u16 (n : UInt16)
  | u32 (n : UInt32)
  | u64 (n : UInt64)
  | double (x : Binary64)
  | raw (bs : Bytes)
  deriving DecidableEq

/-- What is known of an item before it is read. -/
inductive Scalar.Kind where
  | byte
  | u16
  | u32
  | u64
  | double
  | raw (length : Nat)
  deriving DecidableEq

namespace Scalar

def kind : Scalar → Kind
  | byte _ => .byte
  | u16 _ => .u16
  | u32 _ => .u32
  | u64 _ => .u64
  | double _ => .double
  | raw bs => .raw bs.length

def encode : Scalar → Bytes
  | byte b => [b]
  | u16 n => leBytes 2 n.toNat
  | u32 n => leBytes 4 n.toNat
  | u64 n => leBytes 8 n.toNat
  | double x => x.toBytes
  | raw bs => bs

/-- The item of a kind at the front of what is left. -/
def Kind.read (context : String) : Kind → Read Scalar
  | .byte => .byte <$> Read.byte context
  | .u16 => .u16 <$> Read.u16 context
  | .u32 => .u32 <$> Read.u32 context
  | .u64 => (fun n => .u64 (.ofNat n)) <$> Read.nat 8 context
  | .double => .double <$> Read.double context
  | .raw n => .raw <$> Read.bytes n context

theorem reads (x : Scalar) (context : String) : Reads (x.kind.read context) x.encode x := by
  cases x with
  | byte b => exact (Reads.byte context b).map
  | u16 n => exact (Reads.u16 n context).map
  | u32 n => exact (Reads.u32 n context).map
  | u64 n =>
    have := (Reads.nat (w := 8) (n := n.toNat) n.toNat_lt context).map (f := fun n => Scalar.u64 (.ofNat n))
    rwa [UInt64.ofNat_toNat] at this
  | double x =>
    have := ((Reads.bytes x.length_toBytes context).map (f := Binary64.ofBytes)).map (f := Scalar.double)
    rwa [Binary64.ofBytes_toBytes] at this
  | raw bs => exact (Reads.bytes rfl context).map

end Scalar

/-- Items one after the other. -/
inductive Tree where
  | done
  | leaf (x : Scalar) (rest : Tree)
  /-- A block of further items. -/
  | block (inner rest : Tree)
  deriving DecidableEq

namespace Tree

def encode : Tree → Bytes
  | done => []
  | leaf x rest => x.encode ++ rest.encode
  | block inner rest => sized inner.encode ++ rest.encode

/-- The size of each block has room in its bytes. -/
def Small : Tree → Prop
  | done => True
  | leaf _ rest => rest.Small
  | block inner rest => inner.encode.length < 2 ^ 32 ∧ inner.Small ∧ rest.Small

end Tree

/-! ## Writing -/

/-- How items are written one after the other. -/
inductive Script where
  | done
  | write (x : Scalar) (rest : Script)
  /-- A slot is reserved for the item. -/
  | reserve (x : Scalar) (rest : Script)
  /-- A slot that was reserved before is filled, the last one being the first. -/
  | fill (i : Nat) (rest : Script)
  /-- The items of a block are written by themselves, and then the block as a whole. -/
  | whole (inner rest : Script)
  /-- The size of a block is reserved, and filled behind its items. -/
  | around (inner rest : Script)

namespace Script

/-- The calls of the writer. -/
def steps : Script → List Work.Step
  | done => []
  | write x rest => .put x.encode :: rest.steps
  | reserve x rest => .reserve x.encode :: rest.steps
  | fill i rest => .fill i :: rest.steps
  | whole inner rest => .put (sized (Work.start.run inner.steps).finish.bytes) :: rest.steps
  | around inner rest => .openBlock :: inner.steps ++ .closeBlock :: rest.steps

/-- The bytes that are written, once all slots are filled. -/
def output (s : Script) : Bytes := (Work.start.run s.steps).finish.bytes

/-- What is written. -/
def tree : Script → Tree
  | done => .done
  | write x rest | reserve x rest => .leaf x rest.tree
  | fill _ rest => rest.tree
  | whole inner rest | around inner rest => .block inner.tree rest.tree

end Script

/-! ## Reading -/

/-- What is made of a reader that has to be read to its end. -/
def Read.toEnd {α : Type} (x : Read α) (inner : Reader) (context : String) : Read α := fun r =>
  match x inner with
  | .ok a rest => if rest.isEmpty then .ok a r else .error (.malformed context) r
  | .error e _ => .error e r

/-- How items are read. -/
inductive Shape where
  | done
  | leaf (k : Scalar.Kind) (rest : Shape)
  /-- A block whose bytes are taken at once. -/
  | sized (inner rest : Shape)
  /-- A block whose size is read first, and which then has a reader of its own. -/
  | sub (inner rest : Shape)

namespace Shape

/-- The items of a shape at the front of what is left. -/
def read (context : String) : Shape → Read Tree
  | done => return .done
  | leaf k rest => do
    let x ← k.read context
    return .leaf x (← rest.read context)
  | sized inner rest => do
    let body ← Read.sized context
    let items ← (inner.read context).toEnd (.ofBytes body) context
    return .block items (← rest.read context)
  | sub inner rest => do
    let n ← Read.nat 4 context
    let r ← Read.sub n context
    let items ← (inner.read context).toEnd r context
    return .block items (← rest.read context)

/-- The shape is that of the items. -/
def Fits : Shape → Tree → Prop
  | done, .done => True
  | leaf k shape, .leaf x rest => x.kind = k ∧ shape.Fits rest
  | sized shape shape', .block inner rest | sub shape shape', .block inner rest => shape.Fits inner ∧ shape'.Fits rest
  | _, _ => False

end Shape

/-! ## What is written -/

namespace Script

open Work

/-- In the middle of whatever is written a script adds the bytes of its items, and leaves no block of its own open. -/
theorem finish_steps (s : Script) {w : Work} (h : w.Sound) :
    (w.run s.steps).finish = w.finish.append s.tree.encode ∧ (w.run s.steps).opened = w.opened := by
  induction s generalizing w with
  | done => exact ⟨(Writer.append_nil _).symm, rfl⟩
  | write x rest ih =>
    obtain ⟨hfinish, hopened⟩ := ih (h.step (.put x.encode))
    rw [finish_put h, Writer.append_append] at hfinish
    exact ⟨hfinish, hopened⟩
  | reserve x rest ih =>
    obtain ⟨hfinish, hopened⟩ := ih (h.step (.reserve x.encode))
    rw [finish_reserve h, Writer.append_append] at hfinish
    exact ⟨hfinish, hopened⟩
  | fill i rest ih =>
    obtain ⟨hfinish, hopened⟩ := ih (h.step (.fill i))
    rw [finish_fill h] at hfinish
    exact ⟨hfinish, hopened.trans (opened_fill w i)⟩
  | whole inner rest ihinner ih =>
    have houtput : (start.run inner.steps).finish.bytes = inner.tree.encode := congrArg Writer.bytes (ihinner sound_start).1
    obtain ⟨hfinish, hopened⟩ := ih (h.step (.put (sized inner.tree.encode)))
    rw [finish_put h, Writer.append_append] at hfinish
    rw [steps, houtput]
    exact ⟨hfinish, hopened⟩
  | around inner rest ihinner ih =>
    have hopen := h.step .openBlock
    have hinner := hopen.run inner.steps
    obtain ⟨hfinish, hopened⟩ := ihinner hopen
    obtain ⟨-, hclosed, hback⟩ := closes h hinner hfinish hopened
    obtain ⟨hrest, hlast⟩ := ih (hinner.step .closeBlock)
    rw [hclosed, Writer.append_append] at hrest
    rw [steps, List.cons_append, run_cons, run_append, run_cons]
    exact ⟨hrest, hlast.trans hback⟩

theorem output_eq (s : Script) : s.output = s.tree.encode := congrArg Writer.bytes (s.finish_steps sound_start).1

end Script

/-! ## What is read -/

theorem Reads.toEnd {α : Type} {x : Read α} {bs : Bytes} {a : α} (h : Reads x bs a) (context : String) :
    Reads (x.toEnd (.ofBytes bs) context) [] a := by
  intro pos rest
  have := h 0 []
  rw [List.append_nil] at this
  unfold Read.toEnd
  rw [Reader.ofBytes, this]
  rfl

theorem Reads.sub {body : Bytes} {n : Nat} (h : body.length = n) (context : String) :
    Reads (Read.sub n context) body (.ofBytes body) :=
  (Reads.bounded h context).map

theorem Shape.reads {shape : Shape} {t : Tree} (hfits : shape.Fits t) (hsmall : t.Small) (context : String) :
    Reads (shape.read context) t.encode t := by
  induction shape generalizing t with
  | done =>
    cases t with
    | done => exact .pure _
    | _ => cases hfits
  | leaf k rest ih =>
    cases t with
    | leaf x rest =>
      obtain ⟨rfl, hfits⟩ := hfits
      exact (x.reads context).bind ((ih hfits hsmall).bind_pure (.pure _))
    | _ => cases hfits
  | sized inner rest ihinner ih =>
    cases t with
    | block items rest =>
      obtain ⟨hroom, hinner, hrest⟩ := hsmall
      exact (Reads.sized hroom context).bind <| ((ihinner hfits.1 hinner).toEnd context).bind <|
        (ih hfits.2 hrest).bind_pure (.pure _)
    | _ => cases hfits
  | sub inner rest ihinner ih =>
    cases t with
    | block items rest =>
      obtain ⟨hroom, hinner, hrest⟩ := hsmall
      rw [Tree.encode, Wire.sized, List.append_assoc]
      exact (Reads.nat (w := 4) hroom context).bind <| (Reads.sub rfl context).bind <|
        ((ihinner hfits.1 hinner).toEnd context).bind <| (ih hfits.2 hrest).bind_pure (.pure _)
    | _ => cases hfits

/-! ### Blocks that are cut -/

section

variable {front body : Bytes}

/-- Of a block that is cut the size cannot be read, or it is larger than what is left. -/
theorem size_of_prefix (h : front <+: sized body) (hne : front ≠ sized body) (hroom : body.length < 2 ^ 32)
    (context : String) : (∃ e r, Read.nat 4 context (.ofBytes front) = .error e r) ∨
      ∃ r, Read.nat 4 context (.ofBytes front) = .ok body.length r ∧ r.rest.length < body.length := by
  have hlen : front.length < 4 + body.length := by
    have hle := h.length_le
    rw [length_sized] at hle
    refine Nat.lt_of_le_of_ne hle fun heq => hne (h.eq_of_length ?_)
    rw [heq, length_sized]
  rcases Nat.lt_or_ge front.length 4 with hshort | hlong
  · refine .inl ⟨.endOfInput context, .ofBytes front, ?_⟩
    exact EStateM.map_of_error (if_neg (Nat.not_le.2 hshort))
  · have hsize : leBytes 4 body.length <+: sized body := List.prefix_append ..
    obtain ⟨rest, rfl⟩ := List.prefix_of_prefix_length_le hsize h (by simpa using hlong)
    rw [List.length_append, length_leBytes] at hlen
    exact .inr ⟨_, Reads.nat (w := 4) hroom context 0 rest, show rest.length < body.length by omega⟩

theorem bounded_of_short {n : Nat} {r : Reader} (h : r.rest.length < n) (context : String) :
    Read.bounded n context r = .error (.overrun context n r.rest.length) r := if_neg (by omega)

/-- A block that is cut is not read, in either way. -/
theorem Shape.read_of_prefix (h : front <+: Wire.sized body) (hne : front ≠ Wire.sized body) (hroom : body.length < 2 ^ 32)
    (inner rest : Shape) (context : String) :
    (∃ e r, (Shape.sized inner rest).read context (.ofBytes front) = .error e r) ∧
      ∃ e r, (Shape.sub inner rest).read context (.ofBytes front) = .error e r := by
  rcases size_of_prefix h hne hroom context with ⟨e, r, hsize⟩ | ⟨r, hsize, hshort⟩
  · exact ⟨⟨e, r, EStateM.bind_of_error (EStateM.bind_of_error hsize)⟩, ⟨e, r, EStateM.bind_of_error hsize⟩⟩
  · have hbounded := bounded_of_short hshort context
    have hsized := (EStateM.bind_of_ok hsize (f := fun n => Read.bounded n context)).trans hbounded
    exact ⟨⟨_, _, EStateM.bind_of_error hsized⟩, _, _,
      (EStateM.bind_of_ok hsize).trans (EStateM.bind_of_error (EStateM.map_of_error hbounded))⟩

end

/-- Items that are written are read back by their shape, in whatever ways the blocks are written and read and whenever the
slots are filled, and nothing is left behind them. Behind the size of an open block, in the middle of whatever is
written, the size that is answered is their length. A call that fills a slot or a size only changes the zeros that were
reserved for it. No block is read from less than all its bytes. -/
theorem script_round_trip (s : Script) (hs : s.tree.Small) :
    (∀ shape : Shape, shape.Fits s.tree → ∀ context,
      shape.read context (.ofBytes s.output) = .ok s.tree ⟨s.output.length, []⟩) ∧
    (∀ before, (((Work.start.run before).step .openBlock).run s.steps).size? = some s.output.length) ∧
    (∀ before call slot, (Work.start.run before).patch? call = some slot →
      slot.Fills (Work.start.run before).writer ((Work.start.run before).step call).writer) ∧
    (∀ inner, s = .whole inner .done ∨ s = .around inner .done → ∀ front, front <+: s.output → front ≠ s.output →
      ∀ shape context, (∃ e r, (Shape.sized shape .done).read context (.ofBytes front) = .error e r) ∧
        ∃ e r, (Shape.sub shape .done).read context (.ofBytes front) = .error e r) := by
  refine ⟨fun shape hfits context => ?_, fun before => ?_, fun before call slot hslot => ?_, ?_⟩
  · have hreads := Shape.reads hfits hs context 0 []
    rw [List.append_nil, ← s.output_eq, Nat.zero_add] at hreads
    exact hreads
  · have hsound := Work.sound_start.run before
    have hopen := hsound.step .openBlock
    obtain ⟨hfinish, hopened⟩ := s.finish_steps hopen
    rw [(Work.closes hsound (hopen.run s.steps) hfinish hopened).1, s.output_eq]
  · exact (Work.sound_start.run before).fills hslot
  · intro inner hblock front hfront hne shape context
    have houtput : s.output = sized inner.tree.encode ∧ inner.tree.encode.length < 2 ^ 32 := by
      rcases hblock with rfl | rfl
      all_goals
        rw [Script.output_eq]
        exact ⟨List.append_nil _, hs.1⟩
    rw [houtput.1] at hfront hne
    exact Shape.read_of_prefix hfront hne houtput.2 shape .done context

/-- A block of a number in a slot, a byte and a block by itself; the slot is filled behind them. -/
def slottedBlock : Script :=
  .around (.reserve (.u32 7) (.write (.byte 1) (.whole (.write (.raw [4, 5, 6]) .done) (.fill 0 .done)))) .done

def slottedShape : Shape := .sub (.leaf .u32 (.leaf .byte (.sized (.leaf (.raw 3) .done) .done))) .done

theorem script_round_trip_slottedBlock :
    slottedBlock.tree.Small ∧
    slottedShape.read "block" (.ofBytes slottedBlock.output) = .ok slottedBlock.tree ⟨slottedBlock.output.length, []⟩ ∧
    (((Work.start.run [.put [9], .openBlock]).step .openBlock).run slottedBlock.steps).size? = some 16 ∧
    Slot.Fills ⟨1, [8]⟩ ⟨[9, 0, 3]⟩ ⟨[9, 8, 3]⟩ ∧
    (∃ e r, slottedShape.read "block" (.ofBytes (slottedBlock.output.take 15)) = .error e r) := by
  have hsmall : slottedBlock.tree.Small := ⟨by decide, ⟨by decide, trivial, trivial⟩, trivial⟩
  have hfits : slottedShape.Fits slottedBlock.tree := ⟨⟨rfl, rfl, ⟨rfl, trivial⟩, trivial⟩, trivial⟩
  obtain ⟨hread, hsize, hfill, hcut⟩ := script_round_trip slottedBlock hsmall
  refine ⟨hsmall, hread _ hfits _, hsize [.put [9], .openBlock], ?_, ?_⟩
  · exact hfill [.put [9], .reserve [8], .put [3]] (.fill 0) ⟨1, [8]⟩ rfl
  · exact (hcut _ (.inr rfl) _ (List.take_prefix 15 _) (by decide) _ _).2

end NodeStore.Wire
