import NodeStore.Proofs.Query.Evaluation

/-!
# Filter blocks are evaluated to an end

The evaluator is a loop over the items of a part of a block, and calls itself for what stands in an item. Here it is
laid open as a machine that keeps the calls under way on a stack and takes one step after the other, whatever the bytes
are and however the links of the store run. A call that an item makes is about a shorter block, or about the same block
from a later position on, and the loop of a call only goes forward: so the machine comes to an end, with the answer of
`holdsFrom`.

* `Visit` and `Activity`: a call, and what it is about to do; `Visit.round` is one round of its loop.
* `Machine` and `Machine.step`: the stack of calls; `Machine.run` takes some steps, `Reaches` any number.
* `Activity.Forward`: whatever the answers of inner calls are, these calls lead inside and the loop leads forward;
  `Visit.forward_round` holds of each round.
* `reaches_answer`: a call comes to its answer. `Machine.Ordered`: what every machine on the way satisfies.
* `evaluation_ends`: all of it, on any part of any block.
-/

namespace NodeStore.Engine

open Query (Item Condition)

/-! ## Calls and what they do -/

/-- A call of the evaluator: the items between two positions of a block, asked of a subject. -/
structure Visit where
  subject : Subject
  block : Bytes
  start : Nat
  stop : Nat

/-- What a call is about to do. A fault that an inner call ends with ends the call as well. -/
inductive Activity where
  | answer (result : Except Fault Bool)
  /-- To begin the round of the item at a position. -/
  | look (pos : Nat)
  /-- To make an inner call, and to go on by its answer. -/
  | visit (c : Visit) (next : Bool → Activity)

/-- Asks one subject after the other for a whole block, until it holds of one. -/
def Activity.visitAny (body : Bytes) (next : Nat) : List Subject → Activity
  | [] => .answer (.ok false)
  | t :: ts => .visit ⟨t, body, 0, body.length⟩ fun hit => if hit then .look next else visitAny body next ts

namespace Visit

variable (schema : SchemaLayout) (store : Store)

/-- What a call does with an item; `next` is the position behind what was read of it. -/
def item (c : Visit) (next : Nat) : Item → Activity
  | .condition cond =>
    match cond.holds c.subject.id c.subject.node with
    | .error e => .answer (.error e)
    | .ok hit => if hit then .look next else .answer (.ok false)
  | .either jump size =>
    if jump < next then .answer (.error .jumpBackwards)
    else
      let behind : Activity :=
        if c.stop < jump + size then .answer (.error (.wire (.endOfInput "or items"))) else .look (jump + size)
      .visit ⟨c.subject, c.block, next, jump⟩ fun left =>
        if left then behind
        else .visit ⟨c.subject, c.block, jump, jump + size⟩ fun right => if right then behind else .answer (.ok false)
  | .link one slot body =>
    let links := c.subject.node.links slot
    match linkedSubjects schema store c.subject.layout slot (if one then links.take 1 else links) with
    | .error e => .answer (.error e)
    | .ok linked => .visitAny body next linked
  | .edge body =>
    match c.subject.edge with
    | none => .answer (.ok false)
    | some (t, n) =>
      .visit ⟨.ofEdge t n, body, 0, body.length⟩ fun hit => if hit then .look next else .answer (.ok false)

/-- One round of the loop of a call, at the item at a position. -/
def round (c : Visit) (pos : Nat) : Activity :=
  if c.block.length < c.stop ∨ c.stop < pos then .answer (.error .jumpRange)
  else if pos = c.stop then .answer (.ok true)
  else
    match Item.read (.ofBytes ((c.block.take c.stop).drop pos)) with
    | .error e _ => .answer (.error (.wire e))
    | .ok i r => c.item schema store (pos + r.pos) i

/-- The bytes of the block from the start of the call on. -/
def room (c : Visit) : Nat := c.block.length - c.start

/-- A call about a shorter block, or about the same block from a later position on. -/
def Inside (inner outer : Visit) : Prop :=
  inner.block.length < outer.block.length ∨ inner.block = outer.block ∧ outer.start < inner.start

end Visit

/-! ## The machine -/

/-- A call that waits for the answer of the call that it made. -/
structure Waiting where
  call : Visit
  pos : Nat
  next : Bool → Activity

/-- The innermost call, where its round began and what it is about to do, with the calls that wait. -/
structure Machine where
  call : Visit
  pos : Nat
  now : Activity
  waiting : List Waiting

namespace Machine

variable (schema : SchemaLayout) (store : Store)

/-- A call begins with the round of its first item. -/
def enter (c : Visit) (waiting : List Waiting) : Machine := ⟨c, c.start, c.round schema store c.start, waiting⟩

/-- One step. A machine whose outermost call has an answer stands still. -/
def step : Machine → Machine
  | ⟨c, _, .look pos, ws⟩ => ⟨c, pos, c.round schema store pos, ws⟩
  | ⟨c, pos, .visit inner next, ws⟩ => enter schema store inner (⟨c, pos, next⟩ :: ws)
  | ⟨_, _, .answer (.ok b), w :: ws⟩ => ⟨w.call, w.pos, w.next b, ws⟩
  | ⟨_, _, .answer (.error e), w :: ws⟩ => ⟨w.call, w.pos, .answer (.error e), ws⟩
  | ⟨c, pos, .answer x, []⟩ => ⟨c, pos, .answer x, []⟩

/-- Some steps. -/
def run : Nat → Machine → Machine
  | 0, m => m
  | n + 1, m => run n (m.step schema store)

/-- The answer of the outermost call, once it is there. -/
def answer? : Machine → Option (Except Fault Bool)
  | ⟨_, _, .answer x, []⟩ => some x
  | _ => none

variable {schema store}

theorem run_add (a b : Nat) (m : Machine) : run schema store (a + b) m = run schema store b (run schema store a m) := by
  induction a generalizing m with
  | zero => rw [Nat.zero_add, run]
  | succ a ih => rw [Nat.succ_add, run, run, ih]

end Machine

variable {schema : SchemaLayout} {store : Store}

/-- Some number of steps leads from one machine to another. -/
def Reaches (schema : SchemaLayout) (store : Store) (m m' : Machine) : Prop := ∃ n, m.run schema store n = m'

namespace Reaches

variable {m m' m'' : Machine}

theorem refl (m : Machine) : Reaches schema store m m := ⟨0, rfl⟩

theorem trans : Reaches schema store m m' → Reaches schema store m' m'' → Reaches schema store m m''
  | ⟨a, ha⟩, ⟨b, hb⟩ => ⟨a + b, by rw [Machine.run_add, ha, hb]⟩

theorem of_step (h : Reaches schema store (m.step schema store) m') : Reaches schema store m m' := trans ⟨1, rfl⟩ h

end Reaches

/-! ## Rounds lead forward -/

namespace Activity

/-- Whatever inner calls answer, they are inside the call and have fewer bytes before them than there are behind the
position, and the next round is about a later item. -/
def Forward (c : Visit) (pos : Nat) : Activity → Prop
  | answer _ => True
  | look next => pos < next ∧ next ≤ c.stop ∧ c.stop ≤ c.block.length
  | visit inner next => inner.Inside c ∧ inner.room < c.block.length - pos ∧ ∀ b, (next b).Forward c pos

variable {c : Visit} {pos next : Nat}

theorem forward_visitAny {body : Bytes} (hbody : pos + body.length < next) (hnext : next ≤ c.stop)
    (hstop : c.stop ≤ c.block.length) (ts : List Subject) : (visitAny body next ts).Forward c pos := by
  induction ts with
  | nil => trivial
  | cons t ts ih =>
    refine ⟨.inl (show body.length < c.block.length by omega), ?_, fun hit => ?_⟩
    · rw [Visit.room]
      dsimp only
      omega
    · cases hit with
      | false => exact ih
      | true => exact ⟨by omega, hnext, hstop⟩

end Activity

namespace Visit

variable {c : Visit} {pos next : Nat}

/-- What is nested in an item is shorter than the item, and the sides of a disjunction stand behind its header. -/
theorem forward_item (hstart : c.start ≤ pos) (i : Item) (hread : pos + (1 + i.nested) ≤ next) (hnext : next ≤ c.stop)
    (hstop : c.stop ≤ c.block.length) : (c.item schema store next i).Forward c pos := by
  have hlook : (Activity.look next).Forward c pos := ⟨by omega, hnext, hstop⟩
  cases i with
  | condition cond =>
    dsimp only [item]
    cases cond.holds c.subject.id c.subject.node with
    | error e => trivial
    | ok hit => cases hit with
      | false => trivial
      | true => exact hlook
  | either jump size =>
    dsimp only [item]
    split
    · trivial
    · rename_i hjump
      -- Both sides start behind the header, wherever they end.
      have hroom : ∀ start stop, next ≤ start → (Visit.mk c.subject c.block start stop).room < c.block.length - pos :=
        fun start stop h => show c.block.length - start < c.block.length - pos by omega
      have hinside : ∀ start stop, next ≤ start → Inside ⟨c.subject, c.block, start, stop⟩ c :=
        fun start stop h => .inr ⟨rfl, show c.start < start by omega⟩
      have hbehind : Activity.Forward c pos
          (if c.stop < jump + size then .answer (.error (.wire (.endOfInput "or items"))) else .look (jump + size)) := by
        split
        · trivial
        · exact ⟨by omega, by omega, hstop⟩
      refine ⟨hinside _ _ (Nat.le_refl _), hroom _ _ (Nat.le_refl _), fun left => ?_⟩
      cases left with
      | true => exact hbehind
      | false =>
        refine ⟨hinside _ _ (by omega), hroom _ _ (by omega), fun right => ?_⟩
        cases right with
        | true => exact hbehind
        | false => trivial
  | link one slot body =>
    dsimp only [item]
    rw [Item.nested] at hread
    split
    · trivial
    · exact Activity.forward_visitAny (by omega) hnext hstop _
  | edge body =>
    dsimp only [item]
    rw [Item.nested] at hread
    split
    · trivial
    · refine ⟨.inl (show body.length < c.block.length by omega), ?_, fun hit => ?_⟩
      · show body.length - 0 < c.block.length - pos
        omega
      · cases hit with
        | false => trivial
        | true => exact hlook

/-- What a round does leads inside or forward. -/
theorem forward_round (hstart : c.start ≤ pos) : (c.round schema store pos).Forward c pos := by
  unfold round
  split
  · trivial
  · split
    · trivial
    · split
      · trivial
      · rename_i i r hread
        have htakes := Item.takes_read _ _ _ hread
        simp only [Wire.Reader.ofBytes, List.length_drop, List.length_take] at htakes
        exact forward_item hstart i (by omega) (by omega) (by omega)

end Visit

/-! ## Rounds and the evaluator -/

/-- The answer that an activity of a call comes to where the evaluator answers inner calls. -/
def Activity.value (schema : SchemaLayout) (store : Store) (c : Visit) : Activity → Except Fault Bool
  | answer x => x
  | look pos => holdsFrom schema store c.subject c.block pos c.stop
  | visit inner next => do
    let b ← holdsFrom schema store inner.subject inner.block inner.start inner.stop
    (next b).value schema store c

namespace Activity

variable {c : Visit} {next : Nat}

theorem value_visitAny (body : Bytes) (ts : List Subject) :
    (visitAny body next ts).value schema store c =
      Query.bothHold (anySubject (fun t => holdsFrom schema store t body 0 body.length) ts)
        (holdsFrom schema store c.subject c.block next c.stop) := by
  induction ts with
  | nil => rfl
  | cons t ts ih =>
    rw [visitAny, value, anySubject, Query.bothHold, bind_assoc]
    congr 1
    funext hit
    cases hit with
    | false => exact ih
    | true => rfl

theorem value_item (i : Item) : (c.item schema store next i).value schema store c =
    Query.afterItem schema store c.subject c.block c.stop next i := by
  cases i with
  | condition cond =>
    dsimp only [Visit.item, Query.afterItem]
    cases cond.holds c.subject.id c.subject.node with
    | error e => rfl
    | ok hit => cases hit <;> rfl
  | either jump size =>
    dsimp only [Visit.item, Query.afterItem]
    split
    · rfl
    · have hbehind : value schema store c
          (if c.stop < jump + size then .answer (.error (.wire (.endOfInput "or items"))) else .look (jump + size)) =
          if c.stop < jump + size then .error (.wire (.endOfInput "or items"))
          else holdsFrom schema store c.subject c.block (jump + size) c.stop := by
        split <;> rfl
      rw [value]
      congr 1
      funext left
      cases left with
      | true => exact hbehind
      | false =>
        refine congrArg (holdsFrom schema store c.subject c.block jump (jump + size) >>= ·) (funext fun right => ?_)
        cases right with
        | false => rfl
        | true => exact hbehind
  | link one slot body =>
    dsimp only [Visit.item, Query.afterItem]
    split
    · rename_i hlinked
      rw [hlinked]
      rfl
    · rename_i linked hlinked
      rw [hlinked, value_visitAny]
      rfl
  | edge body =>
    dsimp only [Visit.item, Query.afterItem]
    cases c.subject.edge with
    | none => rfl
    | some x =>
      refine congrArg (holdsFrom schema store (.ofEdge x.1 x.2) body 0 body.length >>= ·) (funext fun hit => ?_)
      cases hit <;> rfl

/-- A round comes to what the evaluator has from its position on. -/
theorem value_round (c : Visit) (pos : Nat) : (c.round schema store pos).value schema store c =
    holdsFrom schema store c.subject c.block pos c.stop := by
  unfold Visit.round
  split
  · rename_i hrange
    rw [holdsFrom, dif_pos hrange, value]
  · split
    · rename_i hrange hend
      rw [holdsFrom, dif_neg hrange, dif_pos hend, value]
    · rename_i hrange hend
      split
      · rename_i e r hread
        rw [holdsFrom, dif_neg hrange, dif_neg hend]
        split <;> rename_i hx <;> rw [hread] at hx <;> cases hx
        rfl
      · rename_i i r hread
        rw [value_item, Query.holdsFrom_read (by omega) (by omega) hread]

end Activity

/-! ## The end -/

/-- A call that looks at an item comes to the answer that the evaluator has from there on. -/
theorem reaches_answer (c : Visit) (pos : Nat) (hstart : c.start ≤ pos) (ws : List Waiting) :
    ∃ last, Reaches schema store ⟨c, pos, c.round schema store pos, ws⟩
      ⟨c, last, .answer (holdsFrom schema store c.subject c.block pos c.stop), ws⟩ := by
  -- The bytes behind the position decrease with each round and with each inner call.
  induction hn : c.block.length - pos using Nat.strongRecOn generalizing c pos ws with
  | ind n ih =>
    have hactivity : ∀ a : Activity, a.Forward c pos → ∃ last, Reaches schema store ⟨c, pos, a, ws⟩
        ⟨c, last, .answer (a.value schema store c), ws⟩ := by
      intro a ha
      induction a with
      | answer x => exact ⟨pos, .refl _⟩
      | look next =>
        obtain ⟨hnext, hstop, hblock⟩ := ha
        obtain ⟨last, hreaches⟩ := ih _ (by omega) c next (by omega) ws rfl
        exact ⟨last, hreaches.of_step⟩
      | visit inner next ihnext =>
        obtain ⟨-, hroom, hnext⟩ := ha
        obtain ⟨last, hinner⟩ := ih _ (hn ▸ hroom) inner inner.start (Nat.le_refl _) (⟨c, pos, next⟩ :: ws) rfl
        rw [Activity.value]
        cases hanswer : holdsFrom schema store inner.subject inner.block inner.start inner.stop with
        | error e =>
          rw [hanswer] at hinner
          exact ⟨pos, .of_step (hinner.trans (.of_step (.refl _)))⟩
        | ok b =>
          rw [hanswer] at hinner
          obtain ⟨last, hrest⟩ := ihnext b (hnext b)
          exact ⟨last, .of_step (hinner.trans (.of_step hrest))⟩
    have hround := hactivity (c.round schema store pos) (Visit.forward_round hstart)
    rwa [Activity.value_round] at hround

/-! ## On the way -/

/-- The calls under way have the more bytes before them the further out they are, the outermost one `room` many. -/
def Stacked (room : Nat) : Visit → List Waiting → Prop
  | c, [] => c.room ≤ room
  | c, w :: ws => ws.length + 1 + c.room ≤ room ∧ Stacked room w.call ws

namespace Stacked

variable {room : Nat} {c : Visit} {ws : List Waiting}

theorem le (h : Stacked room c ws) : ws.length + c.room ≤ room := by
  cases ws with
  | nil => simpa [Stacked] using h
  | cons w ws => exact h.1

theorem push (h : Stacked room c ws) {inner : Visit} (hinner : inner.room < c.room) (pos : Nat) (next : Bool → Activity) :
    Stacked room inner (⟨c, pos, next⟩ :: ws) := by
  have := h.le
  exact ⟨by omega, h⟩

end Stacked

/-- What every machine on the way satisfies: whatever is still to be done leads inside or forward. -/
structure Machine.Ordered (room : Nat) (m : Machine) : Prop where
  start_le : m.call.start ≤ m.pos
  forward : m.now.Forward m.call m.pos
  waiting : ∀ w ∈ m.waiting, w.call.start ≤ w.pos ∧ ∀ b, (w.next b).Forward w.call w.pos
  stacked : Stacked room m.call m.waiting

namespace Machine.Ordered

variable {room : Nat} {m : Machine}

theorem enter {c : Visit} {ws : List Waiting}
    (hws : ∀ w ∈ ws, w.call.start ≤ w.pos ∧ ∀ b, (w.next b).Forward w.call w.pos) (h : Stacked room c ws) :
    (Machine.enter schema store c ws).Ordered room :=
  ⟨Nat.le_refl _, Visit.forward_round (Nat.le_refl _), hws, h⟩

theorem start (schema : SchemaLayout) (store : Store) (c : Visit) : (Machine.enter schema store c []).Ordered c.room :=
  enter (fun _ hw => absurd hw List.not_mem_nil) (show c.room ≤ c.room from Nat.le_refl _)

theorem step (h : m.Ordered room) : (m.step schema store).Ordered room := by
  obtain ⟨c, pos, now, ws⟩ := m
  obtain ⟨hstart, hforward, hws, hstacked⟩ := h
  dsimp only at hstart hforward hws hstacked
  cases now with
  | look next =>
    have hnext : c.start ≤ next := by
      have := hforward.1
      omega
    exact ⟨hnext, Visit.forward_round hnext, hws, hstacked⟩
  | visit inner next =>
    obtain ⟨-, hroom, hnext⟩ := hforward
    have hinner : inner.room < c.room := by
      rw [Visit.room.eq_def c]
      omega
    refine .enter (fun w hw => ?_) (hstacked.push hinner pos next)
    rcases List.mem_cons.1 hw with rfl | hw
    · exact ⟨hstart, hnext⟩
    · exact hws w hw
  | answer x =>
    cases ws with
    | nil => cases x <;> exact ⟨hstart, trivial, hws, hstacked⟩
    | cons w ws =>
      obtain ⟨hwait, hnext⟩ := hws w List.mem_cons_self
      have hrest := fun w' hw' => hws w' (List.mem_cons_of_mem _ hw')
      cases x with
      | error e => exact ⟨hwait, trivial, hrest, hstacked.2⟩
      | ok b => exact ⟨hwait, hnext b, hrest, hstacked.2⟩

theorem run (h : m.Ordered room) (n : Nat) : (m.run schema store n).Ordered room := by
  induction n generalizing m with
  | zero => exact h
  | succ n ih => exact ih h.step

end Machine.Ordered

/-! ## Lists of contents -/

/-- A round of the loop over the contents of an operand takes the length of one at least: what is left to read bounds
the rounds, whatever number is announced. -/
theorem anyWanted_eq (candidates : List Bytes) {n m : Nat} {r : Wire.Reader} (hn : r.rest.length / 4 < n)
    (hm : r.rest.length / 4 < m) : Condition.anyWanted candidates n r = Condition.anyWanted candidates m r := by
  induction n generalizing m r with
  | zero => omega
  | succ n ih =>
    obtain ⟨m, rfl⟩ : ∃ k, m = k + 1 := ⟨m - 1, by omega⟩
    rw [Condition.anyWanted, Condition.anyWanted]
    cases hread : Wire.Read.sized "value" r with
    | error e r' => rw [EStateM.bind_of_error hread, EStateM.bind_of_error hread]
    | ok wanted r' =>
      have htakes := Wire.Takes.sized "value" _ _ _ hread
      dsimp only at htakes
      rw [EStateM.bind_of_ok hread, EStateM.bind_of_ok hread]
      split
      · rfl
      · exact ih (by omega) (by omega)

/-- The evaluation of any part of any block comes to an end, with the answer of the evaluator. On the way the loop of a
call only begins rounds at later positions, inner calls are about shorter blocks or about the same block from a later
position on, and never more calls wait than the block has bytes. The loop over the contents of an operand has no more
rounds than there are lengths to read. -/
theorem evaluation_ends (schema : SchemaLayout) (store : Store) (c : Visit) :
    (∃ n, ((Machine.enter schema store c []).run schema store n).answer? =
      some (holdsFrom schema store c.subject c.block c.start c.stop)) ∧
    (∀ n m, (Machine.enter schema store c []).run schema store n = m →
      (∀ next, m.now = .look next → m.pos < next ∧ next ≤ m.call.stop) ∧
      (∀ inner next, m.now = .visit inner next → inner.block.length < m.call.block.length ∨
        inner.block = m.call.block ∧ m.call.start < inner.start) ∧
      m.waiting.length ≤ c.block.length - c.start) ∧
    (∀ candidates n r, r.rest.length / 4 < n →
      Condition.anyWanted candidates n r = Condition.anyWanted candidates (r.rest.length / 4 + 1) r) := by
  refine ⟨?_, ?_, fun candidates n r hn => anyWanted_eq candidates hn (Nat.lt_succ_self _)⟩
  · obtain ⟨last, n, hrun⟩ : ∃ last, Reaches schema store (.enter schema store c []) _ :=
      reaches_answer c c.start (Nat.le_refl _) []
    refine ⟨n, ?_⟩
    rw [hrun]
    rfl
  · rintro n m rfl
    have hordered : ((Machine.enter schema store c []).run schema store n).Ordered c.room :=
      (Machine.Ordered.start schema store c).run n
    have hforward := hordered.forward
    refine ⟨fun next hnow => ?_, fun inner next hnow => ?_, ?_⟩
    · rw [hnow] at hforward
      exact ⟨hforward.1, hforward.2.1⟩
    · rw [hnow] at hforward
      exact hforward.1
    · have := hordered.stacked.le
      rw [Visit.room.eq_def c] at this
      omega

end NodeStore.Engine
