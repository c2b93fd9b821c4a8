import NodeStore.Engine.Match
import NodeStore.Proofs.Inversion
import NodeStore.Proofs.Wire.RoundTrip

/-!
# Evaluating encoded blocks

The engine evaluates the bytes of a block as the clauses that they encode: jumps lead where the right items of a
disjunction start, at any depth, and the evaluation of one block never reads behind it.

* `Clause.eval`, `Clause.evalAll`: the clauses themselves as tests of a subject.
* `Decides`: a test that succeeds, and what it tells.
* `Condition.WellFormed`: a comparison that is known, and a place that has room in its bytes; `Clause.EachOf` asks for a
  property of all conditions.
* `holdsFrom_item`: the evaluation of one item and what follows it; `holdsFrom_clauses`: that of clauses.
* `passes_encodeBlock`: evaluating the bytes of a block is evaluating its clauses.
-/

namespace NodeStore.Query

open Wire

/-! ## Reading conditions and items -/

/-- The comparison has a code of its own, and the place has room in its bytes. -/
structure Condition.WellFormed (c : Condition) : Prop where
  known : ∀ code, c.comparison ≠ .unknown code
  start : c.start < 2 ^ 32
  width : c.width < 2 ^ 16

/-- The parts of an encoded condition one by one. -/
theorem Condition.encode_eq (c : Condition) : c.encode =
    [if c.negate then c.comparison.code ||| negateFlag else c.comparison.code] ++ ([c.slot] ++ ([c.type.tag] ++
      (leBytes 4 c.start ++ (leBytes 2 c.width ++ ([c.locale] ++ sized c.operand))))) := by
  simp only [Condition.encode, List.append_assoc, List.cons_append, List.nil_append]

/-- The code of a comparison and its flag can be told apart. -/
theorem Comparison.ofCode_code {comparison : Comparison} (h : ∀ code, comparison ≠ .unknown code) (negate : Bool) :
    let code := if negate then comparison.code ||| Condition.negateFlag else comparison.code
    Comparison.ofCode (code &&& ~~~Condition.negateFlag) = comparison ∧
      decide (code &&& Condition.negateFlag ≠ 0) = negate := by
  cases negate <;> cases comparison <;> first
    | exact absurd rfl (h _)
    | decide

theorem Condition.reads {c : Condition} (h : c.WellFormed) (hsize : c.operand.length < 2 ^ 32) :
    Reads Condition.read c.encode c := by
  rw [Condition.encode_eq]
  refine (Reads.byte _ _).bind <| (Reads.byte _ _).bind <| (Reads.propType _ _).bind <|
    (Reads.nat (w := 4) h.start _).bind <| (Reads.nat (w := 2) h.width _).bind <|
    (Reads.byte _ _).bind <| (Reads.sized hsize _).bind_pure ?_
  obtain ⟨hcomparison, hnegate⟩ := Comparison.ofCode_code h.known c.negate
  rw [hcomparison, hnegate]
  exact .pure _

namespace Item

theorem reads_condition {c : Condition} (h : c.WellFormed) (hsize : c.operand.length < 2 ^ 32) :
    Reads Item.read (Clause.opCondition :: c.encode) (.condition c) := by
  refine (Reads.byte _ Clause.opCondition).bind ?_
  rw [if_pos rfl]
  exact (Condition.reads h hsize).bind_pure (.pure _)

theorem reads_either {jump size : Nat} (hj : jump < 2 ^ 32) (hs : size < 2 ^ 32) :
    Reads Item.read (Clause.opEither :: leBytes 4 jump ++ leBytes 4 size) (.either jump size) := by
  refine (Reads.byte _ Clause.opEither).bind ?_
  rw [if_neg (by decide), if_pos rfl]
  exact (Reads.nat (w := 4) hj _).bind <| (Reads.nat (w := 4) hs _).bind_pure (.pure _)

theorem reads_link {one : Bool} {slot : UInt8} {type : TypeId} {body : Bytes} (h : body.length < 2 ^ 32) :
    Reads Item.read ((if one then Clause.opLink else Clause.opLinks) :: slot :: leBytes 2 type.toNat ++ sized body)
      (.link one slot body) := by
  refine (Reads.byte _ (if one then Clause.opLink else Clause.opLinks)).bind ?_
  rw [if_neg (by cases one <;> decide), if_neg (by cases one <;> decide), if_pos (by cases one <;> simp)]
  refine (Reads.byte _ slot).bind <| (Reads.u16 type _).bind <| (Reads.sized h _).bind_pure ?_
  cases one <;> exact .pure _

theorem reads_edge {body : Bytes} (h : body.length < 2 ^ 32) :
    Reads Item.read (Clause.opEdge :: sized body) (.edge body) := by
  refine (Reads.byte _ Clause.opEdge).bind ?_
  rw [if_neg (by decide), if_neg (by decide), if_neg (by decide), if_pos rfl]
  exact (Reads.sized h _).bind_pure (.pure _)

end Item

/-! ## Evaluating clauses -/

open Engine

/-- The second test is made where the first one holds. -/
def bothHold (x y : Except Fault Bool) : Except Fault Bool := do if ← x then y else return false

/-- The second test is made where the first one does not hold. -/
def oneHolds (x y : Except Fault Bool) : Except Fault Bool := do if ← x then return true else y

/-- A test succeeds, and says whether something holds. -/
def Decides (x : Except Fault Bool) (P : Prop) : Prop := ∃ b, x = .ok b ∧ (b = true ↔ P)

namespace Decides

variable {x y : Except Fault Bool} {P Q : Prop}

theorem congr (h : Decides x P) (hpq : P ↔ Q) : Decides x Q := by
  obtain ⟨b, hx, hb⟩ := h
  exact ⟨b, hx, hb.trans hpq⟩

/-- The result alone tells whether it holds. -/
theorem iff (h : Decides x P) : x = .ok true ↔ P := by
  obtain ⟨b, rfl, hb⟩ := h
  rw [← hb, Except.ok.injEq]

theorem self (h : Decides x P) : Decides x (x = .ok true) := h.congr h.iff.symm

theorem both (hx : Decides x P) (hy : Decides y Q) : Decides (bothHold x y) (P ∧ Q) := by
  obtain ⟨a, rfl, ha⟩ := hx
  obtain ⟨b, rfl, hb⟩ := hy
  cases a with
  | true => exact ⟨b, rfl, by simp [← ha, hb]⟩
  | false => exact ⟨false, rfl, by simp [← ha]⟩

theorem one (hx : Decides x P) (hy : Decides y Q) : Decides (oneHolds x y) (P ∨ Q) := by
  obtain ⟨a, rfl, ha⟩ := hx
  obtain ⟨b, rfl, hb⟩ := hy
  cases a with
  | true => exact ⟨true, rfl, by simp [← ha]⟩
  | false => exact ⟨b, rfl, by simp [← ha, hb]⟩

theorem any {test : Subject → Except Fault Bool} {P : Subject → Prop} {xs : List Subject}
    (h : ∀ x ∈ xs, Decides (test x) (P x)) : Decides (anySubject test xs) (∃ x ∈ xs, P x) := by
  induction xs with
  | nil => exact ⟨false, rfl, by simp⟩
  | cons x xs ih =>
    have hrest := ih fun y hy => h y (List.mem_cons_of_mem _ hy)
    exact ((h x List.mem_cons_self).one hrest).congr (by simp)

end Decides

section

variable (schema : SchemaLayout) (store : Store)

mutual

/-- Does a clause hold of a subject? -/
def Clause.eval (s : Subject) : Clause → Except Fault Bool
  | .condition c => c.holds s.id s.node
  | .link one slot _ body => do
    let links := s.node.links slot
    let linked ← linkedSubjects schema store s.layout slot (if one then links.take 1 else links)
    anySubject (fun t => Clause.evalAll t body) linked
  | .edge body =>
    match s.edge with
    | none => .ok false
    | some (t, n) => Clause.evalAll (.ofEdge t n) body
  | .either left right => oneHolds (Clause.evalAll s left) (Clause.evalAll s right)

/-- Do all clauses hold of a subject? Those behind the first one that does not are not evaluated. -/
def Clause.evalAll (s : Subject) : List Clause → Except Fault Bool
  | [] => .ok true
  | c :: cs => bothHold (Clause.eval s c) (Clause.evalAll s cs)

end

end

namespace Clause

variable {schema : SchemaLayout} {store : Store} {x : Subject} {as bs : List Clause} {P Q : Prop}

theorem evalAll_append : evalAll schema store x (as ++ bs) =
    bothHold (evalAll schema store x as) (evalAll schema store x bs) := by
  induction as with
  | nil => rfl
  | cons a as ih =>
    rw [List.cons_append, evalAll, evalAll, ih]
    cases eval schema store x a with
    | error e => rfl
    | ok b => cases b <;> rfl

theorem decides_append (ha : Decides (evalAll schema store x as) P) (hb : Decides (evalAll schema store x bs) Q) :
    Decides (evalAll schema store x (as ++ bs)) (P ∧ Q) :=
  evalAll_append ▸ ha.both hb

theorem decides_all {P : Clause → Prop} (h : ∀ c ∈ as, Decides (eval schema store x c) (P c)) :
    Decides (evalAll schema store x as) (∀ c ∈ as, P c) := by
  induction as with
  | nil => exact ⟨true, rfl, by simp⟩
  | cons a as ih =>
    have hrest := ih fun c hc => h c (List.mem_cons_of_mem _ hc)
    exact ((h a List.mem_cons_self).both hrest).congr (by simp)

end Clause

mutual

/-- All conditions of a clause have a property. -/
def Clause.Each (P : Condition → Prop) : Clause → Prop
  | .condition c => P c
  | .link _ _ _ body | .edge body => Clause.EachOf P body
  | .either left right => Clause.EachOf P left ∧ Clause.EachOf P right

def Clause.EachOf (P : Condition → Prop) : List Clause → Prop
  | [] => True
  | c :: cs => Clause.Each P c ∧ Clause.EachOf P cs

end

namespace Clause

variable {P : Condition → Prop}

theorem eachOf_append {as bs : List Clause} : EachOf P (as ++ bs) ↔ EachOf P as ∧ EachOf P bs := by
  induction as with
  | nil => exact ⟨fun h => ⟨trivial, h⟩, fun h => h.2⟩
  | cons a as ih => exact ⟨fun h => ⟨⟨h.1, (ih.1 h.2).1⟩, (ih.1 h.2).2⟩, fun h => ⟨h.1.1, ih.2 ⟨h.1.2, h.2⟩⟩⟩

theorem eachOf_conditions {cs : List Condition} : EachOf P (cs.map .condition) ↔ ∀ c ∈ cs, P c := by
  induction cs with
  | nil => exact ⟨fun _ => nofun, fun _ => trivial⟩
  | cons c cs ih =>
    rw [List.forall_mem_cons, ← ih]
    exact Iff.rfl

mutual

/-- No operand is longer than the block that it stands in. -/
theorem each_of_length (c : Clause) (pos : Nat) {n : Nat} (h : (c.encode pos).length < n) : c.Each (·.operand.length < n) :=
  match c with
  | .condition c => by
    simp only [encode, List.length_cons, Condition.encode_eq, List.length_append, length_sized] at h
    change c.operand.length < n
    omega
  | .link one slot type body => by
    simp only [encode, List.length_cons, List.length_append, length_sized] at h
    exact eachOf_of_length body 0 (by omega)
  | .edge body => by
    simp only [encode, List.length_cons, length_sized] at h
    exact eachOf_of_length body 0 (by omega)
  | .either left right => by
    simp only [encode, List.length_append] at h
    generalize pos + eitherHeader + (encodeFrom (pos + eitherHeader) left).length = jump at h
    exact ⟨eachOf_of_length left (pos + eitherHeader) (by omega), eachOf_of_length right jump (by omega)⟩

theorem eachOf_of_length (cs : List Clause) (pos : Nat) {n : Nat} (h : (encodeFrom pos cs).length < n) :
    EachOf (·.operand.length < n) cs :=
  match cs with
  | [] => trivial
  | c :: cs => by
    simp only [encodeFrom, List.length_append] at h
    exact ⟨each_of_length c pos (by omega), eachOf_of_length cs (pos + (encode pos c).length) (by omega)⟩

end

end Clause

/-! ## Bytes within a block -/

/-- A block with some bytes at a position. -/
def Stands (block : Bytes) (pos : Nat) (bs : Bytes) : Prop := ∃ front back, block = front ++ bs ++ back ∧ front.length = pos

namespace Stands

variable {block bs cs : Bytes} {pos : Nat}

theorem left (h : Stands block pos (bs ++ cs)) : Stands block pos bs := by
  obtain ⟨front, back, rfl, hpos⟩ := h
  exact ⟨front, cs ++ back, by simp, hpos⟩

theorem right (h : Stands block pos (bs ++ cs)) : Stands block (pos + bs.length) cs := by
  obtain ⟨front, back, rfl, rfl⟩ := h
  exact ⟨front ++ bs, back, by simp, by simp⟩

theorem le (h : Stands block pos bs) : pos + bs.length ≤ block.length := by
  obtain ⟨front, back, rfl, rfl⟩ := h
  simp

/-- What a reader that stops somewhere behind the bytes finds. -/
theorem cut (h : Stands block pos bs) {stop : Nat} (hstop : pos + bs.length ≤ stop) :
    ∃ rest, (block.take stop).drop pos = bs ++ rest := by
  obtain ⟨front, back, rfl, rfl⟩ := h
  refine ⟨back.take (stop - (front.length + bs.length)), ?_⟩
  rw [List.take_append, List.take_of_length_le (by simpa using hstop), List.append_assoc, List.drop_left,
    List.length_append]

end Stands

theorem stands_whole (bs : Bytes) : Stands bs 0 bs := ⟨[], [], by simp, rfl⟩

/-! ## Evaluating bytes -/

section

variable {schema : SchemaLayout} {store : Store} {s : Subject} {block : Bytes} {pos stop : Nat}

theorem holdsFrom_end (h : stop ≤ block.length) : holdsFrom schema store s block stop stop = .ok true := by
  rw [holdsFrom, dif_neg (by omega), dif_pos rfl]

/-- What is evaluated first is the item at the position. -/
theorem read_item {bs : Bytes} {item : Item} (hread : Wire.Reads Item.read bs item) (h : Stands block pos bs)
    (hstop : pos + bs.length ≤ stop) :
    ∃ rest, Item.read (.ofBytes ((block.take stop).drop pos)) = .ok item ⟨bs.length, rest⟩ := by
  obtain ⟨rest, hcut⟩ := h.cut hstop
  refine ⟨rest, ?_⟩
  have := hread 0 rest
  rwa [Nat.zero_add, ← hcut] at this

/-- The evaluation of what starts with an item. -/
def afterItem (schema : SchemaLayout) (store : Store) (s : Subject) (block : Bytes) (stop next : Nat) :
    Item → Except Fault Bool
  | .condition c => bothHold (c.holds s.id s.node) (holdsFrom schema store s block next stop)
  | .either jump size =>
    if jump < next then .error .jumpBackwards
    else do
      let left ← holdsFrom schema store s block next jump
      let hit ← if left then pure true else holdsFrom schema store s block jump (jump + size)
      if !hit then return false
      else if stop < jump + size then throw (.wire (.endOfInput "or items"))
      else holdsFrom schema store s block (jump + size) stop
  | .link one slot body => do
    let links := s.node.links slot
    let linked ← linkedSubjects schema store s.layout slot (if one then links.take 1 else links)
    bothHold (anySubject (fun t => holdsFrom schema store t body 0 body.length) linked)
      (holdsFrom schema store s block next stop)
  | .edge body =>
    match s.edge with
    | none => .ok false
    | some (t, n) =>
      bothHold (holdsFrom schema store (.ofEdge t n) body 0 body.length) (holdsFrom schema store s block next stop)

/-- What is read at a position is evaluated, and what follows it. -/
theorem holdsFrom_read {item : Item} {r : Wire.Reader} (hpos : pos < stop) (hlen : stop ≤ block.length)
    (hread : Item.read (.ofBytes ((block.take stop).drop pos)) = .ok item r) :
    holdsFrom schema store s block pos stop = afterItem schema store s block stop (pos + r.pos) item := by
  rw [holdsFrom, dif_neg (by omega), dif_neg (by omega)]
  split
  · rename_i hx
    rw [hread] at hx
    cases hx
  all_goals
    rename_i hx
    rw [hread] at hx
    cases hx
    rfl

theorem holdsFrom_item {bs : Bytes} {item : Item} (hread : Wire.Reads Item.read bs item) (h : Stands block pos bs)
    (hbs : bs ≠ []) (hstop : pos + bs.length ≤ stop) (hlen : stop ≤ block.length) :
    holdsFrom schema store s block pos stop = afterItem schema store s block stop (pos + bs.length) item := by
  obtain ⟨rest, hr⟩ := read_item hread h hstop
  have hpos : 0 < bs.length := List.length_pos_iff.2 hbs
  exact holdsFrom_read (by omega) hlen hr

theorem Clause.length_header (jump size : Nat) :
    (opEither :: leBytes 4 jump ++ leBytes 4 size).length = eitherHeader := by
  simp [eitherHeader]

/-- A disjunction is evaluated, and what follows it if one of its sides holds. -/
theorem holdsFrom_either {s : Subject} {block first second : Bytes} {pos jump stop : Nat}
    (hjump : jump = pos + Clause.eitherHeader + first.length)
    (h : Stands block pos (Clause.opEither :: leBytes 4 jump ++ leBytes 4 second.length ++ first ++ second))
    (hstop : jump + second.length ≤ stop) (hlen : stop ≤ block.length) (hblock : block.length < 2 ^ 32) :
    holdsFrom schema store s block pos stop = bothHold
      (oneHolds (holdsFrom schema store s block (pos + Clause.eitherHeader) jump)
        (holdsFrom schema store s block jump (jump + second.length)))
      (holdsFrom schema store s block (jump + second.length) stop) := by
  have hheader := Clause.length_header jump second.length
  rw [holdsFrom_item (Item.reads_either (by omega) (by omega)) h.left.left (by simp) (by omega) hlen]
  dsimp only [afterItem]
  rw [hheader, if_neg (by omega), if_neg (by omega)]
  cases holdsFrom schema store s block (pos + Clause.eitherHeader) jump with
  | error e => rfl
  | ok left =>
    cases left with
    | true => rfl
    | false =>
      cases holdsFrom schema store s block jump (jump + second.length) with
      | error e => rfl
      | ok right => cases right <;> rfl

mutual

/-- A clause is evaluated, and what follows it if it holds. -/
theorem holdsFrom_clause (c : Clause) (hc : c.Each Condition.WellFormed) {s : Subject} {block : Bytes} {pos stop : Nat}
    (h : Stands block pos (c.encode pos)) (hstop : pos + (c.encode pos).length ≤ stop) (hlen : stop ≤ block.length)
    (hblock : block.length < 2 ^ 32) :
    holdsFrom schema store s block pos stop =
      bothHold (c.eval schema store s) (holdsFrom schema store s block (pos + (c.encode pos).length) stop) :=
  match c, hc with
  | .condition c, hc => by
    have hle := h.le
    simp only [Clause.encode, List.length_cons, Condition.encode_eq, List.length_append, length_sized] at hle
    have hread := Item.reads_condition hc (by omega)
    rw [holdsFrom_item hread h (by simp) hstop hlen]
    rfl
  | .link one slot type body, hc => by
    have hle := h.le
    simp only [Clause.encode, List.length_cons, List.length_append, length_sized] at hle
    have hbody : (Clause.encodeFrom 0 body).length < 2 ^ 32 := by omega
    rw [holdsFrom_item (Item.reads_link hbody) h (by simp) hstop hlen]
    have heval : (fun t => holdsFrom schema store t (Clause.encodeFrom 0 body) 0 (Clause.encodeFrom 0 body).length) =
        fun t => Clause.evalAll schema store t body := by
      funext t
      have := holdsFrom_clauses body hc (s := t) (stands_whole _) hbody
      rwa [Nat.zero_add] at this
    unfold afterItem Clause.eval bothHold
    simp only [heval, bind_assoc, Clause.encode]
  | .edge body, hc => by
    have hle := h.le
    simp only [Clause.encode, List.length_cons, length_sized] at hle
    have hbody : (Clause.encodeFrom 0 body).length < 2 ^ 32 := by omega
    rw [holdsFrom_item (Item.reads_edge hbody) h (by simp) hstop hlen]
    unfold afterItem Clause.eval
    cases hs : s.edge with
    | none => rfl
    | some x =>
      have := holdsFrom_clauses body hc (s := .ofEdge x.1 x.2) (stands_whole _) hbody
      rw [Nat.zero_add] at this
      dsimp only
      rw [this]
      rfl
  | .either left right, hc => by
    rw [Clause.encode] at h hstop ⊢
    have hfirst := h.left.right
    have hsecond := h.right
    rw [Clause.length_header] at hfirst
    rw [List.length_append, Clause.length_header, ← Nat.add_assoc] at hsecond
    rw [List.length_append, List.length_append, Clause.length_header, ← Nat.add_assoc, ← Nat.add_assoc] at hstop ⊢
    rw [holdsFrom_either rfl h hstop hlen hblock, holdsFrom_clauses left hc.1 hfirst hblock,
      holdsFrom_clauses right hc.2 hsecond hblock, Clause.eval]

/-- The bytes of some clauses are evaluated as the clauses. -/
theorem holdsFrom_clauses (cs : List Clause) (hcs : Clause.EachOf Condition.WellFormed cs) {s : Subject} {block : Bytes} {pos : Nat}
    (h : Stands block pos (Clause.encodeFrom pos cs)) (hblock : block.length < 2 ^ 32) :
    holdsFrom schema store s block pos (pos + (Clause.encodeFrom pos cs).length) = Clause.evalAll schema store s cs :=
  match cs, hcs with
  | [], _ => holdsFrom_end h.le
  | c :: cs, hcs => by
    rw [Clause.encodeFrom] at h ⊢
    rw [holdsFrom_clause c hcs.1 h.left (by simp) (by simpa using h.le) hblock, List.length_append, ← Nat.add_assoc,
      holdsFrom_clauses cs hcs.2 h.right hblock, Clause.evalAll]

end

/-- A node passes a block if all its clauses hold. -/
theorem passes_encodeBlock {cs : List Clause} (hcs : Clause.EachOf Condition.WellFormed cs) (hsize : (encodeBlock cs).length < 2 ^ 32)
    (s : Subject) : s.passes schema store (encodeBlock cs) = Clause.evalAll schema store s cs := by
  have h : holdsFrom schema store s (encodeBlock cs) 0 (0 + (encodeBlock cs).length) = _ :=
    holdsFrom_clauses cs hcs (stands_whole _) hsize
  rwa [Nat.zero_add] at h

end

end NodeStore.Query
