import NodeStore.Write.Encoder

/-!
# References among written instructions

The instructions of a batch select a type, a node and a field; each reference among them goes to what is selected there.

* `Selection`, `Selection.after`: what is selected after some instructions.
* `Item`, `itemsFrom`: the references of some instructions, each with its position and what it goes to.
* `Item.split`: the bytes of a reference stand at its position.
* `itemsFrom_settle`: what the open buffer holds once one reference got its target.
-/

namespace NodeStore.Write

/-- What the next instruction goes to, as the reader of a batch sees it. -/
structure Selection where
  type : Option TypeId
  node : Option NodeTarget
  slot : Option UInt8
  deriving DecidableEq

namespace Selection

/-- At the start of a batch nothing is selected. -/
def none : Selection := ⟨.none, .none, .none⟩

/-- A field of a node. -/
def field (type : TypeId) (node : NodeTarget) (slot : UInt8) : Selection := ⟨some type, some node, some slot⟩

/-- What is selected after one instruction. -/
def step (s : Selection) : Instr → Selection
  | .selectType type => ⟨some type, .none, .none⟩
  | .selectNode n => ⟨s.type, some (.id n), .none⟩
  | .selectTmp n | .createNode n => ⟨s.type, some (.tmp n), .none⟩
  | .selectField slot _ => { s with slot := some slot }
  | .deleteNode => ⟨s.type, .none, .none⟩
  | _ => s

@[simp] theorem step_selectType (s : Selection) (type : TypeId) : s.step (.selectType type) = ⟨some type, .none, .none⟩ := rfl

@[simp] theorem step_selectNode (s : Selection) (n : NodeId) : s.step (.selectNode n) = ⟨s.type, some (.id n), .none⟩ := rfl

@[simp] theorem step_selectTmp (s : Selection) (n : UInt32) : s.step (.selectTmp n) = ⟨s.type, some (.tmp n), .none⟩ := rfl

@[simp] theorem step_createNode (s : Selection) (n : UInt32) : s.step (.createNode n) = ⟨s.type, some (.tmp n), .none⟩ := rfl

@[simp] theorem step_selectField (s : Selection) (slot tag : UInt8) :
    s.step (.selectField slot tag) = { s with slot := some slot } := rfl

@[simp] theorem step_deleteNode (s : Selection) : s.step .deleteNode = ⟨s.type, .none, .none⟩ := rfl

/-- What is selected after some instructions. -/
def after (s : Selection) (is : List Instr) : Selection := is.foldl step s

@[simp] theorem after_nil (s : Selection) : s.after [] = s := rfl

@[simp] theorem after_cons (s : Selection) (i : Instr) (is : List Instr) : s.after (i :: is) = (s.step i).after is := rfl

theorem after_append (s : Selection) (is js : List Instr) : s.after (is ++ js) = (s.after is).after js :=
  List.foldl_append

/-- The number of bytes that it takes at least to select this much. -/
def cost (s : Selection) : Nat :=
  (if s.type.isSome then 3 else 0) + (if s.node.isSome then 5 else 0) + (if s.slot.isSome then 3 else 0)

end Selection

/-! ### Bytes of instructions -/

@[simp] theorem encodeAll_nil : encodeAll [] = [] := rfl

@[simp] theorem encodeAll_cons (i : Instr) (is : List Instr) : encodeAll (i :: is) = i.encode ++ encodeAll is := rfl

@[simp] theorem encodeAll_append (is js : List Instr) : encodeAll (is ++ js) = encodeAll is ++ encodeAll js :=
  List.flatMap_append

theorem Selection.cost_step (s : Selection) (i : Instr) : (s.step i).cost ≤ s.cost + i.encode.length := by
  cases i with
  | selectType type | selectNode n | selectTmp n | createNode n | selectField slot tag | deleteNode =>
    rcases s with ⟨_ | _, _ | _, _ | _⟩ <;>
      simp only [step_selectType, step_selectNode, step_selectTmp, step_createNode, step_selectField, step_deleteNode,
        cost, Instr.encode, List.length_cons, List.length_nil, length_leBytes, Option.isSome_some,
        Option.isSome_none, Bool.false_eq_true, if_false, if_true] <;> omega
  | _ => exact Nat.le_add_right ..

/-- The instructions before a field is written select it. -/
theorem Selection.cost_after (s : Selection) (is : List Instr) : (s.after is).cost ≤ s.cost + (encodeAll is).length := by
  induction is generalizing s with
  | nil => simp
  | cons i is ih =>
    have h := s.cost_step i
    have h' := ih (s.step i)
    simp only [after_cons, encodeAll_cons, List.length_append]
    omega

/-! ### References of instructions -/

/-- A written reference: where it is, what it goes to, and whether it is one of a list. -/
structure Item where
  pos : Nat
  place : Selection
  many : Bool
  entry : RefEntry

/-- References that follow each other, the first of them at `pos`. -/
def entriesFrom (place : Selection) (many : Bool) (pos : Nat) : List RefEntry → List Item
  | [] => []
  | e :: es => ⟨pos, place, many, e⟩ :: entriesFrom place many (pos + e.encode.length) es

/-- The references of an instruction that starts at `pos`. Those to be removed are not among them. -/
def Instr.items (place : Selection) (pos : Nat) : Instr → List Item
  | .setRef e => [⟨pos + 1, place, false, e⟩]
  | .setRefs es | .addRefs es => entriesFrom place true (pos + 5) es
  | _ => []

/-- The references of some instructions, the first of which starts at `pos`. -/
def itemsFrom (place : Selection) (pos : Nat) : List Instr → List Item
  | [] => []
  | i :: is => i.items place pos ++ itemsFrom (place.step i) (pos + i.encode.length) is

/-- The references whose targets are not known yet. -/
def deferred (items : List Item) : List Item := items.filter (·.entry.target = .deferred)

theorem mem_deferred {it : Item} {items : List Item} : it ∈ deferred items ↔ it ∈ items ∧ it.entry.target = .deferred := by
  simp [deferred]

@[simp] theorem deferred_append (xs ys : List Item) : deferred (xs ++ ys) = deferred xs ++ deferred ys :=
  List.filter_append ..

theorem itemsFrom_append (place : Selection) (pos : Nat) (is js : List Instr) :
    itemsFrom place pos (is ++ js) =
      itemsFrom place pos is ++ itemsFrom (place.after is) (pos + (encodeAll is).length) js := by
  induction is generalizing place pos with
  | nil => simp [itemsFrom]
  | cons i is ih => simp [itemsFrom, ih, Nat.add_assoc]

/-! ### Where references stand -/

theorem RefEntry.length_encode_pos (e : RefEntry) : 0 < e.encode.length := by simp [RefEntry.encode]

/-- A list of references holds each of them between those before it and those behind it. -/
theorem mem_entriesFrom {place : Selection} {many : Bool} {pos : Nat} {es : List RefEntry} {it : Item}
    (h : it ∈ entriesFrom place many pos es) :
    ∃ front back, es = front ++ it.entry :: back ∧
      it = ⟨pos + (front.flatMap RefEntry.encode).length, place, many, it.entry⟩ := by
  induction es generalizing pos with
  | nil => cases h
  | cons e es ih =>
    rw [entriesFrom, List.mem_cons] at h
    rcases h with rfl | h
    · exact ⟨[], es, rfl, rfl⟩
    · obtain ⟨front, back, hes, hit⟩ := ih h
      refine ⟨e :: front, back, by rw [hes]; rfl, ?_⟩
      rw [hit]
      simp [Nat.add_assoc]

theorem entriesFrom_append (place : Selection) (many : Bool) (pos : Nat) (es fs : List RefEntry) :
    entriesFrom place many pos (es ++ fs) =
      entriesFrom place many pos es ++ entriesFrom place many (pos + (es.flatMap RefEntry.encode).length) fs := by
  induction es generalizing pos with
  | nil => simp [entriesFrom]
  | cons e es ih => simp [entriesFrom, ih, Nat.add_assoc]

/-- A reference of a list stands between the bounds of the list. -/
theorem pos_of_mem_entriesFrom {place : Selection} {many : Bool} {pos : Nat} {es : List RefEntry} {it : Item}
    (h : it ∈ entriesFrom place many pos es) :
    pos ≤ it.pos ∧ it.pos + it.entry.encode.length ≤ pos + (es.flatMap RefEntry.encode).length := by
  obtain ⟨front, back, rfl, hit⟩ := mem_entriesFrom h
  have hpos : it.pos = pos + (front.flatMap RefEntry.encode).length := by rw [hit]
  simp only [List.flatMap_append, List.flatMap_cons, List.length_append]
  omega

/-- A reference of an instruction stands inside of it. -/
theorem Instr.pos_of_mem_items {i : Instr} {place : Selection} {pos : Nat} {it : Item} (h : it ∈ i.items place pos) :
    pos < it.pos ∧ it.pos + it.entry.encode.length ≤ pos + i.encode.length := by
  cases i with
  | setRef e =>
    cases List.mem_singleton.1 h
    simp [Instr.encode]
    omega
  | setRefs es | addRefs es =>
    have hpos := pos_of_mem_entriesFrom h
    simp only [Instr.encode, Instr.encodeItems, List.length_cons, List.length_append, length_leBytes]
    omega
  | _ => cases h

theorem pos_of_mem_itemsFrom {is : List Instr} {place : Selection} {pos : Nat} {it : Item}
    (h : it ∈ itemsFrom place pos is) :
    pos < it.pos ∧ it.pos + it.entry.encode.length ≤ pos + (encodeAll is).length := by
  induction is generalizing place pos with
  | nil => cases h
  | cons i is ih =>
    simp only [encodeAll_cons, List.length_append]
    rw [itemsFrom, List.mem_append] at h
    rcases h with h | h
    · have := Instr.pos_of_mem_items h
      omega
    · have := ih h
      omega

/-- No two references stand at the same position. -/
theorem entriesFrom_sorted (place : Selection) (many : Bool) (pos : Nat) (es : List RefEntry) :
    ((entriesFrom place many pos es).map (·.pos)).Pairwise (· < ·) := by
  induction es generalizing pos with
  | nil => exact .nil
  | cons e es ih =>
    refine .cons ?_ (ih _)
    intro n hn
    obtain ⟨it, hit, rfl⟩ := List.mem_map.1 hn
    have h := (pos_of_mem_entriesFrom hit).1
    have he := e.length_encode_pos
    change pos < it.pos
    omega

theorem itemsFrom_sorted (place : Selection) (pos : Nat) (is : List Instr) :
    ((itemsFrom place pos is).map (·.pos)).Pairwise (· < ·) := by
  induction is generalizing place pos with
  | nil => exact .nil
  | cons i is ih =>
    rw [itemsFrom, List.map_append, List.pairwise_append]
    refine ⟨?_, ih _ _, ?_⟩
    · cases i with
      | setRef e => exact List.pairwise_singleton ..
      | setRefs es | addRefs es => exact entriesFrom_sorted ..
      | _ => exact .nil
    · intro n hn m hm
      obtain ⟨it, hit, rfl⟩ := List.mem_map.1 hn
      obtain ⟨it', hit', rfl⟩ := List.mem_map.1 hm
      have h := Instr.pos_of_mem_items hit
      have h' := pos_of_mem_itemsFrom hit'
      omega

/-- The instruction that holds a reference. -/
theorem mem_itemsFrom {is : List Instr} {place : Selection} {pos : Nat} {it : Item} (h : it ∈ itemsFrom place pos is) :
    ∃ before i behind, is = before ++ i :: behind ∧
      it ∈ i.items (place.after before) (pos + (encodeAll before).length) := by
  induction is generalizing place pos with
  | nil => cases h
  | cons i is ih =>
    rw [itemsFrom, List.mem_append] at h
    rcases h with h | h
    · exact ⟨[], i, is, rfl, h⟩
    · obtain ⟨before, j, behind, rfl, hj⟩ := ih h
      refine ⟨i :: before, j, behind, rfl, ?_⟩
      simpa [Nat.add_assoc] using hj

/-- What goes to a place is behind the instructions that select it. -/
theorem room_of_mem_itemsFrom {is : List Instr} {it : Item} (h : it ∈ itemsFrom .none 0 is) :
    it.place.cost + ((if it.many then 5 else 1) + it.entry.encode.length) ≤ (encodeAll is).length := by
  obtain ⟨before, i, behind, rfl, hi⟩ := mem_itemsFrom h
  have hbefore := Selection.cost_after .none before
  have hplace : it.place = Selection.none.after before ∧
      (if it.many then 5 else 1) + it.entry.encode.length ≤ i.encode.length := by
    cases i with
    | setRef e =>
      cases List.mem_singleton.1 hi
      simp [Instr.encode]
      omega
    | setRefs es | addRefs es =>
      obtain ⟨front, back, rfl, hit⟩ := mem_entriesFrom hi
      have hmany : it.many = true := by rw [hit]
      refine ⟨by rw [hit], ?_⟩
      simp only [hmany, if_true, Instr.encode, Instr.encodeItems, List.length_cons, List.length_append, length_leBytes,
        List.flatMap_append, List.flatMap_cons]
      omega
    | _ => cases hi
  have hnone : Selection.none.cost = 0 := rfl
  rw [hplace.1]
  simp only [encodeAll_append, encodeAll_cons, List.length_append]
  omega

/-! ### Settling a reference -/

/-- The same reference once its target is known. -/
def RefEntry.settle (id : NodeId) (e : RefEntry) : RefEntry := { e with target := .node id }

theorem RefEntry.length_encode_settle (id : NodeId) (e : RefEntry) :
    (e.settle id).encode.length = e.encode.length := by
  simp [RefEntry.encode, RefEntry.settle]

/-- An instruction without the references in it that may wait. -/
def Instr.bare : Instr → Instr
  | .setRef _ => .setRef ⟨.deferred, none⟩
  | .setRefs _ => .setRefs []
  | .addRefs _ => .addRefs []
  | i => i

/-- The reference at a position gets its target. -/
def Item.settleAt (pos : Nat) (id : NodeId) (it : Item) : Item :=
  if it.pos = pos then { it with entry := it.entry.settle id } else it

theorem map_settleAt_of_ne {pos : Nat} {id : NodeId} {items : List Item} (h : ∀ it ∈ items, it.pos ≠ pos) :
    items.map (Item.settleAt pos id) = items :=
  (List.map_congr_left fun it hit => if_neg (h it hit)).trans (List.map_id' items)

/-- A list in which one reference is settled differs in its bytes only. -/
theorem entriesFrom_settle (place : Selection) (many : Bool) (pos : Nat) (front back : List RefEntry) (e : RefEntry)
    (id : NodeId) :
    entriesFrom place many pos (front ++ e.settle id :: back) =
      (entriesFrom place many pos (front ++ e :: back)).map
        (Item.settleAt (pos + (front.flatMap RefEntry.encode).length) id) := by
  have he := e.length_encode_pos
  have hfront : ∀ it ∈ entriesFrom place many pos front, it.pos ≠ pos + (front.flatMap RefEntry.encode).length := by
    intro it hit
    have := pos_of_mem_entriesFrom hit
    have := it.entry.length_encode_pos
    omega
  have hback : ∀ it ∈ entriesFrom place many (pos + (front.flatMap RefEntry.encode).length + e.encode.length) back,
      it.pos ≠ pos + (front.flatMap RefEntry.encode).length := by
    intro it hit
    have := (pos_of_mem_entriesFrom hit).1
    omega
  rw [entriesFrom_append, entriesFrom_append, List.map_append, map_settleAt_of_ne hfront]
  simp only [entriesFrom, RefEntry.length_encode_settle, List.map_cons, map_settleAt_of_ne hback]
  simp [Item.settleAt]

/-- A reference of an instruction stands at its position, and the same instruction may hold it settled. -/
theorem Instr.settle_item {i : Instr} {place : Selection} {pos : Nat} {it : Item} (h : it ∈ i.items place pos)
    (id : NodeId) :
    ∃ i' front back, i.encode = front ++ it.entry.encode ++ back ∧ it.pos = pos + front.length ∧
      i'.encode = front ++ (it.entry.settle id).encode ++ back ∧
      i'.items place pos = (i.items place pos).map (Item.settleAt it.pos id) ∧ (∀ s : Selection, s.step i' = s.step i) ∧
      i'.bare = i.bare := by
  cases i with
  | setRef e =>
    cases List.mem_singleton.1 h
    refine ⟨.setRef (e.settle id), [Instr.opSetRef], [], by simp [encode], rfl, by simp [encode], ?_, fun _ => rfl, rfl⟩
    simp [items, Item.settleAt]
  | setRefs es =>
    obtain ⟨front, back, hes, hit⟩ := mem_entriesFrom h
    have hpos : it.pos = pos + 5 + (front.flatMap RefEntry.encode).length := by rw [hit]
    refine ⟨.setRefs (front ++ it.entry.settle id :: back),
      opSetRefs :: leBytes 4 es.length ++ front.flatMap RefEntry.encode, back.flatMap RefEntry.encode, ?_, ?_, ?_, ?_,
      fun _ => rfl, rfl⟩
    · simp [encode, encodeItems, hes]
    · simp only [hpos, List.length_cons, List.length_append, length_leBytes]
      omega
    · simp [encode, encodeItems, hes]
    · rw [items, items, entriesFrom_settle, hpos, ← hes]
  | addRefs es =>
    obtain ⟨front, back, hes, hit⟩ := mem_entriesFrom h
    have hpos : it.pos = pos + 5 + (front.flatMap RefEntry.encode).length := by rw [hit]
    refine ⟨.addRefs (front ++ it.entry.settle id :: back),
      opAddRefs :: leBytes 4 es.length ++ front.flatMap RefEntry.encode, back.flatMap RefEntry.encode, ?_, ?_, ?_, ?_,
      fun _ => rfl, rfl⟩
    · simp [encode, encodeItems, hes]
    · simp only [hpos, List.length_cons, List.length_append, length_leBytes]
      omega
    · simp [encode, encodeItems, hes]
    · rw [items, items, entriesFrom_settle, hpos, ← hes]
  | _ => cases h

/-- A reference of some instructions stands at its position, and they may hold it settled. -/
theorem settle_item {is : List Instr} {place : Selection} {pos : Nat} {it : Item} (h : it ∈ itemsFrom place pos is)
    (id : NodeId) :
    ∃ is' front back, encodeAll is = front ++ it.entry.encode ++ back ∧ it.pos = pos + front.length ∧
      encodeAll is' = front ++ (it.entry.settle id).encode ++ back ∧
      itemsFrom place pos is' = (itemsFrom place pos is).map (Item.settleAt it.pos id) ∧
      place.after is' = place.after is ∧ is'.map Instr.bare = is.map Instr.bare := by
  induction is generalizing place pos with
  | nil => cases h
  | cons i is ih =>
    rw [itemsFrom, List.mem_append] at h
    rcases h with h | h
    · obtain ⟨i', front, back, hi, hpos, hi', hitems, hstep, hbare⟩ := Instr.settle_item h id
      have hlen : i'.encode.length = i.encode.length := by
        simp only [hi, hi', List.length_append, RefEntry.length_encode_settle]
      have hbehind : ∀ it' ∈ itemsFrom (place.step i) (pos + i.encode.length) is, it'.pos ≠ it.pos := by
        intro it' hit'
        have := pos_of_mem_itemsFrom hit'
        have := Instr.pos_of_mem_items h
        omega
      refine ⟨i' :: is, front, back ++ encodeAll is, by simp [hi], hpos, by simp [hi'], ?_, by simp [hstep], by simp [hbare]⟩
      rw [itemsFrom, itemsFrom, List.map_append, hitems, hlen, hstep, map_settleAt_of_ne hbehind]
    · obtain ⟨is', front, back, his, hpos, his', hitems, hafter, hbare⟩ := ih h
      have hbefore : ∀ it' ∈ i.items place pos, it'.pos ≠ it.pos := by
        intro it' hit'
        have := Instr.pos_of_mem_items hit'
        have := it'.entry.length_encode_pos
        have := pos_of_mem_itemsFrom h
        omega
      refine ⟨i :: is', i.encode ++ front, back, by simp [his], ?_, by simp [his'], ?_, hafter, by simp [hbare]⟩
      · simp only [hpos, List.length_append]
        omega
      · rw [itemsFrom, itemsFrom, List.map_append, hitems, map_settleAt_of_ne hbefore]

/-- The settled reference no longer waits; all others do as before. -/
theorem deferred_settleAt (pos : Nat) (id : NodeId) (items : List Item) :
    deferred (items.map (Item.settleAt pos id)) = (deferred items).filter (·.pos ≠ pos) := by
  induction items with
  | nil => rfl
  | cons it items ih =>
    unfold deferred at ih ⊢
    by_cases hpos : it.pos = pos
    · by_cases hd : it.entry.target = .deferred <;> simp [Item.settleAt, RefEntry.settle, hpos, hd] <;> simpa using ih
    · by_cases hd : it.entry.target = .deferred <;> simp [Item.settleAt, hpos, hd] <;> simpa using ih

/-! ### Settling in place -/

/-- Without the flag of a deferred reference and with another target, the bytes are those of the settled reference. -/
theorem RefEntry.flags_settle {e : RefEntry} (h : e.target = .deferred) (id : NodeId) :
    e.flags &&& ~~~deferredFlag = (e.settle id).flags := by
  obtain ⟨target, edges⟩ := e
  cases h
  cases edges
  · exact (by decide : (deferredFlag ||| 0) &&& ~~~deferredFlag = 0 ||| 0)
  · exact (by decide : (deferredFlag ||| edgesFlag) &&& ~~~deferredFlag = 0 ||| edgesFlag)

/-- The bytes of a reference behind its target. -/
def RefEntry.block (e : RefEntry) : Bytes :=
  match e.edges with
  | some block => Wire.sized block
  | none => []

theorem RefEntry.encode_eq (e : RefEntry) : e.encode = [e.flags] ++ (leBytes 4 e.word.toNat ++ e.block) := by
  unfold RefEntry.encode RefEntry.block
  rfl

/-- What a placeholder's bytes become when its position is patched. -/
theorem Encoder.patchPlaceholder_eq {e : Encoder} {r : RefEntry} {front back : Bytes}
    (h : e.buffer.bytes = front ++ r.encode ++ back) (hr : r.target = .deferred) (id : NodeId) :
    (e.patchPlaceholder front.length id).buffer.bytes = front ++ (r.settle id).encode ++ back := by
  have hflags : e.buffer.bytes[front.length]?.getD 0 = r.flags := by
    rw [h, RefEntry.encode_eq]
    simp
  have hbyte : Bytes.overwrite front.length [(r.settle id).flags] e.buffer.bytes =
      (front ++ [(r.settle id).flags]) ++ leBytes 4 r.word.toNat ++ (r.block ++ back) := by
    have := Bytes.overwrite_append front [r.flags] [(r.settle id).flags] (leBytes 4 r.word.toNat ++ (r.block ++ back)) rfl
    rw [h, RefEntry.encode_eq]
    simpa using this
  have hword := Bytes.overwrite_append (front ++ [(r.settle id).flags]) (leBytes 4 r.word.toNat) (leBytes 4 id.toNat)
    (r.block ++ back) (by simp)
  rw [List.length_append, List.length_singleton] at hword
  simp only [patchPlaceholder, Buffer.patchByte, Buffer.patchWord, hflags, RefEntry.flags_settle hr id, hbyte, hword]
  rw [RefEntry.encode_eq]
  simp [RefEntry.word, RefEntry.block, RefEntry.settle]

end NodeStore.Write
