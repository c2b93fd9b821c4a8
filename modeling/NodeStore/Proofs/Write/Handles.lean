import Mathlib.Data.List.Induction
import NodeStore.Proofs.Write.Ledger

/-!
# What handles name

In every buffer the creates are numbered in their order, and the number of a create stands for the node whose handle the
call answered: a reference to that handle in the same buffer carries the number, and the id at its place in the engine's
answer is the one that the handle gets.

* `creates`: the creates among instructions.
* `Makes.creates`, `Makes.item`: what the instructions of one write create, and what they refer to.
* `Registry.Enters`: what the registry notes of one write.
* `Linked`: the segments of a buffer create and refer as they should; `Agrees`: the session and its ledger do.
* `acknowledge_resolves`: the ids that the engine's answer to a batch gives; `handles_name_creates`: all of it together.
-/

namespace NodeStore.Write

/-! ### Creates among instructions -/

/-- The creates among some instructions: the type that is selected, and the number. -/
def creates (s : Selection) : List Instr → List (Option TypeId × UInt32)
  | [] => []
  | .createNode tmp :: is => (s.type, tmp) :: creates (s.step (.createNode tmp)) is
  | i :: is => creates (s.step i) is

theorem creates_cons_of_ne {i : Instr} (h : ∀ tmp, i ≠ .createNode tmp) (s : Selection) (is : List Instr) :
    creates s (i :: is) = creates (s.step i) is := by
  cases i with
  | createNode tmp => exact absurd rfl (h tmp)
  | _ => rfl

theorem creates_append (s : Selection) (is js : List Instr) :
    creates s (is ++ js) = creates s is ++ creates (s.after is) js := by
  induction is generalizing s with
  | nil => rfl
  | cons i is ih =>
    cases i with
    | createNode tmp => exact congrArg ((s.type, tmp) :: ·) (ih _)
    | _ => exact ih _

theorem creates_eq_nil {s : Selection} {is : List Instr} (h : ∀ i ∈ is, ∀ tmp, i ≠ .createNode tmp) :
    creates s is = [] := by
  induction is generalizing s with
  | nil => rfl
  | cons i is ih =>
    rw [creates_cons_of_ne (h i List.mem_cons_self)]
    exact ih fun j hj => h j (List.mem_cons_of_mem _ hj)

/-! ### What one write creates and refers to -/

theorem Instr.ForNode.refs {i : Instr} (h : i.ForNode) : i.refs = [] := by cases h <;> rfl

theorem Instr.ForNode.ne_createNode {i : Instr} (h : i.ForNode) (tmp : UInt32) : i ≠ .createNode tmp := by
  cases h <;> exact nofun

theorem Instr.ForField.ne_createNode {i : Instr} (h : i.ForField) (tmp : UInt32) : i ≠ .createNode tmp := by
  cases h <;> exact nofun

/-- The selector of a type is the only one that a selector of a type writes. -/
theorem Cursor.mem_selectType {c : Cursor} {type : TypeId} {i : Instr} (h : i ∈ c.selectType type) :
    i = .selectType type := by
  unfold Cursor.selectType at h
  split at h
  · cases h
  · exact List.mem_singleton.1 h

theorem Cursor.mem_selectField {c : Cursor} {slot tag : UInt8} {i : Instr} (h : i ∈ c.selectField slot tag) :
    i = .selectField slot tag := by
  unfold Cursor.selectField at h
  split at h
  · cases h
  · exact List.mem_singleton.1 h

theorem mem_aimedAt {aim : Aim} {is : List Instr} {a : Aimed} (h : a ∈ aimedAt aim is) : a.instr ∈ is ∧ a.aim = aim := by
  obtain ⟨i, hi, rfl⟩ := List.mem_map.1 h
  exact ⟨hi, rfl⟩

/-- A request that has an instruction. -/
theorem exists_request {c : Cursor} {rs : List Request} {a : Aimed} (h : a ∈ aimedAll c rs) :
    ∃ c', ∃ r ∈ rs, a ∈ r.aimed c' := by
  induction rs generalizing c with
  | nil => cases h
  | cons r rs ih =>
    rcases List.mem_append.1 h with h | h
    · exact ⟨c, r, List.mem_cons_self, h⟩
    · obtain ⟨c', r', hr', ha⟩ := ih h
      exact ⟨c', r', List.mem_cons_of_mem _ hr', ha⟩

variable {c : Context} {fields : List (Field EdgeLayout)} {r : Request} {cur : Cursor} {a : Aimed}

/-- The fields of a write create nothing, and the references that they set are those of the record. -/
theorem Request.Fills.aimed (h : r.Fills c fields) (ha : a ∈ r.aimed cur) :
    (∀ tmp, a.instr ≠ .createNode tmp) ∧
      (a.instr.refs ≠ [] → ∃ f ∈ fields, (∃ type node, a.aim = .field type node f.prop) ∧
        a.instr.Sets c (encodeEdges c) f.prop f.value) := by
  cases h with
  | node hi =>
    simp only [Request.aimed] at ha
    split at ha
    · have hinstr := List.mem_singleton.1 (mem_aimedAt ha).1
      rw [hinstr]
      exact ⟨hi.ne_createNode, fun hrefs => absurd hi.refs hrefs⟩
    · cases ha
  | @field f i hf hi hsets =>
    simp only [Request.aimed] at ha
    split at ha
    · rename_i type node slot _
      rcases List.mem_append.1 ha with ha | ha
      · have hinstr := Cursor.mem_selectField (mem_aimedAt ha).1
        rw [hinstr]
        exact ⟨by simp, fun hrefs => absurd rfl hrefs⟩
      · obtain ⟨hinstr, haim⟩ := mem_aimedAt ha
        rw [List.mem_singleton.1 hinstr]
        exact ⟨hi.ne_createNode, fun _ => ⟨f, hf, ⟨type, node, haim⟩, hsets⟩⟩
    · cases ha
  | delete =>
    simp only [Request.aimed] at ha
    split at ha
    · have hinstr := List.mem_singleton.1 (mem_aimedAt ha).1
      rw [hinstr]
      exact ⟨by simp, fun hrefs => absurd rfl hrefs⟩
    · cases ha

/-- A selector creates nothing and sets no reference. -/
theorem select_aimed {type : TypeId} {node : NodeTarget} (ha : a ∈ (Request.select type node).aimed cur) :
    (∀ tmp, a.instr ≠ .createNode tmp) ∧ a.instr.refs = [] := by
  simp only [Request.aimed] at ha
  split at ha
  · cases ha
  · rcases List.mem_append.1 ha with ha | ha
    · rw [Cursor.mem_selectType (mem_aimedAt ha).1]
      exact ⟨by simp, rfl⟩
    · have hinstr := (mem_aimedAt ha).1
      cases node with
      | id n => rw [List.mem_singleton.1 hinstr]; exact ⟨by simp, rfl⟩
      | tmp n => rw [List.mem_singleton.1 hinstr]; exact ⟨by simp, rfl⟩
      | link => cases hinstr

theorem create_aimed {type : TypeId} {tmp : UInt32} (ha : a ∈ (Request.create type tmp).aimed cur) :
    a.instr.refs = [] := by
  simp only [Request.aimed] at ha
  rcases List.mem_append.1 ha with ha | ha
  · rw [Cursor.mem_selectType (mem_aimedAt ha).1]
    rfl
  · rw [List.mem_singleton.1 (mem_aimedAt ha).1]
    rfl

theorem creates_fills {rs : List Request} (h : ∀ r ∈ rs, r.Fills c fields) (cur : Cursor) (s : Selection) :
    creates s ((aimedAll cur rs).map (·.instr)) = [] := by
  refine creates_eq_nil fun i hi => ?_
  obtain ⟨a, ha, rfl⟩ := List.mem_map.1 hi
  obtain ⟨cur', r, hr, ha⟩ := exists_request ha
  exact ((h r hr).aimed ha).1

namespace Session.Plan

variable {plan : Plan} {rs : List Request} {s : Selection}

theorem Makes.proper (h : plan.Makes c rs) : ∀ r ∈ rs, r.Proper := by
  have hfills : ∀ {fields : List (Field EdgeLayout)} {r : Request}, r.Fills c fields → r.Proper := by
    intro fields r hr
    cases hr with
    | node hi => exact hi
    | field _ hi => exact hi
    | delete => trivial
  cases plan with
  | create t fields =>
    obtain ⟨rest, rfl, hrest⟩ := h
    exact List.forall_mem_cons.2 ⟨trivial, fun r hr => hfills (hrest r hr)⟩
  | write type target op change =>
    obtain ⟨wire, node, rest, -, hnode, rfl, hrest⟩ := h
    exact List.forall_mem_cons.2 ⟨WireTarget.node?_ne_link hnode, fun r hr => hfills (hrest r hr)⟩

/-- What a plan creates: the node of a create, with the next number, and nothing otherwise. -/
def created (c : Context) : Plan → List (Option TypeId × UInt32)
  | create t _ => [(some t.id, c.registry.nextTmp)]
  | write .. => []

theorem Makes.creates (h : plan.Makes c rs) (hcur : cur.Within s) :
    Write.creates s ((aimedAll cur rs).map (·.instr)) = plan.created c := by
  cases plan with
  | create t fields =>
    obtain ⟨rest, rfl, hrest⟩ := h
    have hselect : Write.creates s (cur.selectType t.id) = [] :=
      creates_eq_nil fun i hi => by rw [Cursor.mem_selectType hi]; exact nofun
    rw [aimedAll, List.map_append, creates_append, creates_fills hrest, List.append_nil]
    simp only [Request.aimed, List.map_append, instr_aimedAt, creates_append, hselect, List.nil_append]
    rw [Write.creates, hcur.selectType]
    rfl
  | write type target op change =>
    obtain ⟨wire, node, rest, -, hnode, rfl, hrest⟩ := h
    rw [aimedAll, List.map_append, creates_append, creates_fills hrest, List.append_nil]
    refine creates_eq_nil fun i hi => ?_
    obtain ⟨a, ha, rfl⟩ := List.mem_map.1 hi
    exact (select_aimed ha).1

/-- Whatever a plan writes to a field that holds references is one of its fields. -/
theorem Makes.refs (h : plan.Makes c rs) (ha : a ∈ aimedAll cur rs) (hrefs : a.instr.refs ≠ []) :
    ∃ f ∈ plan.fields, (∃ type node, a.aim = .field type node f.prop) ∧
      a.instr.Sets c (encodeEdges c) f.prop f.value := by
  obtain ⟨cur', r, hr, haimed⟩ := exists_request ha
  cases plan with
  | create t fields =>
    obtain ⟨rest, rfl, hrest⟩ := h
    rcases List.mem_cons.1 hr with rfl | hr
    · exact absurd (create_aimed haimed) hrefs
    · exact ((hrest r hr).aimed haimed).2 hrefs
  | write type target op change =>
    obtain ⟨wire, node, rest, -, -, rfl, hrest⟩ := h
    rcases List.mem_cons.1 hr with rfl | hr
    · exact absurd (select_aimed haimed).2 hrefs
    · exact ((hrest r hr).aimed haimed).2 hrefs

end Session.Plan

theorem Instr.of_mem_items {i : Instr} {s : Selection} {pos : Nat} {it : Item} (h : it ∈ i.items s pos) :
    it.place = s ∧ it.entry ∈ i.refs := by
  have hlist : ∀ {many : Bool} {pos : Nat} {es : List RefEntry}, it ∈ entriesFrom s many pos es →
      it.place = s ∧ it.entry ∈ es := by
    intro many pos es h
    obtain ⟨front, back, rfl, hit⟩ := mem_entriesFrom h
    exact ⟨by rw [hit], List.mem_append_right _ List.mem_cons_self⟩
  cases i with
  | setRef e => cases List.mem_singleton.1 h; exact ⟨rfl, List.mem_singleton_self _⟩
  | setRefs es | addRefs es => exact hlist h
  | _ => cases h

/-- A reference is written by an instruction that is for the field it goes to. -/
theorem exists_aimed_of_item {as : List Aimed} {s : Selection} (h : Hit s as) {pos : Nat} {it : Item}
    (hit : it ∈ itemsFrom s pos (as.map (·.instr))) : ∃ a ∈ as, it.entry ∈ a.instr.refs ∧ a.aim.Within it.place := by
  induction as generalizing s pos with
  | nil => cases hit
  | cons a as ih =>
    rw [List.map_cons, itemsFrom, List.mem_append] at hit
    rcases hit with hit | hit
    · obtain ⟨hplace, hentry⟩ := Instr.of_mem_items hit
      exact ⟨a, List.mem_cons_self, hentry, hplace ▸ h.1⟩
    · obtain ⟨a', ha', hentry, hwithin⟩ := ih h.2 hit
      exact ⟨a', List.mem_cons_of_mem _ ha', hentry, hwithin⟩

/-- A written reference goes to a field of the record, which names it. -/
theorem Session.Plan.Makes.item {plan : Session.Plan} {rs : List Request} {s : Selection} (h : plan.Makes c rs)
    (hcur : cur.Within s) {pos : Nat} {it : Item} (hit : it ∈ itemsFrom s pos ((aimedAll cur rs).map (·.instr))) :
    ∃ f ∈ plan.fields, f.prop.type.isReference = true ∧
      (∃ type node slot, f.prop.slot? = some slot ∧ it.place = .field type node slot) ∧
      ∃ item w, Names f.prop f.value item ∧ refEntry c (encodeEdges c) f.prop item = .ok (it.entry, w) := by
  obtain ⟨a, ha, hentry, hwithin⟩ := exists_aimed_of_item (aimedAll_hit h.proper hcur).1 hit
  obtain ⟨f, hf, ⟨type, node, haim⟩, hsets⟩ := h.refs ha (List.ne_nil_of_mem hentry)
  rw [haim] at hwithin
  obtain ⟨slot, hslot, hplace⟩ := hwithin
  obtain ⟨href, item, w, hnames, hok⟩ := hsets it.entry hentry
  exact ⟨f, hf, href, ⟨type, node, slot, hslot, hplace⟩, item, w, hnames, hok⟩

/-- A reference that is written with a number is to a create of the open buffer, whose type is the property's. -/
theorem refEntry_tmp {p : PropDef EdgeLayout} {item : RefItem} {e : RefEntry} {w : Option PendingId}
    (h : refEntry c (encodeEdges c) p item = .ok (e, w)) {n : UInt32} (hn : e.target = .tmp n) :
    ∃ q, item.1 = .pending q ∧ c.registry.status q = .ok (.buffered n) ∧
      ∀ target type, p.target = some target → c.registry.typeOf? q = some type → type = target.id := by
  unfold refEntry at h
  obtain ⟨wire, hwire, h⟩ := Except.bind_eq_ok.1 h
  obtain ⟨_, htype, h⟩ := Except.bind_eq_ok.1 h
  obtain ⟨_, -, h⟩ := Except.bind_eq_ok.1 h
  obtain ⟨block, -, h⟩ := Except.bind_eq_ok.1 h
  cases h
  have hwire : c.registry.wireTarget item.1 = .ok (.tmp n) := by
    cases wire <;> cases hn
    exact hwire
  obtain ⟨target, edges⟩ := item
  cases target with
  | id m => cases hwire
  | pending q =>
    obtain ⟨x, hx, hstate⟩ := Registry.wireTarget_pending.1 hwire
    refine ⟨q, rfl, Registry.status_eq_ok.2 ⟨x, hx, ?_⟩, fun target type htarget hq => ?_⟩
    · rcases hstate with ⟨tmp, hs, hw⟩ | ⟨_, -, hw⟩ | ⟨_, -, hw⟩ <;> cases hw
      exact hs
    · unfold checkTargetType at htype
      rw [show c.registry.pendingType? (.pending q) = some type from hq, htarget] at htype
      dsimp only at htype
      split at htype
      · assumption
      · cases htype

/-! ### Entries of the registry -/

/-- A write is entered: the node that it made, if it is a create, is the next one and has the next number. No other node
is new, and none is sent. -/
structure Registry.Enters (r r' : Registry) (made : Option PendingId) : Prop where
  later : r.Later r'
  next : ∀ q, made = some q → q = ⟨r.entries.length + 1⟩
  length : r'.entries.length = r.entries.length + made.toList.length
  buffered : r'.buffered = r.buffered ++ made.toList
  inFlight : r'.inFlight = r.inFlight
  status : ∀ q tmp, r'.status q = .ok (.buffered tmp) →
    r.status q = .ok (.buffered tmp) ∨ made = some q ∧ tmp = r.nextTmp

theorem Registry.enters_register (r : Registry) (type : TypeId) (os : List Obligation) :
    r.Enters { (r.register type).2 with obligations := os } (some (r.register type).1) where
  later := (Sends.register r type).later.trans (Sends.of_entries rfl).later
  next _ h := (Option.some.inj h).symm
  length := List.length_append
  buffered := rfl
  inFlight := rfl
  status q tmp h := by
    have h : (r.register type).2.status q = .ok (.buffered tmp) := h
    by_cases hq : q = (r.register type).1
    · subst hq
      rw [status_register_self] at h
      cases h
      exact .inr ⟨rfl, rfl⟩
    · rw [status_register_of_ne hq] at h
      exact .inl h

theorem Registry.enters_obligations (r : Registry) (os : List Obligation) :
    r.Enters { r with obligations := os } none where
  later := (Sends.of_entries rfl).later
  next := nofun
  length := rfl
  buffered := (List.append_nil _).symm
  inFlight := rfl
  status _ _ h := .inl h

theorem typeOf?_register (r : Registry) (type : TypeId) : (r.register type).2.typeOf? (r.register type).1 = some type := by
  have hraw : (r.register type).1.raw ≠ 0 := Nat.succ_ne_zero _
  unfold Registry.typeOf? Registry.entry?
  rw [if_neg hraw]
  exact congrArg (Option.map PendingEntry.type) (List.getElem?_concat_length ..)

namespace Session

/-! ### Buffers -/

/-- A segment creates the node whose handle its call answered, if it is a create, and nothing otherwise. -/
def Segment.Creates (r : Registry) (front : List Segment) (seg : Segment) : Prop :=
  (seg.made = none ∧ creates (Selection.none.after (stream front)) seg.instrs = []) ∨
    ∃ q type, seg.made = some q ∧ r.typeOf? q = some type ∧
      creates (Selection.none.after (stream front)) seg.instrs = [(some type, UInt32.ofNat (handles front).length)]

/-- A reference with the number `n` is to a handle that a field of the record names; the call that answered this handle
stands before in the buffer, and has created a node of the property's target type with that number. -/
def Segment.Names (front : List Segment) (seg : Segment) (it : Item) (n : UInt32) : Prop :=
  ∃ f ∈ seg.plan.fields, (∃ type node slot, f.prop.slot? = some slot ∧ it.place = .field type node slot) ∧
    ∃ q edges target, Write.Names f.prop f.value (.pending q, edges) ∧ f.prop.target = some target ∧
      ∃ front₁ c front₂, front = front₁ ++ c :: front₂ ∧ c.made = some q ∧
        creates (Selection.none.after (stream front₁)) c.instrs = [(some target.id, n)]

/-- All references of a segment that carry a number do so for a handle. -/
def Segment.Refers (front : List Segment) (seg : Segment) : Prop :=
  ∀ pos, ∀ it ∈ itemsFrom (Selection.none.after (stream front)) pos seg.instrs, ∀ n, it.entry.target = .tmp n →
    seg.Names front it n

/-- The segments of one buffer create and refer as they should. -/
def Linked (r : Registry) (segs : List Segment) : Prop :=
  ∀ front seg back, segs = front ++ seg :: back → seg.Creates r front ∧ seg.Refers front

theorem Linked.nil (r : Registry) : Linked r [] := by
  intro front seg back h
  cases front <;> cases h

theorem Linked.snoc {r : Registry} {segs : List Segment} {seg : Segment} (h : Linked r segs) (hcreates : seg.Creates r segs)
    (hrefers : seg.Refers segs) : Linked r (segs ++ [seg]) := by
  intro front seg' back heq
  rcases List.eq_nil_or_concat' back with rfl | ⟨back', last, rfl⟩
  · obtain ⟨rfl, hlast⟩ := List.append_inj' heq rfl
    cases hlast
    exact ⟨hcreates, hrefers⟩
  · rw [← List.cons_append, ← List.append_assoc] at heq
    obtain ⟨rfl, -⟩ := List.append_inj' heq rfl
    exact h front seg' back' rfl

theorem Segment.Creates.later {r r' : Registry} (hr : r.Later r') {front : List Segment} {seg : Segment}
    (h : seg.Creates r front) : seg.Creates r' front := by
  refine h.imp_right fun ⟨q, type, hq, htype, hcreates⟩ => ⟨q, type, hq, ?_, hcreates⟩
  obtain ⟨x, hx, rfl⟩ := Option.map_eq_some_iff.1 htype
  obtain ⟨x', hx', hsame, -⟩ := hr q x hx
  exact Option.map_eq_some_iff.2 ⟨x', hx', hsame⟩

theorem Linked.later {r r' : Registry} (hr : r.Later r') {segs : List Segment} (h : Linked r segs) : Linked r' segs :=
  fun front seg back heq => ⟨(h front seg back heq).1.later hr, (h front seg back heq).2⟩

/-- What holds of a whole buffer: its creates have the numbers from 0 on, as numbers of 32 bits, one for each handle; each
call has created its node; and all references that carry a number do so for a handle. -/
structure Named (r : Registry) (segs : List Segment) : Prop where
  numbers : (creates .none (stream segs)).map (·.2) = (List.range (handles segs).length).map UInt32.ofNat
  created : ∀ front seg back, segs = front ++ seg :: back → seg.Creates r front
  items : ∀ it ∈ itemsFrom .none 0 (stream segs), ∀ n, it.entry.target = .tmp n →
    ∃ front seg back, segs = front ++ seg :: back ∧ seg.Names front it n

theorem Linked.named {r : Registry} {segs : List Segment} (h : Linked r segs) : Named r segs := by
  suffices hall : (creates .none (stream segs)).map (·.2) = (List.range (handles segs).length).map UInt32.ofNat ∧
      ∀ it ∈ itemsFrom .none 0 (stream segs), ∀ n, it.entry.target = .tmp n →
        ∃ front seg back, segs = front ++ seg :: back ∧ seg.Names front it n from
    ⟨hall.1, fun front seg back heq => (h front seg back heq).1, hall.2⟩
  induction segs using List.reverseRecOn with
  | nil => exact ⟨rfl, nofun⟩
  | append_singleton segs seg ih =>
    obtain ⟨hnumbers, hitems⟩ := ih fun front seg' back heq => h front seg' (back ++ [seg]) (by rw [heq]; simp)
    obtain ⟨hcreates, hrefers⟩ := h segs seg [] rfl
    have hstream : stream (segs ++ [seg]) = stream segs ++ seg.instrs := by
      rw [stream_append, show stream [seg] = seg.instrs from List.append_nil _]
    rw [hstream]
    constructor
    · rw [creates_append, List.map_append, hnumbers, handles_append, List.length_append]
      rcases hcreates with ⟨hmade, hcreates⟩ | ⟨q, type, hmade, -, hcreates⟩
      · have hhandles : handles [seg] = [] := by simp [handles, hmade]
        rw [hcreates, hhandles]
        simp
      · have hhandles : handles [seg] = [q] := by simp [handles, hmade]
        rw [hcreates, hhandles, List.length_singleton, List.range_succ]
        simp
    · intro it hit n hn
      rw [itemsFrom_append, List.mem_append] at hit
      rcases hit with hit | hit
      · obtain ⟨front, seg', back, rfl, hnames⟩ := hitems it hit n hn
        exact ⟨front, seg', back ++ [seg], by simp, hnames⟩
      · exact ⟨segs, seg, [], rfl, hrefers _ it hit n hn⟩

/-- The segment behind a handle. -/
theorem exists_segment {segs : List Segment} {k : Nat} {q : PendingId} (h : (handles segs)[k]? = some q) :
    ∃ front c back, segs = front ++ c :: back ∧ c.made = some q ∧ (handles front).length = k := by
  induction segs generalizing k with
  | nil => cases h
  | cons seg segs ih =>
    cases hmade : seg.made with
    | none =>
      have hhandles : handles (seg :: segs) = handles segs := by simp [handles, hmade]
      rw [hhandles] at h
      obtain ⟨front, c, back, rfl, hc, hlength⟩ := ih h
      exact ⟨seg :: front, c, back, rfl, hc, by rw [← hlength]; simp [handles, hmade]⟩
    | some p =>
      have hhandles : handles (seg :: segs) = p :: handles segs := by simp [handles, hmade]
      rw [hhandles] at h
      cases k with
      | zero =>
        cases h
        exact ⟨[], seg, segs, rfl, hmade, rfl⟩
      | succ k =>
        obtain ⟨front, c, back, rfl, hc, hlength⟩ := ih h
        exact ⟨seg :: front, c, back, rfl, hc, by rw [← hlength]; simp [handles, hmade]⟩

/-! ### Sessions and their ledgers -/

/-- The session agrees with its ledger on what is selected, on the handles of each buffer, and on their numbers. -/
structure Agrees (s : Session) (l : Ledger) : Prop where
  within : s.encoder.cursor.Within (Selection.none.after (stream l.current))
  buffered : s.registry.buffered = handles l.current
  numbered : ∀ q tmp, s.registry.status q = .ok (.buffered tmp) →
    ∃ k, (handles l.current)[k]? = some q ∧ tmp = UInt32.ofNat k
  flight : ∀ seq ps, Assoc.find? seq s.registry.inFlight = some ps → ∃ x ∈ l.closed, x.1.seq = seq ∧ handles x.2 = ps
  all : handles (l.closed.flatMap (·.2) ++ l.current) = (List.range s.registry.entries.length).map fun i => ⟨i + 1⟩
  count : ∀ x ∈ l.closed, x.1.creates = (handles x.2).length
  linked : ∀ x ∈ l.closed, Linked s.registry x.2
  current : Linked s.registry l.current

section

variable {s s' : Session} {l l' : Ledger} {w : WriteCall} {plan : Plan} {made : Option PendingId}

theorem Agrees.close (h : s.Agrees l) (hbuffer : s.encoder.buffer.isEmpty = false) :
    s.close.Agrees (l.close s.batch) := by
  rw [close_of_nonempty hbuffer]
  have hlater : s.registry.Later (s.registry.close s.nextSeq).2 := (Registry.Sends.close _ _).later
  have hmem : ∀ x ∈ (l.close s.batch).closed, x ∈ l.closed ∨ x = (s.batch, l.current) := fun x hx => by
    rw [Ledger.closed_close] at hx
    exact (List.mem_append.1 hx).imp_right List.mem_singleton.1
  refine ⟨.idle _, rfl, fun q tmp hq => ?_, fun seq ps hps => ?_, ?_, fun x hx => ?_, fun x hx => ?_, .nil _⟩
  · rcases Registry.status_close s.registry s.nextSeq q with ⟨-, -, hs⟩ | ⟨hnot, hs⟩
    · cases hs.symm.trans hq
    · obtain ⟨k, hk, -⟩ := h.numbered q tmp (hs.symm.trans hq)
      rw [← h.buffered] at hk
      exact absurd (hs.symm.trans hq) ((hnot.resolve_left fun hmem => hmem (List.mem_of_getElem? hk)) tmp)
  · have hfind : Assoc.find? seq (s.registry.close s.nextSeq).2.inFlight =
        if seq = s.nextSeq then some s.registry.buffered else Assoc.find? seq s.registry.inFlight :=
      Assoc.find?_insert ..
    rw [Ledger.closed_close]
    rw [hfind] at hps
    split at hps
    · rename_i hseq
      cases hps
      exact ⟨(s.batch, l.current), List.mem_append_right _ List.mem_cons_self, hseq.symm, h.buffered.symm⟩
    · obtain ⟨x, hx, hseq, hhandles⟩ := h.flight seq ps hps
      exact ⟨x, List.mem_append_left _ hx, hseq, hhandles⟩
  · rw [Ledger.closed_close, List.flatMap_append]
    have hlength : (s.registry.close s.nextSeq).2.entries.length = s.registry.entries.length :=
      length_entries_foldl s.registry.buffered s.registry
    simp only [List.flatMap_cons, List.flatMap_nil, List.append_nil, Ledger.close, hlength]
    exact h.all
  · rcases hmem x hx with hx | rfl
    · exact h.count x hx
    · exact congrArg List.length h.buffered
  · rcases hmem x hx with hx | rfl
    · exact (h.linked x hx).later hlater
    · exact h.current.later hlater

theorem Ledger.handles_write (l : Ledger) (seg : Segment) :
    handles (l.write seg).current = handles l.current ++ seg.made.toList := by
  rw [Ledger.write, handles_append]
  cases h : seg.made <;> simp [handles, h]

/-- The registry enters a write that went into the open buffer. -/
theorem WriteCall.enters (hno : ¬w.Overflows s) (hplan : w.plan s = .ok plan) (hact : w.act s = .ok made s')
    {rs : List Request} (hmakes : plan.Makes s.context rs) :
    s.registry.Enters s'.registry made ∧
      match plan with
      | .create t _ => ∃ q, made = some q ∧ s'.registry.typeOf? q = some t.id
      | .write .. => made = none := by
  obtain ⟨plan', waits, hs, enc, hplan', hok, hfinish⟩ := act_eq_ok hno hact
  cases hplan.symm.trans hplan'
  cases plan with
  | create t fields =>
    cases hfinish
    dsimp only
    rw [Registry.foldl_oblige]
    exact ⟨Registry.enters_register .., _, rfl, typeOf?_register s.registry t.id⟩
  | write type target op change =>
    obtain ⟨wire, node, rest, hwire, hnode, -⟩ := hmakes
    rcases writeTo_eq_ok hok with ⟨p, rfl, hdeferred, -⟩ | ⟨rfl, -⟩
    · cases hwire.symm.trans hdeferred
      cases hnode
    · cases hfinish
      dsimp only
      rw [Registry.foldl_oblige]
      exact ⟨Registry.enters_obligations .., rfl⟩

/-- The references of a write that carry a number name handles of the open buffer. -/
theorem Agrees.refers (hc : s.Compiled) (h : s.Agrees l) (hfits : plan.Fits s.schema) {rs : List Request}
    (hmakes : plan.Makes s.context rs) :
    Segment.Refers l.current ⟨w, plan, made, (aimedAll s.encoder.cursor rs).map (·.instr)⟩ := by
  intro pos it hit n hn
  obtain ⟨f, hf, href, hplace, ⟨target, edges⟩, waits, hnames, hok⟩ := hmakes.item h.within hit
  obtain ⟨q, rfl, hstatus, htype⟩ := refEntry_tmp hok hn
  refine ⟨f, hf, hplace, q, edges, ?_⟩
  -- the property of a field belongs to a layout of the schema, so it has a target
  have htarget : f.prop.target.isSome := by
    have hmeasured : f.prop.Measured := by
      cases plan with
      | create t fields => exact (hc.placed.types t hfits.1).measured _ (hfits.2 f hf)
      | write type target op change =>
        cases change with
        | update t fields => exact (hc.placed.types t hfits.1).measured _ (hfits.2 f hf)
        | delete => cases hf
        | count => cases hf
    rw [hmeasured.target, href]
  obtain ⟨expected, hexpected⟩ := Option.isSome_iff_exists.1 htarget
  obtain ⟨k, hk, rfl⟩ := h.numbered q n hstatus
  obtain ⟨front, c, back, hcurrent, hmade, hlength⟩ := exists_segment hk
  refine ⟨expected, hnames, hexpected, front, c, back, hcurrent, hmade, ?_⟩
  rcases (h.current front c back hcurrent).1 with ⟨hnone, -⟩ | ⟨q', type, hq', htypeOf, hcreates⟩
  · rw [hmade] at hnone
    cases hnone
  · cases hmade.symm.trans hq'
    rw [hcreates, hlength, htype expected type hexpected htypeOf]

/-- A segment goes into the open buffer, and the registry enters it. -/
theorem Agrees.enter (h : s.Agrees l) {seg : Segment} (henters : s.registry.Enters s'.registry seg.made)
    (hwithin : s'.encoder.cursor.Within (Selection.none.after (stream (l.write seg).current)))
    (hcreates : seg.Creates s'.registry l.current) (hrefers : seg.Refers l.current) : s'.Agrees (l.write seg) := by
  refine ⟨hwithin, ?_, fun q tmp hq => ?_, ?_, ?_, h.count, fun x hx => (h.linked x hx).later henters.later,
    (h.current.later henters.later).snoc hcreates hrefers⟩
  · rw [henters.buffered, h.buffered, Ledger.handles_write]
  · rw [Ledger.handles_write]
    rcases henters.status q tmp hq with hq | ⟨hmade, rfl⟩
    · obtain ⟨k, hk, htmp⟩ := h.numbered q tmp hq
      exact ⟨k, (List.getElem?_append_left (List.getElem?_eq_some_iff.1 hk).1).trans hk, htmp⟩
    · refine ⟨(handles l.current).length, ?_, by rw [← h.buffered]; rfl⟩
      rw [hmade]
      exact List.getElem?_concat_length ..
  · rw [henters.inFlight]
    exact h.flight
  · have hall := h.all
    rw [handles_append] at hall ⊢
    rw [Ledger.closed_write, Ledger.handles_write, ← List.append_assoc, hall, henters.length]
    cases hmade : seg.made with
    | none => simp
    | some q =>
      rw [henters.next q hmade]
      simp [List.range_succ]

theorem Agrees.write (hc : s.Compiled) (h : s.Agrees l) (hplan : w.plan s = .ok plan) (hno : ¬w.Overflows s)
    (hact : w.act s = .ok made s') {rs : List Request} (hmakes : plan.Makes s.context rs)
    (htook : s.encoder.Took s'.encoder rs) :
    s'.Agrees (l.write ⟨w, plan, made, (aimedAll s.encoder.cursor rs).map (·.instr)⟩) := by
  obtain ⟨henters, hmade⟩ := WriteCall.enters hno hplan hact hmakes
  have hcreates := hmakes.creates h.within
  refine h.enter henters ?_ ?_ (h.refers hc (WriteCall.plan_fits hc hplan) hmakes)
  · rw [htook.cursor, Ledger.write, stream_append, Selection.after_append, show stream [_] = _ from List.append_nil _]
    exact (aimedAll_hit hmakes.proper h.within).2
  · cases plan with
    | create t fields =>
      obtain ⟨q, rfl, htype⟩ := hmade
      refine .inr ⟨q, t.id, rfl, htype, hcreates.trans ?_⟩
      change [(_, UInt32.ofNat s.registry.buffered.length)] = _
      rw [h.buffered]
    | write type target op change => exact .inl ⟨hmade, hcreates⟩

theorem Agrees.note (h : s.Agrees l) {r : Registry} (hr : s.registry.Keeps r) : Agrees { s with registry := r } l := by
  refine ⟨h.within, hr.buffered.trans h.buffered, fun q tmp hq => h.numbered q tmp (hr.status q tmp hq),
    fun seq ps hps => h.flight seq ps (hr.flight seq ps hps), ?_, h.count, fun x hx => (h.linked x hx).later hr.later,
    h.current.later hr.later⟩
  rw [h.all]
  dsimp only
  rw [hr.length]

theorem Agrees.queue (h : s.Agrees l) (p : PendingId) (op : QueuedOp) :
    Agrees { s with registry := s.registry.queue p op } l := by
  have hlater := (Registry.Sends.queue s.registry p op).later
  have hbatches := Registry.modifyEntry_batches s.registry p fun e => { e with queue := e.queue ++ [op] }
  refine ⟨h.within, hbatches.1.trans h.buffered, fun q tmp hq => h.numbered q tmp ?_, fun seq ps hps => h.flight seq ps ?_,
    ?_, h.count, fun x hx => (h.linked x hx).later hlater, h.current.later hlater⟩
  · exact ((Registry.SameStates.queue s.registry p op).status q).symm.trans hq
  · exact (congrArg (Assoc.find? seq) hbatches.2).symm.trans hps
  · rw [h.all]
    exact congrArg (fun n => (List.range n).map _) (Registry.length_entries_modifyEntry ..).symm

/-- Every step keeps the session in agreement with its ledger. -/
theorem Logs.agrees (hc : s.Compiled) (h : s.Agrees l) (hlogs : Logs s l s' l') : s'.Agrees l' := by
  cases hlogs with
  | close hbuffer => exact h.close hbuffer
  | write hplan hno hact hmakes htook => exact h.write hc hplan hno hact hmakes htook
  | queue => exact h.queue _ _
  | handOut =>
    have hclosed := Ledger.closed_handOut l
    exact ⟨h.within, h.buffered, h.numbered, by rw [hclosed]; exact h.flight, by rw [hclosed]; exact h.all,
      by rw [hclosed]; exact h.count, by rw [hclosed]; exact h.linked, h.current⟩
  | note hr => exact h.note hr
  | patch => exact ⟨h.within, h.buffered, h.numbered, h.flight, h.all, h.count, h.linked, h.current⟩

variable {decl : SchemaDecl} {priority : Priority} {schema : SchemaLayout} {options : Options}

theorem Logged.agrees (hschema : decl.compile priority = .ok schema) (h : Logged schema options s l) : s.Agrees l := by
  induction h with
  | start h =>
    obtain ⟨-, -, -, hencoder, hregistry, -⟩ := started_of_start h
    refine ⟨?_, ?_, ?_, ?_, ?_, nofun, nofun, .nil _⟩
    · rw [hencoder]
      exact .idle _
    · rw [hregistry]
      rfl
    · intro q tmp hq
      rw [hregistry] at hq
      obtain ⟨x, hx, -⟩ := Registry.status_eq_ok.1 hq
      simp [Registry.entry?, Registry.empty] at hx
    · intro seq ps hps
      rw [hregistry] at hps
      cases hps
    · rw [hregistry]
      rfl
  | step h hstep ih => exact hstep.agrees (h.compiled hschema).1 ih

/-! ### Ids for handles -/

/-- The engine's answer to a batch gives its creates that have not failed the ids at their places, and no other node. -/
theorem acknowledge_resolves (hc : s.Compiled) (hs : s.registry.Sound s.nextSeq []) {seq : Nat} {ps : List PendingId}
    (hps : Assoc.find? seq s.registry.inFlight = some ps) (hnodup : ps.Nodup) {ids : List NodeId}
    (hlength : ids.length = ps.length) (q : PendingId) (id : NodeId) :
    (after (acknowledge seq (.ok ids)) s).registry.status q = .ok (.resolved id) ∧
        s.registry.status q ≠ .ok (.resolved id) ↔
      ¬s.registry.Failed q ∧ ∃ i : Nat, ps[i]? = some q ∧ ids[i]? = some id := by
  have hresult : refusal seq ps.length (.ok ids) = none := if_pos hlength
  obtain ⟨ids', pairs, r, hids, hsub, hnot, hresolves, -, hsettling⟩ := accepted_settling hc hs hps hresult
  cases hids
  have hzip : ∀ {id}, (q, id) ∈ ps.zip ids ↔ ∃ i : Nat, ps[i]? = some q ∧ ids[i]? = some id := by
    intro id
    rw [List.mem_iff_getElem?]
    exact exists_congr fun i => List.getElem?_zip_eq_some
  constructor
  · rintro ⟨hafter, hbefore⟩
    have hr : r.status q = .ok (.resolved id) := by
      rcases hsettling.continues.sends.moves hsettling.length q with hs' | ⟨tmp, seq', -, hs'⟩
      · exact hs'.symm.trans hafter
      · cases hs'.symm.trans hafter
    rcases hresolves.cases q with hs' | ⟨id', hid'⟩
    · exact absurd (hs'.symm.trans hr) hbefore
    · obtain ⟨⟨seq', hflight⟩, hid⟩ := hresolves.resolved q id' hid'
      cases hid.symm.trans hr
      refine ⟨?_, hzip.1 (hsub.subset hid')⟩
      rintro ⟨f, hf⟩
      cases hf.symm.trans hflight
  · rintro ⟨hfailed, i, hq, hid⟩
    have hflight := ((hs.sent seq ps hps).2 q (List.mem_of_getElem? hq)).resolve_right hfailed
    refine ⟨?_, fun h => by cases hflight.symm.trans h⟩
    rcases hresolves.cases q with hs' | ⟨id', hid'⟩
    · exact absurd (hs'.trans hflight) (hnot (q, id) (hzip.2 ⟨i, hq, hid⟩) seq)
    · obtain ⟨j, hq', hidj⟩ := hzip.1 (hsub.subset hid')
      have hij : i = j :=
        (List.getElem?_inj (List.getElem?_eq_some_iff.1 hq).1 hnodup).1 (hq.trans hq'.symm)
      subst hij
      cases hid.symm.trans hidj
      exact hsettling.continues.sends.later.status_resolved (hresolves.resolved q id hid').2

/-- A batch in flight has the handles that the ledger keeps for it. -/
theorem Agrees.handles_of_awaits (h : s.Agrees l) (hcounted : s.Counted l) {x : Batch × List Segment} (hx : x ∈ l.closed)
    (hawaits : s.registry.Awaits x.1.seq) :
    Assoc.find? x.1.seq s.registry.inFlight = some (handles x.2) ∧ (handles x.2).Nodup := by
  obtain ⟨ps, hps⟩ := hawaits
  obtain ⟨y, hy, hseq, rfl⟩ := h.flight _ ps hps
  have hseqs : (l.closed.map (·.1.seq)).Nodup := by
    rw [hcounted.seqs]
    exact List.nodup_range' 1
  have hxy : y = x := List.inj_on_of_nodup_map hseqs hy hx hseq
  subst hxy
  refine ⟨hps, ?_⟩
  have hall : (handles (l.closed.flatMap (·.2) ++ l.current)).Nodup := by
    rw [h.all]
    exact List.nodup_range.map fun i j hij => by cases hij; rfl
  have hsub : y.2.Sublist (l.closed.flatMap (·.2) ++ l.current) := by
    rw [List.flatMap_def]
    exact (List.sublist_flatten_of_mem (List.mem_map_of_mem hy)).trans (List.sublist_append_left ..)
  exact hall.sublist (hsub.filterMap _)

end

end Session

end NodeStore.Write
