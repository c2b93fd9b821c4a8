import NodeStore.Proofs.Query.Comparisons
import NodeStore.Proofs.Query.Evaluation

/-!
# Conditions on nodes

A condition that was compiled for a field of a layout holds on a node that fits the layout exactly if the field of the
node has what the filter says.

* `separate_eq`, `ofMain_eq`: the test of a field, by the place of the field.
* `Field.Of.wellFormed`, `Field.Of.holds`: the condition on the wire, and its test of a node.
-/

namespace NodeStore.Query

open Engine

variable {f : Field} {v : Value} {bs : Bytes}

/-! ## Separate fields -/

theorem equalityOperand_comparison (values : List Bytes) (w : Nat) :
    (equalityOperand values w).1 ∈ [Comparison.equal, .equalSmall, .equalLarge, .equalAny] := by
  unfold equalityOperand
  split
  · simp
  · simp
  · dsimp only
    split <;> simp

/-- Only tests of presence ask for presence, and every comparison has a code. -/
theorem Field.comparison_spec {operator : Operator} {comparison : Comparison} {operand : Bytes}
    (h : f.operand v operator = .ok (comparison, operand)) :
    (comparison = .exists ↔ operator = .exists ∨ operator = .notExists) ∧ ∀ code, comparison ≠ .unknown code := by
  have hequality : f.equality v = .ok (comparison, operand) →
      comparison ∈ [Comparison.equal, .equalSmall, .equalLarge, .equalAny] := by
    intro h
    unfold equality at h
    dsimp only at h
    split at h
    · cases h
    · split at h
      · obtain ⟨contents, -, h⟩ := Except.bind_eq_ok.1 h
        cases h
        decide
      · obtain ⟨values, -, h⟩ := Except.bind_eq_ok.1 h
        rw [← (Prod.mk.inj (Except.ok.inj h)).1]
        exact equalityOperand_comparison ..
  cases operator with
  | equal | notEqual =>
    have := hequality h
    simp only [List.mem_cons, List.not_mem_nil, or_false] at this
    rcases this with rfl | rfl | rfl | rfl <;> simp
  | «exists» | notExists =>
    cases h
    simp
  | _ =>
    obtain ⟨x, -, h⟩ := Except.bind_eq_ok.1 h
    cases h
    simp

/-- Where there is no value, only its absence is certain. -/
theorem Field.test_nil {operator : Operator} (h : operator ≠ .exists) (h' : operator ≠ .notExists) :
    f.test operator v [] = false := by
  cases operator with
  | between =>
    unfold test
    dsimp only
    split <;> rfl
  | includes | notIncludes =>
    unfold test
    dsimp only
    split <;> rfl
  | «exists» => exact absurd rfl h
  | notExists => exact absurd rfl h'
  | _ => rfl

/-- The ids of an operand that are among those of some links. -/
theorem Field.any_links {E : Type} (hf : f.type = .references) {ls : List (Link E)} {operand : Bytes}
    (h : f.includesOperand v = .ok operand) :
    ((Payload.pieces 4 (operand.length / 4) operand).any fun id => ls.any (leBytes 4 ·.id.toNat = id)) =
      (ls.map fun l => Held.node l.id).any fun h => (alternatives v).any fun w => f.meant? w = some h := by
  have hmeant : ∀ w, f.meant? w = (f.nodeId w).toOption.map .node := by
    intro w
    cases f with
    | id => cases hf
    | prop p =>
      have hp : p.type = .references := hf
      simp only [Field.meant?, hp]
  unfold Field.includesOperand at h
  rw [if_pos hf] at h
  obtain ⟨ids, hmap, h⟩ := Except.bind_eq_ok.1 h
  obtain ⟨-, hback, hforth⟩ := mapM_eq_ok hmap
  have hpieces : Payload.pieces 4 (operand.length / 4) operand = ids.map fun n => leBytes 4 n.toNat := by
    have hw : ∀ bs ∈ ids.map (fun n => leBytes 4 n.toNat), bs.length = 4 := by
      intro bs hbs
      obtain ⟨n, -, rfl⟩ := List.mem_map.1 hbs
      exact length_leBytes ..
    rw [← Except.ok.inj h, List.flatMap_def, length_flatten_of_width hw, Nat.mul_div_cancel _ (by decide),
      Payload.pieces_flatten hw]
  have hinj : ∀ m n : NodeId, leBytes 4 m.toNat = leBytes 4 n.toNat ↔ m = n := by
    intro m n
    refine ⟨fun h => ?_, fun h => h ▸ rfl⟩
    have := congrArg leNat h
    rw [leNat_leBytes_of_lt (w := 4) m.toNat_lt, leNat_leBytes_of_lt (w := 4) n.toNat_lt] at this
    exact UInt32.toNat.inj this
  have hnode : ∀ m n : NodeId, Held.node m = .node n ↔ m = n := by
    intro m n
    refine ⟨fun h => ?_, fun h => h ▸ rfl⟩
    simp only [Held.node, Held.number.injEq, Engine.Num.int.injEq] at h
    exact UInt32.toNat.inj (by omega)
  rw [hpieces, Bool.eq_iff_iff]
  simp only [List.any_map, List.any_eq_true, Function.comp_apply, decide_eq_true_iff, hmeant, hinj]
  constructor
  · rintro ⟨n, hn, l, hl, rfl⟩
    obtain ⟨w, hw, hwn⟩ := hback _ hn
    exact ⟨l, hl, w, hw, by rw [hwn]; rfl⟩
  · rintro ⟨l, hl, w, hw, hwl⟩
    obtain ⟨n, hn, hwn⟩ := hforth w hw
    rw [hwn] at hwl
    exact ⟨n, hn, l, hl, ((hnode _ _).1 (Option.some.inj hwl)).symm⟩

section

variable {E : Type} {pay : EdgeLayout → E → Prop} {p : PropDef EdgeLayout} {operator : Operator} {locale : UInt8}
  {c : Condition}

/-- The texts of a condition are those of its locale. -/
theorem textsOf_eq (hp : p.type = .text) (h : (Field.prop p).condition operator v locale = .ok c)
    (entries : List (UInt8 × String)) : c.textsOf entries = (textsIn locale entries).map Utf8.encode := by
  obtain ⟨-, -, -, -, -, -, -, hlocale⟩ := Field.condition_eq_ok h
  have hlocale : c.locale = locale := hlocale.trans (if_pos hp)
  unfold Condition.textsOf textsIn
  rw [hlocale]
  split
  · simp
  · simp [Option.toList_map]

/-- A field is present if it has a value. -/
theorem present_eq (h : (Field.prop p).condition operator v locale = .ok c) {field : Option (Content E)}
    (hfits : ∀ k, field = some k → k.Fits pay p) : c.present field = !(heldIn locale field).isEmpty := by
  cases field with
  | none => rfl
  | some k =>
    cases k with
    | bytes _ => rfl
    | sketch _ => rfl
    | ref _ => rfl
    | refs links => cases links <;> rfl
    | text entries =>
      rw [Condition.present, textsOf_eq (hfits _ rfl) h, heldIn, List.isEmpty_map, List.isEmpty_map]

/-- The test of a separate field is the test of the operator on its values. -/
theorem separate_eq (hm : p.Measured) (h : (Field.prop p).condition operator v locale = .ok c)
    (hsize : c.operand.length < 2 ^ 32) {field : Option (Content E)} (hfits : ∀ k, field = some k → k.Fits pay p) :
    c.separate field = .ok ((Field.prop p).test operator v (heldIn locale field)) := by
  obtain ⟨hs, ho, -, -, htype, -⟩ := Field.condition_eq_ok h
  have hexists := (Field.comparison_spec ho).1
  unfold Condition.separate
  by_cases hc : c.comparison = .exists
  · rw [if_pos hc, present_eq h hfits]
    rcases hexists.1 hc with rfl | rfl <;> rfl
  · rw [if_neg hc]
    have hoperator : operator ≠ .exists ∧ operator ≠ .notExists := by
      rw [hexists] at hc
      exact not_or.1 hc
    -- A test for presence apart, a sketch or a vector takes no operator.
    have hsupported : p.type ≠ .cardinality ∧ p.type ≠ .vector ∧ p.type ≠ .colvec := by
      refine ⟨?_, ?_, ?_⟩ <;> intro ht <;> cases operator <;>
        simp [Field.supports, Field.hasContent, Field.type, ht, PropType.isNumeric, PropType.isInteger] at hs hoperator
    cases field with
    | none => rw [heldIn, Field.test_nil hoperator.1 hoperator.2]
    | some k =>
      cases k with
      | ref l =>
        obtain ⟨ht, -⟩ := hfits _ rfl
        have hwidth : (Field.prop p).width = 4 := by simp [Field.width, ht]
        exact Field.fixed_eq (f := .prop p) hm (.inr ⟨ht, hwidth⟩) hs ho htype hc (by rw [hwidth]; simp)
          (Held.ofBytes?_node (.inr ht) l.id)
      | refs ls =>
        obtain ⟨ht, -⟩ := hfits _ rfl
        have hincludes : operator = .includes ∨ operator = .notIncludes := by
          cases operator <;>
            simp [Field.supports, Field.type, ht, PropType.isNumeric, PropType.isInteger] at hs hoperator ⊢
        have ho : (do return (Comparison.includes, ← (Field.prop p).includesOperand v)) =
            Except.ok (c.comparison, c.operand) := by rcases hincludes with rfl | rfl <;> exact ho
        obtain ⟨operand, hincl, ho⟩ := Except.bind_eq_ok.1 ho
        obtain ⟨hcomparison, rfl⟩ := Prod.mk.inj (Except.ok.inj ho)
        dsimp only
        rw [if_pos hcomparison.symm, Field.any_links (f := .prop p) ht hincl, heldIn]
        rcases hincludes with rfl | rfl <;> simp only [Field.test, Field.type, ht, if_true]
      | bytes bs =>
        have hcontent : (Field.prop p).hasContent = true := by
          rcases hfits _ rfl with ht | ht | ht | ⟨ht | ht, -⟩
          · simp [Field.hasContent, Field.type, ht]
          · simp [Field.hasContent, Field.type, ht]
          · simp [Field.hasContent, Field.type, ht]
          · exact absurd ht hsupported.2.1
          · exact absurd ht hsupported.2.2
        exact Field.content_eq hcontent hs ho hsize hc [bs]
      | text entries =>
        have ht : p.type = .text := hfits _ rfl
        have hcontent : (Field.prop p).hasContent = true := by simp [Field.hasContent, Field.type, ht]
        dsimp only
        rw [Field.content_eq hcontent hs ho hsize hc, textsOf_eq ht h, heldIn, List.map_map]
        rfl
      | sketch _ => exact absurd (hfits _ rfl) hsupported.1

end

/-! ## Conditions on nodes -/

/-- The field is the id, or one of a layout. -/
def Field.Of (t : TypeLayout) : Field → Prop
  | .id => True
  | .prop p => p ∈ t.props

section

variable {E : Type} {pay : EdgeLayout → E → Prop} {t : TypeLayout} {operator : Operator} {locale : UInt8}
  {c : Condition}

/-- The slots of ids and of the main block are no slots of separate fields. -/
theorem slot_separate (ht : t.Placed) {p : PropDef EdgeLayout} (hp : p ∈ t.props) {slot : UInt8}
    (hs : p.slot? = some slot) : slot ≠ Limits.idSlot ∧ slot ≠ Limits.mainSlot := by
  obtain ⟨hpos, hle⟩ := ht.slot_range p hp slot hs
  refine ⟨?_, ?_⟩ <;> rintro rfl
  · exact absurd hle (by decide)
  · exact absurd hpos (by decide)

theorem Field.Of.wellFormed (ht : t.Placed) (hf : f.Of t) (h : f.condition operator v locale = .ok c) :
    c.WellFormed := by
  obtain ⟨-, ho, -, -, -, hstart, hwidth, -⟩ := Field.condition_eq_ok h
  have hmax : Limits.maxMainLength = 65535 := rfl
  have hroom := ht.room
  have hplace : f.start < 2 ^ 32 ∧ f.width < 2 ^ 16 := by
    cases f with
    | id => decide
    | prop p =>
      cases hl : p.location with
      | main offset =>
        have hin := ht.inside p hf offset (by simp [PropDef.offset?, hl])
        have hstart : (Field.prop p).start = offset := by simp [start, PropDef.offset?, hl]
        have hwidth : (Field.prop p).width ≤ 4 ∨ (Field.prop p).width = p.len := by
          simp only [width]
          split
          · omega
          · split <;> omega
        omega
      | separate slot =>
        have hstart : (Field.prop p).start = 0 := by simp [start, PropDef.offset?, hl]
        have hwidth : (Field.prop p).width ≤ 4 := by
          simp only [width, PropDef.isMain, hl]
          split <;> simp
        omega
  exact ⟨(Field.comparison_spec ho).2, hstart ▸ hplace.1, hwidth ▸ hplace.2⟩

theorem ofBytes?_isSome {type : PropType} {w : Nat} (hw : type.fixedWidth = some w) (hb : bs.length = w) :
    ∃ x, Held.ofBytes? type bs = some x := by
  cases type <;> cases hw
  case number => exact ⟨.number (.float (.ofBytes bs)), by simp [Held.ofBytes?, Engine.Num.ofBytes?, hb]⟩
  case boolean | enum =>
    obtain ⟨b, rfl⟩ := List.length_eq_one_iff.1 hb
    exact ⟨_, rfl⟩
  all_goals exact ⟨_, rfl⟩

/-- The test of a field of the main block is the test of the operator on its value. -/
theorem ofMain_eq (ht : t.Placed) {p : PropDef EdgeLayout} (hp : p ∈ t.props) {offset : Nat}
    (hl : p.location = .main offset) (h : (Field.prop p).condition operator v locale = .ok c)
    (hsize : c.operand.length < 2 ^ 32) {n : Node E} (hn : n.Fits pay t) (id : NodeId) :
    c.ofMain n.main = .ok ((Field.prop p).test operator v ((Field.prop p).held locale id n)) := by
  obtain ⟨hs, ho, -, -, htype, hstart, hwidth, -⟩ := Field.condition_eq_ok h
  have hm := ht.measured p hp
  have hmain : p.isMain = true := by simp [PropDef.isMain, hl]
  have hin := ht.inside p hp offset (by simp [PropDef.offset?, hl])
  have hexists : c.comparison ≠ .exists := fun hc => by
    rcases (Field.comparison_spec ho).1.1 hc with rfl | rfl <;>
      simp [Field.supports, Field.isSeparate, hmain] at hs
  have hstart : c.start = offset := by simp [hstart, Field.start, PropDef.offset?, hl]
  have href : p.type ≠ .reference := fun hr => by
    have := hm.separate (by rw [hr]; rfl)
    rw [hmain] at this
    cases this
  have hw : (Field.prop p).width = p.len := by simp [Field.width, href, hmain]
  have hlen : ((n.main.drop offset).take p.len).length = p.len := by
    rw [List.length_take, List.length_drop, hn.main]
    omega
  unfold Condition.ofMain
  rw [hstart, hwidth, hw, if_neg (by rw [hn.main]; omega)]
  have hshort : p.type = .string ∨ p.type = .binary → c.content [shortContent ((n.main.drop offset).take p.len)] =
      .ok ((Field.prop p).test operator v [.content (shortContent ((n.main.drop offset).take p.len))]) := fun hty => by
    have hcontent : (Field.prop p).hasContent = true := by
      rcases hty with hty | hty <;> simp [Field.hasContent, Field.type, hty]
    exact Field.content_eq hcontent hs ho hsize hexists [_]
  have hfixed : ∀ w, p.type.fixedWidth = some w → c.fixed ((n.main.drop offset).take p.len) =
      .ok ((Field.prop p).test operator v (Held.ofBytes? p.type ((n.main.drop offset).take p.len)).toList) := fun w hty => by
    have hpw := (hm.fixed w hty).2
    obtain ⟨x, hx⟩ := ofBytes?_isSome hty (hlen.trans hpw)
    rw [hx]
    exact Field.fixed_eq (f := .prop p) hm (.inl (hw ▸ hpw ▸ hty)) hs ho htype hexists (hlen.trans hw.symm) hx
  have htype : c.type = p.type := htype
  have hnone : p.type.fixedWidth = none → p.type = .string ∨ p.type = .binary := fun h => (hm.short hmain h).1
  dsimp only
  simp only [Field.held, hl, htype]
  cases hty : p.type <;> rw [hty] at hshort hfixed hnone <;> first
    | exact hshort (by simp)
    | exact hfixed _ rfl
    | (exact absurd (hnone rfl) (by simp))

/-- A condition holds on a node exactly if the node satisfies it. -/
theorem Field.Of.holds (ht : t.Placed) (hf : f.Of t) {n : Node E} (hn : n.Fits pay t) (id : NodeId)
    (h : f.condition operator v locale = .ok c) (hsize : c.operand.length < 2 ^ 32) :
    Decides (c.holds id n) (f.Satisfies operator v locale id n) := by
  obtain ⟨hs, ho, hnegate, hslot, htype, -⟩ := Field.condition_eq_ok h
  suffices hhit : (if c.slot = Limits.idSlot then c.fixed (leBytes 4 id.toNat)
      else if c.slot = Limits.mainSlot then c.ofMain n.main
      else c.separate (n.field? c.slot)) = .ok (f.test operator v (f.held locale id n)) by
    refine ⟨f.test operator v (f.held locale id n) != operator.negated, ?_, ?_⟩
    · unfold Condition.holds
      split at hhit
      · rename_i hid
        rw [if_pos hid, hhit, hnegate]
        rfl
      · rename_i hid
        rw [if_neg hid]
        split at hhit
        · rename_i hmain
          rw [if_pos hmain, hhit, hnegate]
          rfl
        · rename_i hmain
          rw [if_neg hmain, hhit, hnegate]
          rfl
    · unfold Satisfies
      cases f.test operator v (f.held locale id n) <;> cases operator.negated <;> simp
  rw [hslot]
  cases f with
  | id =>
    have hexists : c.comparison ≠ .exists := fun hc => by
      rcases (Field.comparison_spec ho).1.1 hc with rfl | rfl <;> cases hs
    rw [if_pos (show Field.id.slot = Limits.idSlot from rfl)]
    exact Field.fixed_eq (f := .id) trivial (.inl rfl) hs ho htype hexists (length_leBytes ..)
      (Held.ofBytes?_node (.inl rfl) id)
  | prop p =>
    cases hl : p.location with
    | main offset =>
      have hmain : (Field.prop p).slot = Limits.mainSlot := by simp [slot, PropDef.slot?, hl]
      rw [hmain, if_neg (by decide), if_pos rfl]
      exact ofMain_eq ht hf hl h hsize hn id
    | separate slot =>
      have hp : p.slot? = some slot := by simp [PropDef.slot?, hl]
      have hsep : (Field.prop p).slot = slot := by simp [Field.slot, hp]
      obtain ⟨hid, hmain⟩ := slot_separate ht hf hp
      rw [hsep, if_neg hid, if_neg hmain]
      simp only [held, hl]
      exact separate_eq (ht.measured p hf) h hsize fun k hk => hn.content ht hf hp hk

end

end NodeStore.Query
