import NodeStore.Proofs.Engine.Number
import NodeStore.Proofs.Engine.Shape
import NodeStore.Proofs.Query.Meaning
import NodeStore.Proofs.Wire.RoundTrip

/-!
# Comparisons with operands

The operand of a comparison stands for the values that the filter names, in the form in which the field stores them, so
comparing bytes is testing values.

* `Field.isFixed`: fields whose values have a width; `Held.ofBytes?_inj` and `Field.fixedBytes_spec` say that such a
  value and its bytes determine each other.
* `Field.fixed_eq`, `Field.content_eq`: the two kinds of comparison are the test of the operator.
-/

namespace NodeStore.Query

open Engine

/-! ## Values of a fixed width -/

/-- A property keeps to what its type asks for. -/
def Field.Measured : Field → Prop
  | .id => True
  | .prop p => p.Measured

/-- The values of the field have a fixed width. -/
def Field.isFixed (f : Field) : Prop := f.type.fixedWidth = some f.width ∨ f.type = .reference ∧ f.width = 4

variable {f : Field} {v : Value} {bs cs : Bytes} {x y : Held}

theorem Field.width_pos (h : f.isFixed) : 0 < f.width ∧ f.width ≤ 8 := by
  rcases h with h | ⟨-, h⟩
  · cases ht : f.type <;> rw [ht] at h <;> simp only [PropType.fixedWidth, Option.some.injEq, reduceCtorEq] at h <;> omega
  · omega

/-- Bytes of the same width that stand for the same value are the same. -/
theorem Held.ofBytes?_inj (hf : f.isFixed) (hb : bs.length = f.width) (hc : cs.length = f.width)
    (hbs : Held.ofBytes? f.type bs = some x) (hcs : Held.ofBytes? f.type cs = some x) : bs = cs := by
  have hlen : bs.length = cs.length := hb.trans hc.symm
  have hmax : cs.length ≤ 8 := hc ▸ (Field.width_pos hf).2
  have hlabel : f.width = 1 → bs.head?.map Held.label = some x → cs.head?.map Held.label = some x → bs = cs := by
    intro hw hbs hcs
    obtain ⟨b, rfl⟩ := List.length_eq_one_iff.1 (hb.trans hw)
    obtain ⟨c, rfl⟩ := List.length_eq_one_iff.1 (hc.trans hw)
    simp only [List.head?_cons, Option.map_some, Option.some.injEq] at hbs hcs
    rw [← hcs] at hbs
    cases hbs
    rfl
  have hint : ∀ signed, some (Held.number (.int (readInt signed bs))) = some x →
      some (Held.number (.int (readInt signed cs))) = some x → bs = cs := by
    intro signed hbs hcs
    rw [← hcs] at hbs
    simp only [Option.some.injEq, Held.number.injEq, Engine.Num.int.injEq] at hbs
    exact readInt_inj hlen hmax hbs
  have hfloat : bs.length = 8 → some (Held.number (.float (.ofBytes bs))) = some x →
      some (Held.number (.float (.ofBytes cs))) = some x → bs = cs := by
    intro h8 hbs hcs
    rw [← hcs] at hbs
    simp only [Option.some.injEq, Held.number.injEq, Engine.Num.float.injEq, Binary64.ofBytes, Binary64.mk.injEq] at hbs
    have h1 := leNat_lt bs
    have h2 := leNat_lt cs
    rw [← hlen, h8] at h2
    rw [h8] at h1
    have := congrArg UInt64.toNat hbs
    rw [UInt64.toNat_ofNat_of_lt' h1, UInt64.toNat_ofNat_of_lt' h2] at this
    exact leNat_inj hlen this
  rcases hf with hf | ⟨hf, -⟩
  · cases ht : f.type <;> rw [ht] at hf hbs hcs <;>
      simp only [PropType.fixedWidth, Option.some.injEq, reduceCtorEq] at hf
    case number =>
      simp only [Held.ofBytes?, Engine.Num.ofBytes?, if_pos, hb, hc, ← hf, Option.map_some] at hbs hcs
      exact hfloat (hb.trans hf.symm) hbs hcs
    case boolean | enum => exact hlabel hf.symm hbs hcs
    all_goals exact hint _ hbs hcs
  · rw [hf] at hbs hcs
    exact hint _ hbs hcs

/-- The node that an operand stands for. -/
theorem Field.meant?_node {n : NodeId} (h : f.nodeId v = .ok n) :
    (f.nodeId v).toOption.map Held.node = some (.node n) := by
  rw [h]
  rfl

theorem Held.ofBytes?_node {type : PropType} (h : type = .uint32 ∨ type = .reference) (n : NodeId) :
    Held.ofBytes? type (leBytes 4 n.toNat) = some (.node n) := by
  have hread : readInt false (leBytes 4 n.toNat) = (n.toNat : Int) := by
    have hlt : n.toNat < 256 ^ 4 := n.toNat_lt
    rw [readInt, if_neg (by decide), List.take_of_length_le (by simp), leNat_leBytes_of_lt hlt]
  rcases h with rfl | rfl
  · exact congrArg (fun i => some (Held.number (.int i))) hread
  · exact congrArg (fun i => some (Held.number (.int i))) hread

theorem validateInteger_spec {E : Type} {p : PropDef E} (h : p.validateInteger v = .ok ()) {low high : Int}
    (hrange : p.type.intRange? = some (low, high)) : ∃ i, v.asInt? = some i ∧ low ≤ i.toInt ∧ i.toInt ≤ high := by
  unfold PropDef.validateInteger at h
  split at h
  · cases h
  · rename_i i hi
    rw [hrange] at h
    dsimp only at h
    split at h
    · cases h
    · rename_i hr
      exact ⟨i, hi, by omega, by omega⟩

/-- What is written for a value of a fixed width stands for it. -/
theorem encodeFixed_spec {p : PropDef EdgeLayout} {w : Nat} (hw : p.type.fixedWidth = some w)
    (hv : p.validateBuiltin v = .ok ()) (h : p.encodeFixed w v = .ok bs) :
    ∃ x, (Field.prop p).meant? v = some x ∧ Held.ofBytes? p.type bs = some x := by
  have hint : ∀ {low high}, p.type.intRange? = some (low, high) → p.validateInteger v = .ok () →
      ∀ i, v.asInt? = some i → readInt p.type.isSigned (intBytes w i.toInt) = i.toInt := by
    intro low high hrange hv i hi
    obtain ⟨j, hj, hlow, hhigh⟩ := validateInteger_spec hv hrange
    rw [hi] at hj
    cases hj
    exact readInt_intBytes hrange hw hlow hhigh
  unfold PropDef.encodeFixed at h
  split at h
  · cases h
  unfold PropDef.validateBuiltin at hv
  cases ht : p.type <;> rw [ht] at hw <;> simp only [PropType.fixedWidth, Option.some.injEq, reduceCtorEq] at hw
  case number =>
    simp only [ht] at h
    split at h
    · rename_i x hx
      cases h
      refine ⟨.number (.float x), by simp [Field.meant?, ht, hx], ?_⟩
      simp [Held.ofBytes?, Engine.Num.ofBytes?, Binary64.ofBytes_toBytes]
    · cases h
  case boolean =>
    simp only [ht] at h
    split at h
    · rename_i b
      cases h
      exact ⟨.label (if b then 1 else 0), by simp [Field.meant?, ht], rfl⟩
    · cases h
  case enum =>
    simp only [ht] at h
    split at h
    · cases h
    · rename_i label hl
      split at h
      · rename_i i hi
        cases h
        exact ⟨.label i, by simp [Field.meant?, ht, hl, hi], rfl⟩
      · cases h
  all_goals
    simp only [ht, PropType.isInteger, if_true] at h hv
    split at h
    · rename_i i hi
      cases h
      have hnull : v.isNull = false := by cases v <;> first | rfl | cases hi
      rw [hnull] at hv
      rw [ht] at hint
      have := hint rfl hv i hi
      exact ⟨.number (.int i.toInt), by simp [Field.meant?, ht, hi], congrArg (fun i => some (Held.number (.int i))) this⟩
    · cases h

/-- The bytes of an operand stand for the value that the operand stands for. -/
theorem Field.fixedBytes_spec (hm : f.Measured) (hf : f.isFixed) (h : f.fixedBytes v = .ok bs) :
    bs.length = f.width ∧ ∃ x, f.meant? v = some x ∧ Held.ofBytes? f.type bs = some x := by
  cases f with
  | id =>
    obtain ⟨n, hn, h⟩ := Except.bind_eq_ok.1 h
    cases h
    exact ⟨length_leBytes .., .node n, Field.meant?_node hn, Held.ofBytes?_node (.inl rfl) n⟩
  | prop p =>
    unfold fixedBytes at h
    dsimp only at h
    split at h
    · rename_i ht
      obtain ⟨n, hn, h⟩ := Except.bind_eq_ok.1 h
      cases h
      refine ⟨by simp [width, ht], .node n, ?_, Held.ofBytes?_node (.inr ht) n⟩
      have := Field.meant?_node hn
      simpa only [meant?, ht] using this
    · rename_i hne
      have hw : p.type.fixedWidth = some (Field.prop p).width := hf.resolve_right fun h => hne h.1
      obtain ⟨-, hlen⟩ := hm.fixed _ hw
      split at h
      · cases h
      · rename_i hvalid
        split at h
        · cases h
        · rename_i henc
          cases h
          exact ⟨(Schema.length_encodeFixed hm henc).trans hlen, encodeFixed_spec (hlen ▸ hw) hvalid henc⟩

/-! ## Comparisons of a fixed width -/

/-- The value is one of those packed into the operand. -/
theorem Condition.fixed_equality {c : Condition} {values : List Bytes} {w : Nat} (hne : values ≠ [])
    (hw : ∀ cs ∈ values, cs.length = w) (hpos : 0 < w) (hb : bs.length = w)
    (h : equalityOperand values w = (c.comparison, c.operand)) : c.fixed bs = .ok (decide (bs ∈ values)) := by
  obtain ⟨comparison, negate, slot, type, start, width, locale, operand⟩ := c
  match values, hne, h with
  | [cs], _, h =>
    cases h
    simp [Condition.fixed]
  | first :: second :: rest, _, h =>
    have hpadded : ∀ cs ∈ padded (lanes w) first (first :: second :: rest), cs.length = w := by
      intro cs hcs
      rcases List.mem_append.1 hcs with hcs | hcs
      · exact hw cs hcs
      · exact (List.mem_replicate.1 hcs).2 ▸ hw first List.mem_cons_self
    have hcontains : bs ∈ padded (lanes w) first (first :: second :: rest) ↔ bs ∈ first :: second :: rest := by
      rw [padded, List.mem_append, or_iff_left_of_imp]
      intro hbs
      exact (List.mem_replicate.1 hbs).2 ▸ List.mem_cons_self
    have hpieces : Payload.pieces bs.length (operand.length / bs.length) operand =
        padded (lanes w) first (first :: second :: rest) := by
      obtain rfl : (padded (lanes w) first (first :: second :: rest)).flatten = operand := (Prod.mk.inj h).2
      rw [hb, length_flatten_of_width hpadded, Nat.mul_div_cancel _ hpos, Payload.pieces_flatten hpadded]
    have hfixed : (Condition.mk comparison negate slot type start width locale operand).fixed bs =
        .ok ((Payload.pieces bs.length (operand.length / bs.length) operand).contains bs) := by
      obtain rfl : (if (first :: second :: rest).length ≤ lanes w then .equalSmall else .equalLarge) = comparison :=
        (Prod.mk.inj h).1
      split <;> rfl
    rw [hfixed, hpieces, List.contains_eq_mem]
    simp only [hcontains]

/-- What a condition is made of. -/
theorem Field.condition_eq_ok {operator : Operator} {locale : UInt8} {c : Condition}
    (h : f.condition operator v locale = .ok c) :
    f.supports operator = true ∧ f.operand v operator = .ok (c.comparison, c.operand) ∧
      c.negate = operator.negated ∧ c.slot = f.slot ∧ c.type = f.type ∧ c.start = f.start ∧ c.width = f.width ∧
      c.locale = if f.type = .text then locale else 0 := by
  unfold condition at h
  cases hsupports : f.supports operator with
  | false =>
    rw [hsupports] at h
    cases h
  | true =>
    rw [hsupports] at h
    obtain ⟨⟨comparison, operand⟩, ho, h⟩ := Except.bind_eq_ok.1 h
    cases h
    exact ⟨rfl, ho, rfl, rfl, rfl, rfl, rfl, rfl⟩

theorem Field.isFixed.noContent (hf : f.isFixed) : f.hasContent = false ∧ f.type ≠ .references := by
  rcases hf with hf | ⟨hf, -⟩
  · cases ht : f.type <;> rw [ht] at hf <;> simp_all [PropType.fixedWidth, hasContent]
  · simp [hasContent, hf]

/-- One of some values is meant exactly if its bytes are among theirs. -/
theorem Field.meant_iff_mem (hm : f.Measured) (hf : f.isFixed) {vs : List Value} {values : List Bytes}
    (h : vs.mapM f.fixedBytes = .ok values) (hb : bs.length = f.width) (hx : Held.ofBytes? f.type bs = some x) :
    (vs.any fun w => f.meant? w = some x) = decide (bs ∈ values) := by
  obtain ⟨-, hback, hforth⟩ := mapM_eq_ok h
  rw [Bool.eq_iff_iff, List.any_eq_true, decide_eq_true_iff]
  constructor
  · rintro ⟨w, hw, hmeant⟩
    obtain ⟨cs, hcs, hwcs⟩ := hforth w hw
    obtain ⟨hlen, y, hy, hcsy⟩ := f.fixedBytes_spec hm hf hwcs
    obtain rfl : y = x := Option.some.inj (hy.symm.trans (of_decide_eq_true hmeant))
    rwa [Held.ofBytes?_inj hf hb hlen hx hcsy]
  · intro hbs
    obtain ⟨w, hw, hwbs⟩ := hback bs hbs
    obtain ⟨-, y, hy, hbsy⟩ := f.fixedBytes_spec hm hf hwbs
    refine ⟨w, hw, decide_eq_true ?_⟩
    rw [hy, ← hbsy, hx]

/-- Numbers are ordered as the bytes of the operand say. -/
theorem Field.ordering_eq (hm : f.Measured) (hf : f.isFixed) (hn : f.type.isNumeric = true) {c : Condition}
    (ht : c.type = f.type) (h : f.fixedBytes v = .ok c.operand) (hx : Held.ofBytes? f.type bs = some x) :
    c.ordering? bs = f.order? v x := by
  have hnum : ∀ cs, Held.ofBytes? f.type cs = (Engine.Num.ofBytes? f.type cs).map .number := by
    intro cs
    cases hty : f.type <;> first
      | rfl
      | rw [hty] at hn; cases hn
  obtain ⟨-, y, hy, hoy⟩ := f.fixedBytes_spec hm hf h
  rw [hnum, Option.map_eq_some_iff] at hx hoy
  obtain ⟨a, ha, rfl⟩ := hx
  obtain ⟨b, hb, rfl⟩ := hoy
  simp only [Condition.ordering?, order?, ht, ha, hb, hy, Option.bind_eq_bind, Option.bind_some]

/-- An integer operand of an integer field stands for itself. -/
theorem Field.meant?_int (hf : f.type.isInteger = true) {i : Int64} (hi : v.asInt? = some i) (h : f.meant? v = some x) :
    x = .number (.int i.toInt) := by
  cases f with
  | id =>
    have hnode : (Field.id.nodeId v).toOption.map Held.node = some x := h
    unfold nodeId at hnode
    split at hnode
    · cases hi
    · cases hi
    · rw [hi] at hnode
      dsimp only at hnode
      split at hnode
      · rename_i hrange
        have hlt : i.toInt.toNat < 2 ^ 32 := by omega
        cases hnode
        rw [Held.node, UInt32.toNat_ofNat_of_lt' hlt, Int.toNat_of_nonneg hrange.1]
      · cases hnode
  | prop p =>
    have hx : (v.asInt?.map fun i => Held.number (.int i.toInt)) = some x := by
      unfold meant? at h
      cases ht : p.type <;> simp only [ht] at h <;> first
        | exact h
        | (change p.type.isInteger = true at hf; rw [ht] at hf; cases hf)
    rw [hi] at hx
    cases hx
    rfl

/-- A range of doubles. -/
theorem Condition.inRange_double {c : Condition} (ht : c.type = .number) {low : Bytes} {distance : Binary64}
    (hb : bs.length = 8) (hlow : low.length = 8) (ho : c.operand = low ++ distance.toBytes) :
    c.inRange bs = .ok ((Binary64.ofBytes low).le (.ofBytes bs) &&
      (Binary64.ofBytes bs).le ((Binary64.ofBytes low).add distance)) := by
  have hread : ∀ cs : Bytes, cs.length = 8 → Engine.Num.ofBytes? .number cs = some (.float (.ofBytes cs)) := fun cs hcs => by
    rw [Engine.Num.ofBytes?, if_pos rfl, if_pos hcs]
  have hlen : bs.length = low.length := hb.trans hlow.symm
  unfold Condition.inRange
  rw [ho, hlen, List.take_left, List.drop_left, if_neg (by simp), ht]
  dsimp only
  rw [if_pos rfl, hread bs hb, hread low hlow, hread _ (Binary64.length_toBytes _), Binary64.ofBytes_toBytes]

/-- A range of integers. -/
theorem Condition.inRange_int {c : Condition} (ht : c.type ≠ .number) {low : Bytes} (hmax : low.length ≤ 8)
    (hlen : bs.length = low.length) {distance : Int} (h0 : 0 ≤ distance) (hd : distance < (256 ^ low.length : Nat))
    (ho : c.operand = low ++ intBytes low.length distance) :
    c.inRange bs = .ok (decide (0 ≤ readInt c.type.isSigned bs - readInt c.type.isSigned low) &&
      decide (readInt c.type.isSigned bs - readInt c.type.isSigned low ≤ distance)) := by
  have hread : readInt false (intBytes low.length distance) = distance := by
    rw [readInt, if_neg (by decide), List.take_of_length_le (by simpa using hmax), leNat_intBytes h0 hd]
  unfold Condition.inRange
  rw [ho, hlen, List.take_left, List.drop_left, if_neg (by simp)]
  dsimp only
  rw [if_neg ht, hread]

/-- The range of an operand is that between its two values, for integers. -/
theorem Field.inRange_int (hm : f.Measured) (hf : f.isFixed) (hinteger : f.type.isInteger = true) {c : Condition}
    (ht : c.type = f.type) {least greatest : Value} {lo hi : Int64} {low high : Bytes}
    (hlo : least.asInt? = some lo) (hhi : greatest.asInt? = some hi) (hle : lo.toInt ≤ hi.toInt)
    (hlow : f.fixedBytes least = .ok low) (hhigh : f.fixedBytes greatest = .ok high)
    (ho : c.operand = low ++ intBytes low.length (hi.toInt - lo.toInt)) (hb : bs.length = f.width)
    (hx : Held.ofBytes? f.type bs = some x) : c.inRange bs = .ok (f.inRange least greatest x) := by
  have hread : ∀ cs, Held.ofBytes? f.type cs = some (.number (.int (readInt f.type.isSigned cs))) := by
    intro cs
    cases hty : f.type <;> first
      | rfl
      | (rw [hty] at hinteger; cases hinteger)
  have hnumber : c.type ≠ .number := fun h => by
    rw [← ht, h] at hinteger
    cases hinteger
  obtain ⟨hlowlen, y, hy, hlowy⟩ := f.fixedBytes_spec hm hf hlow
  obtain ⟨hhighlen, z, hz, hhighz⟩ := f.fixedBytes_spec hm hf hhigh
  obtain rfl := f.meant?_int hinteger hlo hy
  obtain rfl := f.meant?_int hinteger hhi hz
  rw [hread, Option.some.injEq, Held.number.injEq, Engine.Num.int.injEq] at hlowy hhighz
  obtain rfl : .number (.int (readInt f.type.isSigned bs)) = x := Option.some.inj ((hread bs).symm.trans hx)
  have hmax : f.width ≤ 8 := (f.width_pos hf).2
  have hsize := readInt_sub_lt f.type.isSigned hmax hhighlen hlowlen
  rw [hlowy, hhighz, ← hlowlen] at hsize
  rw [Condition.inRange_int hnumber (hlowlen ▸ hmax) (hb.trans hlowlen.symm) (by omega) hsize ho, ht, hlowy]
  simp only [inRange, hy, hz]
  congr 2 <;> exact decide_eq_decide.2 (by omega)

/-- The range of an operand is that between its two values, for doubles. -/
theorem Field.inRange_double (hm : f.Measured) (hf : f.isFixed) (hnumber : f.type = .number) {c : Condition}
    (ht : c.type = f.type) {least greatest : Value} {lo hi : Binary64} {low : Bytes}
    (hlo : least.asDouble? = some lo) (hhi : greatest.asDouble? = some hi) (hlow : f.fixedBytes least = .ok low)
    (ho : c.operand = low ++ (hi.sub lo).toBytes) (hb : bs.length = f.width) (hx : Held.ofBytes? f.type bs = some x) :
    c.inRange bs = .ok (f.inRange least greatest x) := by
  have hw : f.width = 8 := by
    rcases hf with hf | ⟨hf, -⟩
    · rw [hnumber] at hf
      exact (Option.some.inj hf).symm
    · rw [hnumber] at hf
      cases hf
  have hmeant : ∀ {u z}, u.asDouble? = some z → f.meant? u = some (.number (.float z)) := by
    intro u z hz
    cases f with
    | id => cases hnumber
    | prop p =>
      have hp : p.type = .number := hnumber
      simp [meant?, hp, hz]
  have hread : ∀ cs : Bytes, cs.length = 8 → Held.ofBytes? f.type cs = some (.number (.float (.ofBytes cs))) :=
    fun cs hcs => by simp [hnumber, Held.ofBytes?, Engine.Num.ofBytes?, hcs]
  obtain ⟨hlowlen, y, hy, hlowy⟩ := f.fixedBytes_spec hm hf hlow
  rw [hread _ (hb.trans hw)] at hx
  rw [hread _ (hlowlen.trans hw)] at hlowy
  rw [hmeant hlo] at hy
  cases hx
  cases hlowy
  cases hy
  rw [Condition.inRange_double (ht.trans hnumber) (hb.trans hw) (hlowlen.trans hw) ho]
  simp only [inRange, hmeant hlo, hmeant hhi]

/-- The range of an operand is that between its two values. -/
theorem Field.inRange_eq (hm : f.Measured) (hf : f.isFixed) (hn : f.type.isNumeric = true) {c : Condition}
    (ht : c.type = f.type) (h : f.rangeOperand v = .ok c.operand) (hb : bs.length = f.width)
    (hx : Held.ofBytes? f.type bs = some x) :
    ∃ least greatest, alternatives v = [least, greatest] ∧ c.inRange bs = .ok (f.inRange least greatest x) := by
  unfold rangeOperand at h
  split at h
  · rename_i least greatest halt
    refine ⟨least, greatest, halt, ?_⟩
    obtain ⟨low, hlow, h⟩ := Except.bind_eq_ok.1 h
    split at h
    · rename_i hnumber
      split at h
      · rename_i lo hi hlo hhi
        split at h
        · cases h
        · exact f.inRange_double hm hf hnumber ht hlo hhi hlow (Except.ok.inj h).symm hb hx
      · cases h
    · rename_i hnumber
      have hinteger : f.type.isInteger = true :=
        (Bool.or_eq_true_iff.1 hn).resolve_right fun h => hnumber (of_decide_eq_true h)
      split at h
      · rename_i lo hi hlo hhi
        split at h
        · cases h
        · obtain ⟨high, hhigh, h⟩ := Except.bind_eq_ok.1 h
          exact f.inRange_int hm hf hinteger ht hlo hhi (by omega) hlow hhigh (Except.ok.inj h).symm hb hx
      · cases h
  · cases h

/-- The comparison of a value of a fixed width is the test of the operator. -/
theorem Field.fixed_eq (hm : f.Measured) (hf : f.isFixed) {operator : Operator} (hs : f.supports operator = true)
    {c : Condition} (ho : f.operand v operator = .ok (c.comparison, c.operand)) (ht : c.type = f.type)
    (hne : c.comparison ≠ .exists) (hb : bs.length = f.width) (hx : Held.ofBytes? f.type bs = some x) :
    c.fixed bs = .ok (f.test operator v [x]) := by
  have hequality : f.equality v = .ok (c.comparison, c.operand) →
      c.fixed bs = .ok ([x].any fun h => (alternatives v).any fun w => f.meant? w = some h) := by
    intro h
    unfold equality at h
    dsimp only at h
    split at h
    · cases h
    · rename_i hvalues
      rw [hf.noContent.1] at h
      obtain ⟨values, hmap, h⟩ := Except.bind_eq_ok.1 h
      have hlen := (mapM_eq_ok hmap).1
      have hwidths : ∀ cs ∈ values, cs.length = f.width := fun cs hcs => by
        obtain ⟨w, -, hw⟩ := (mapM_eq_ok hmap).2.1 cs hcs
        exact (f.fixedBytes_spec hm hf hw).1
      have hvalues' : values ≠ [] := fun h => hvalues (by
        rw [h] at hlen
        exact List.isEmpty_iff.2 (List.eq_nil_of_length_eq_zero hlen.symm))
      rw [Condition.fixed_equality hvalues' hwidths (f.width_pos hf).1 hb (Except.ok.inj h), List.any_cons, List.any_nil,
        Bool.or_false, f.meant_iff_mem hm hf hmap hb hx]
  have hordering : ∀ {comparison}, f.supports .greater = true →
      (do return (comparison, ← f.fixedBytes v)) = Except.ok (c.comparison, c.operand) →
        c.comparison = comparison ∧ c.ordering? bs = f.order? v x := by
    intro comparison hn h
    obtain ⟨operand, hfixed, h⟩ := Except.bind_eq_ok.1 h
    cases h
    exact ⟨rfl, f.ordering_eq hm hf hn ht hfixed hx⟩
  cases operator with
  | equal | notEqual => exact hequality ho
  | greater | greaterEq | less | lessEq =>
    obtain ⟨hcomparison, horder⟩ := hordering hs ho
    simp only [Condition.fixed, hcomparison, horder, test, List.any_cons, List.any_nil, Bool.or_false]
  | between =>
    obtain ⟨operand, hrange, h⟩ := Except.bind_eq_ok.1 ho
    obtain ⟨hcomparison, hoperand⟩ := Prod.mk.inj (Except.ok.inj h)
    obtain ⟨least, greatest, halt, hin⟩ := f.inRange_eq hm hf hs ht (hoperand ▸ hrange) hb hx
    simp only [Condition.fixed, ← hcomparison, hin, test, halt, List.any_cons, List.any_nil, Bool.or_false]
  | includes | notIncludes =>
    have hs : (f.hasContent || decide (f.type = .references)) = true := hs
    rw [hf.noContent.1, decide_eq_false hf.noContent.2] at hs
    cases hs
  | «exists» | notExists =>
    exact absurd (Prod.mk.inj (Except.ok.inj ho)).1.symm hne

/-! ## Comparisons of contents -/

/-- The search of the candidates for one of some contents that stand in a row. -/
theorem Condition.anyWanted_eq (candidates contents : List Bytes) (h : ∀ bs ∈ contents, bs.length < 2 ^ 32)
    (pos : Nat) (rest : Bytes) : ∃ r, Condition.anyWanted candidates contents.length
      ⟨pos, contents.flatMap Wire.sized ++ rest⟩ = .ok (contents.any candidates.contains) r := by
  induction contents generalizing pos with
  | nil => exact ⟨_, rfl⟩
  | cons bs contents ih =>
    have hread := Wire.Reads.sized (h bs List.mem_cons_self) "value" pos (contents.flatMap Wire.sized ++ rest)
    rw [List.flatMap_cons, List.append_assoc, List.length_cons, anyWanted]
    change ∃ r, EStateM.bind _ _ _ = _
    unfold EStateM.bind
    rw [hread]
    dsimp only
    rw [List.any_cons]
    cases candidates.contains bs with
    | true => exact ⟨_, rfl⟩
    | false => exact ih (fun cs hcs => h cs (List.mem_cons_of_mem _ hcs)) _

/-- One of the contents of the operand is among the candidates. -/
theorem Condition.anyContent_eq (candidates : List Bytes) {contents : List Bytes} {operand : Bytes}
    (ho : operand = leBytes 4 contents.length ++ contents.flatMap Wire.sized) (hsize : operand.length < 2 ^ 32) :
    ofWire ((anyContent candidates).run operand) = .ok (contents.any candidates.contains) := by
  subst ho
  rw [List.length_append, length_leBytes] at hsize
  have hread := Wire.Reads.nat (w := 4) (n := contents.length)
    (Nat.lt_of_le_of_lt (Wire.length_le_length_flatMap Wire.length_sized_pos contents) (by omega)) "value count" 0 (contents.flatMap Wire.sized)
  obtain ⟨r, hr⟩ := anyWanted_eq candidates contents
    (fun bs hbs => by
      have hle := Wire.length_le_flatMap_of_mem Wire.sized hbs
      rw [Wire.length_sized] at hle
      omega) 4 []
  rw [List.append_nil] at hr
  have : anyContent candidates (.ofBytes (leBytes 4 contents.length ++ contents.flatMap Wire.sized)) =
      .ok (contents.any candidates.contains) r := by
    unfold anyContent
    change EStateM.bind _ _ _ = _
    unfold EStateM.bind Wire.Reader.ofBytes
    rw [hread]
    simpa using hr
  rw [Wire.Read.run, this]
  rfl

/-- The comparison of contents is the test of the operator. -/
theorem Field.content_eq (hf : f.hasContent = true) {operator : Operator} (hs : f.supports operator = true)
    {c : Condition} (ho : f.operand v operator = .ok (c.comparison, c.operand)) (hsize : c.operand.length < 2 ^ 32)
    (hne : c.comparison ≠ .exists) (candidates : List Bytes) :
    c.content candidates = .ok (f.test operator v (candidates.map .content)) := by
  have hmeant : ∀ v, f.meant? v = (f.content v).toOption.map .content := by
    intro v
    cases f with
    | id => cases hf
    | prop p =>
      cases ht : p.type <;> first
        | (simp [hasContent, type, ht] at hf; done)
        | simp only [meant?, ht]
  have hrefs : f.type ≠ .references := by
    intro ht
    simp [hasContent, ht] at hf
  have hnumeric : f.type.isNumeric = false := by
    cases ht : f.type <;> first
      | rfl
      | simp [hasContent, ht] at hf
  have hequality : f.equality v = .ok (c.comparison, c.operand) → c.content candidates = .ok
      ((candidates.map Held.content).any fun h => (alternatives v).any fun w => f.meant? w = some h) := by
    intro h
    unfold equality at h
    dsimp only at h
    split at h
    · cases h
    · obtain ⟨contents, hmap, h⟩ := Except.bind_eq_ok.1 h
      obtain ⟨hcomparison, hoperand⟩ := Prod.mk.inj (Except.ok.inj h)
      rw [Condition.content, ← hcomparison]
      dsimp only
      rw [Condition.anyContent_eq candidates hoperand.symm hsize, Except.ok.injEq, Bool.eq_iff_iff]
      obtain ⟨-, hback, hforth⟩ := mapM_eq_ok hmap
      simp only [List.any_eq_true, List.any_map, List.contains_eq_mem, decide_eq_true_iff, Function.comp_apply, hmeant]
      constructor
      · rintro ⟨bs, hbs, hmem⟩
        obtain ⟨w, hw, hwbs⟩ := hback bs hbs
        exact ⟨bs, hmem, w, hw, by rw [hwbs]; rfl⟩
      · rintro ⟨bs, hmem, w, hw, hwbs⟩
        obtain ⟨cs, hcs, hwcs⟩ := hforth w hw
        rw [hwcs] at hwbs
        cases hwbs
        exact ⟨bs, hcs, hmem⟩
  cases operator with
  | equal | notEqual => exact hequality ho
  | greater | greaterEq | less | lessEq | between =>
    have hs : f.type.isNumeric = true := hs
    rw [hnumeric] at hs
    cases hs
  | includes | notIncludes =>
    obtain ⟨operand, hpart, h⟩ := Except.bind_eq_ok.1 ho
    obtain ⟨hcomparison, hoperand⟩ := Prod.mk.inj (Except.ok.inj h)
    unfold includesOperand at hpart
    rw [if_neg hrefs] at hpart
    rw [Condition.content, ← hcomparison]
    have hpart' : f.meant? v = some (.content c.operand) := by
      rw [hmeant, hpart, hoperand]
      rfl
    simp only [test, if_neg hrefs, List.any_map]
    congr 2
    funext bs
    rw [Function.comp_apply, isPart, hpart', Bool.eq_iff_iff, Bytes.hasInfix_iff, decide_eq_true_iff]
  | «exists» | notExists => exact absurd (Prod.mk.inj (Except.ok.inj ho)).1.symm hne

end NodeStore.Query
