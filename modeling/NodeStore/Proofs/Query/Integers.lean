import NodeStore.Proofs.Engine.MainBlocks
import NodeStore.Proofs.Query.Filters

/-!
# Conditions on integers

What a condition finds out about an integer of the main block, or about the id of a node, is a relation between integers:
neither the width of the field nor its sign shows. The distance that a range stores in the width of the field is that of
its ends, also where they are the least and the greatest integer of a signed type.

* `Operator.relates`: the relation of an operator; `Field.Stores`: the integer that a node stores in a field.
* `Field.exists_stores`: a node of a reached store has one in every such field.
* `Field.test_int`: the test of a compiled operator on an integer is its relation; `Field.condition_reversed`: a range
  whose ends are in the wrong order does not compile.
* `integer_conditions_exact`: the block of a condition on an integer, on every node.
-/

namespace NodeStore.Query

open Engine

/-- What an operator says of an integer and the integers that it is compared with. -/
def Operator.relates (v : Int) : Operator → List Int → Prop
  | .equal, is => v ∈ is
  | .notEqual, is => v ∉ is
  | .greater, [i] => i < v
  | .greaterEq, [i] => i ≤ v
  | .less, [i] => v < i
  | .lessEq, [i] => v ≤ i
  | .between, [low, high] => low ≤ v ∧ v ≤ high
  | _, _ => False

instance (v : Int) (operator : Operator) (is : List Int) : Decidable (operator.relates v is) := by
  unfold Operator.relates
  split <;> infer_instance

/-- The integer that a node stores in a field: its id, or an integer of the type in the bytes of the property. -/
def Field.Stores {E : Type} (id : NodeId) (n : Node E) (i : Int) : Field → Prop
  | .id => i = id.toNat
  | .prop p => ∃ offset low high, p.offset? = some offset ∧ p.type.intRange? = some (low, high) ∧ low ≤ i ∧ i ≤ high ∧
      (n.main.drop offset).take p.len = intBytes p.len i

variable {E : Type} {t : TypeLayout} {f : Field} {id : NodeId} {n : Node E} {i : Int}

/-! ## Stored integers -/

theorem Field.isFixed_of_isInteger (hm : f.Measured) (h : f.type.isInteger = true) : f.isFixed := by
  obtain ⟨w, -, -, hw, -⟩ := range_of_isInteger h
  refine .inl (hw.trans (congrArg some ?_))
  cases f with
  | id => exact (Option.some.inj hw).symm
  | prop p =>
    obtain ⟨hmain, hlen⟩ := PropDef.Measured.fixed hm w hw
    have hne : p.type ≠ .reference := fun hr => by
      have h : p.type.isInteger = true := h
      rw [hr] at h
      cases h
    rw [width, if_neg hne, if_pos hmain, hlen]

theorem Field.isSeparate_of_isInteger (hm : f.Measured) (h : f.type.isInteger = true) : f.isSeparate = false := by
  obtain ⟨w, -, -, hw, -⟩ := range_of_isInteger h
  cases f with
  | id => rfl
  | prop p => rw [isSeparate, (PropDef.Measured.fixed hm w hw).1, Bool.not_true]

/-- Every node with a whole main block stores an integer in each integer field. -/
theorem Field.exists_stores (ht : t.Placed) (hf : f.Of t) (h : f.type.isInteger = true)
    (hn : n.main.length = t.mainLen) (id : NodeId) : ∃ i, f.Stores id n i := by
  cases f with
  | id => exact ⟨_, rfl⟩
  | prop p =>
    have h : p.type.isInteger = true := h
    obtain ⟨w, low, high, hw, hrange⟩ := range_of_isInteger h
    obtain ⟨hmain, hlen⟩ := (ht.measured p hf).fixed w hw
    cases hl : p.location with
    | separate slot => simp [PropDef.isMain, hl] at hmain
    | main offset =>
      have hoffset : p.offset? = some offset := by simp [PropDef.offset?, hl]
      have hin := ht.inside p hf offset hoffset
      have hb : ((n.main.drop offset).take p.len).length = p.len := by
        rw [List.length_take, List.length_drop, hn]
        omega
      obtain ⟨hlow, hhigh⟩ := readInt_range hrange (hlen ▸ hw) hb
      refine ⟨_, offset, low, high, hoffset, hrange, hlow, hhigh, ?_⟩
      exact readInt_inj (hb.trans (length_intBytes ..).symm) (by rw [length_intBytes, hlen]; exact (range_fits hrange hw).1)
        (readInt_intBytes hrange (hlen ▸ hw) hlow hhigh).symm

/-- A stored integer is what its bytes are read as. -/
theorem Field.Stores.ofMain {p : PropDef EdgeLayout} (hm : p.Measured) (h : (Field.prop p).Stores id n i) :
    p.slot? = none ∧ (Field.prop p).start + (Field.prop p).width ≤ n.main.length ∧
      Held.ofBytes? p.type ((n.main.drop (Field.prop p).start).take (Field.prop p).width) = some (.number (.int i)) := by
  obtain ⟨offset, low, high, hoffset, hrange, hlow, hhigh, hbytes⟩ := h
  have hinteger : p.type.isInteger = true := by
    cases ht : p.type <;> rw [ht] at hrange <;> first
      | rfl
      | cases hrange
  obtain ⟨w, -, -, hw, -⟩ := range_of_isInteger hinteger
  obtain ⟨hmain, hlen⟩ := hm.fixed w hw
  have hpos : 0 < w ∧ p.type ≠ .reference := by
    cases ht : p.type <;> rw [ht] at hw <;> cases hw <;> exact ⟨by decide, nofun⟩
  have hstart : (Field.prop p).start = offset := by rw [Field.start, hoffset, Option.getD_some]
  have hwidth : (Field.prop p).width = p.len := by rw [Field.width, if_neg hpos.2, if_pos hmain]
  have hlength := congrArg List.length hbytes
  rw [List.length_take, List.length_drop, length_intBytes] at hlength
  refine ⟨?_, by omega, ?_⟩
  · cases hl : p.location with
    | main _ => simp [PropDef.slot?, hl]
    | separate _ => simp [PropDef.isMain, hl] at hmain
  · have hread : ∀ cs, Held.ofBytes? p.type cs = some (.number (.int (readInt p.type.isSigned cs))) := by
      intro cs
      cases ht : p.type <;> rw [ht] at hinteger <;> first
        | rfl
        | cases hinteger
    rw [hstart, hwidth, hbytes, hread, readInt_intBytes hrange (hlen ▸ hw) hlow hhigh]

/-! ## Tests of integers -/

section

variable {operator : Operator} {operand : Value} {ints : List Int64} {locale : UInt8} {c : Condition}

/-- What is compared with a field stands for itself there. -/
theorem Field.meant_of_fixedBytes (hm : f.Measured) (h : f.type.isInteger = true) {k : Int64} {bs : Bytes}
    (hk : f.fixedBytes (.int k) = .ok bs) : f.meant? (.int k) = some (.number (.int k.toInt)) := by
  obtain ⟨-, x, hx, -⟩ := f.fixedBytes_spec hm (f.isFixed_of_isInteger hm h) hk
  rw [hx, f.meant?_int h rfl hx]

/-- An operand that is stored as one integer is one. -/
theorem Field.operand_int (hm : f.Measured) (h : f.type.isInteger = true) (hints : alternatives operand = ints.map .int)
    {bs : Bytes} (ho : f.fixedBytes operand = .ok bs) : ∃ k : Int64, operand = .int k ∧ ints = [k] := by
  obtain ⟨-, x, hx, -⟩ := f.fixedBytes_spec hm (f.isFixed_of_isInteger hm h) ho
  -- A value that is no list is its only alternative, so it is the integer.
  have hsingle : alternatives operand = [operand] → ∃ k : Int64, operand = .int k ∧ ints = [k] := by
    intro hone
    rw [hone] at hints
    obtain ⟨k, rfl⟩ := List.length_eq_one_iff.1 (show ints.length = 1 by rw [← List.length_map, ← hints]; rfl)
    exact ⟨k, (List.cons.inj hints).1, rfl⟩
  cases operand with
  | list items =>
    cases f with
    | id => cases hx
    | prop p =>
      have h : p.type.isInteger = true := h
      cases ht : p.type <;> rw [ht] at h <;> cases h <;> simp only [meant?, ht] at hx <;> cases hx
  | _ => exact hsingle rfl

/-- An integer compared with an operand that compiles. -/
theorem Field.order?_int (hm : f.Measured) (h : f.type.isInteger = true) (hints : alternatives operand = ints.map .int)
    {bs : Bytes} (ho : f.fixedBytes operand = .ok bs) (i : Int) :
    ∃ k : Int64, ints = [k] ∧ f.order? operand (.number (.int i)) = some (compare i k.toInt) := by
  obtain ⟨k, rfl, rfl⟩ := f.operand_int hm h hints ho
  refine ⟨k, rfl, ?_⟩
  rw [order?, f.meant_of_fixedBytes hm h ho]
  rfl

/-- The ends of a range that compiles, in their order. -/
theorem Field.range_int (hm : f.Measured) (h : f.type.isInteger = true) (hints : alternatives operand = ints.map .int)
    {bs : Bytes} (ho : f.rangeOperand operand = .ok bs) :
    ∃ low high : Int64, ints = [low, high] ∧ low.toInt ≤ high.toInt ∧
      f.meant? (.int low) = some (.number (.int low.toInt)) ∧ f.meant? (.int high) = some (.number (.int high.toInt)) := by
  have hnumber : f.type ≠ .number := fun ht => by
    rw [ht] at h
    cases h
  unfold rangeOperand at ho
  split at ho
  · rename_i least greatest halt
    rw [hints] at halt
    obtain ⟨low, high, rfl⟩ := List.length_eq_two.1 (show ints.length = 2 by rw [← List.length_map, halt]; rfl)
    cases halt
    obtain ⟨bs₁, hlow, ho⟩ := Except.bind_eq_ok.1 ho
    rw [if_neg hnumber] at ho
    dsimp only [Value.asInt?] at ho
    split at ho
    · cases ho
    · rename_i hle
      obtain ⟨bs₂, hhigh, -⟩ := Except.bind_eq_ok.1 ho
      exact ⟨low, high, rfl, by omega, f.meant_of_fixedBytes hm h hlow, f.meant_of_fixedBytes hm h hhigh⟩
  · cases ho

/-- The test of an operator that compiles is its relation, for integers. -/
theorem Field.test_int (hm : f.Measured) (h : f.type.isInteger = true) (hints : alternatives operand = ints.map .int)
    (hc : f.condition operator operand locale = .ok c) (i : Int) :
    (f.test operator operand [.number (.int i)] != operator.negated) =
      decide (operator.relates i (ints.map (·.toInt))) := by
  obtain ⟨hs, ho, -⟩ := Field.condition_eq_ok hc
  have hfixed := f.isFixed_of_isInteger hm h
  -- What a list says, with the operands meaning themselves.
  have hone : f.equality operand = .ok (c.comparison, c.operand) →
      ([Held.number (.int i)].any fun x => (alternatives operand).any fun w => f.meant? w = some x) =
        decide (i ∈ ints.map (·.toInt)) := by
    intro hequality
    unfold equality at hequality
    dsimp only at hequality
    split at hequality
    · cases hequality
    · rw [hfixed.noContent.1] at hequality
      obtain ⟨values, hmap, -⟩ := Except.bind_eq_ok.1 hequality
      have hmeant : ∀ k ∈ ints, f.meant? (.int k) = some (.number (.int k.toInt)) := fun k hk => by
        obtain ⟨bs, -, hbs⟩ := (mapM_eq_ok hmap).2.2 (.int k) (hints ▸ List.mem_map_of_mem hk)
        exact f.meant_of_fixedBytes hm h hbs
      rw [hints, Bool.eq_iff_iff]
      simp only [List.any_cons, List.any_nil, Bool.or_false, List.any_map, List.any_eq_true, Function.comp_apply,
        decide_eq_true_iff, List.mem_map]
      constructor
      · rintro ⟨k, hk, hki⟩
        rw [hmeant k hk] at hki
        exact ⟨k, hk, by simpa using hki⟩
      · rintro ⟨k, hk, rfl⟩
        exact ⟨k, hk, hmeant k hk⟩
  have hordered : ∀ {comparison}, (do return (comparison, ← f.fixedBytes operand)) = Except.ok (c.comparison, c.operand) →
      ∃ k : Int64, ints = [k] ∧ f.order? operand (.number (.int i)) = some (compare i k.toInt) := by
    intro comparison h'
    obtain ⟨bs, hbs, -⟩ := Except.bind_eq_ok.1 h'
    exact f.order?_int hm h hints hbs i
  cases operator with
  | equal =>
    rw [test, hone ho]
    exact Bool.xor_false _
  | notEqual =>
    rw [test, hone ho]
    exact (Bool.xor_true _).trans decide_not.symm
  | greater =>
    obtain ⟨k, rfl, horder⟩ := hordered ho
    simp [test, horder, Operator.negated, Operator.relates, Int.compare_eq_gt]
  | greaterEq =>
    obtain ⟨k, rfl, horder⟩ := hordered ho
    rw [Bool.eq_iff_iff]
    simp [test, horder, Operator.negated, Operator.relates, Int.compare_eq_gt]
    omega
  | less =>
    obtain ⟨k, rfl, horder⟩ := hordered ho
    simp [test, horder, Operator.negated, Operator.relates, Int.compare_eq_lt]
  | lessEq =>
    obtain ⟨k, rfl, horder⟩ := hordered ho
    rw [Bool.eq_iff_iff]
    simp [test, horder, Operator.negated, Operator.relates, Int.compare_eq_lt]
    omega
  | between =>
    obtain ⟨bs, hrange, -⟩ := Except.bind_eq_ok.1 ho
    obtain ⟨low, high, rfl, -, hlow, hhigh⟩ := f.range_int hm h hints hrange
    rw [Bool.eq_iff_iff]
    simp [test, hints, inRange, hlow, hhigh, Operator.relates, Operator.negated]
  | includes | notIncludes =>
    have hs : (f.hasContent || decide (f.type = .references)) = true := hs
    rw [hfixed.noContent.1, decide_eq_false hfixed.noContent.2] at hs
    cases hs
  | «exists» | notExists =>
    have hs : f.isSeparate = true := hs
    rw [f.isSeparate_of_isInteger hm h] at hs
    cases hs

/-- A range whose ends are in the wrong order does not compile. -/
theorem Field.condition_reversed (hm : f.Measured) (h : f.type.isInteger = true) {low high : Int64}
    (hints : alternatives operand = [.int low, .int high]) (hlt : high.toInt < low.toInt) :
    f.condition .between operand locale ≠ .ok c := by
  intro hc
  obtain ⟨bs, hrange, -⟩ := Except.bind_eq_ok.1 (Field.condition_eq_ok hc).2.1
  have hints' : alternatives operand = [low, high].map .int := hints
  obtain ⟨_, _, hends, hle, -⟩ := f.range_int hm h hints' hrange
  cases hends
  omega

theorem Field.Of.measured (ht : t.Placed) (hf : f.Of t) : f.Measured := by
  cases f with
  | id => trivial
  | prop p => exact ht.measured p hf

/-- A condition on an integer that a node stores. -/
theorem Field.Stores.holds (hm : f.Measured) (h : f.type.isInteger = true)
    (hints : alternatives operand = ints.map .int) (hc : f.condition operator operand locale = .ok c)
    (hi : f.Stores id n i) : c.holds id n = .ok (decide (operator.relates i (ints.map (·.toInt)))) := by
  obtain ⟨hs, ho, hnegate, hslot, htype, hstart, hwidth, -⟩ := Field.condition_eq_ok hc
  have hfixed := f.isFixed_of_isInteger hm h
  have hexists : c.comparison ≠ .exists := fun he => by
    have hsep := f.isSeparate_of_isInteger hm h
    rcases (Field.comparison_spec ho).1.1 he with rfl | rfl
    all_goals
      have hs : f.isSeparate = true := hs
      rw [hsep] at hs
      cases hs
  have htest := f.test_int hm h hints hc i
  unfold Condition.holds
  rw [hslot, hnegate, ← htest]
  cases f with
  | id =>
    obtain rfl : i = id.toNat := hi
    have heq : c.fixed (leBytes 4 id.toNat) = .ok (Field.id.test operator operand [.node id]) :=
      Field.fixed_eq hm hfixed hs ho htype hexists (length_leBytes ..) (Held.ofBytes?_node (.inl rfl) id)
    rw [if_pos (show Field.id.slot = Limits.idSlot from rfl), heq]
    rfl
  | prop p =>
    obtain ⟨hnone, hroom, hread⟩ := Field.Stores.ofMain hm hi
    have hmain : (Field.prop p).slot = Limits.mainSlot := by rw [Field.slot, hnone, Option.getD_none]
    have hlen : ((n.main.drop (Field.prop p).start).take (Field.prop p).width).length = (Field.prop p).width := by
      rw [List.length_take, List.length_drop]
      omega
    have hint : p.type ≠ .string ∧ p.type ≠ .binary := by
      refine ⟨?_, ?_⟩ <;> intro ht <;> (have h : p.type.isInteger = true := h) <;> rw [ht] at h <;> cases h
    have hof : c.ofMain n.main = c.fixed ((n.main.drop (Field.prop p).start).take (Field.prop p).width) := by
      unfold Condition.ofMain
      rw [hstart, hwidth, if_neg (by omega)]
      dsimp only
      split
      · exact absurd (htype.symm.trans ‹_›) hint.1
      · exact absurd (htype.symm.trans ‹_›) hint.2
      · rfl
    rw [hmain, if_neg (by decide), if_pos rfl, hof, Field.fixed_eq hm hfixed hs ho htype hexists hlen hread]
    rfl

end

/-! ## Blocks of conditions on integers -/

/-- The layout of the scope is that of a type, or of what its links store. -/
def Scope.Of (schema : SchemaLayout) (s : Scope) : Prop :=
  s.layout ∈ schema.types ∨ ∃ t ∈ schema.types, ∃ p ∈ t.props, ∃ e, p.edges = some e ∧ s.layout = e.asType

theorem Scope.Of.placed {schema : SchemaLayout} (hp : schema.Placed) {s : Scope} (hs : s.Of schema) : s.layout.Placed := by
  rcases hs with ht | ⟨t, ht, p, hpt, e, he, hs⟩
  · exact hp.types _ ht
  · exact hs ▸ asType_placed (hp.edges t ht p hpt e he)

/-- The block of one condition on a field. -/
theorem filterBytes_condition {s : Scope} {path : String} (hr : s.resolve (Path.split path) = .field f)
    (operator : Operator) (operand : Value) (locale : UInt8) :
    filterBytes s locale (some (.condition path operator operand)) =
      (f.condition operator operand locale).map fun c => encodeBlock [.condition c] := by
  have hgroup : (Filter.condition path operator operand).group s = ⟨[.condition f operator operand], [], none, []⟩ := by
    change Group.insert s (Path.split path) _ _ _ = _
    rw [Group.insert_eq, hr]
    rfl
  rw [filterBytes, hgroup, Group.clauses, List.mapM_cons, List.mapM_nil, Test.compile]
  cases f.condition operator operand locale with
  | error e => rfl
  | ok c =>
    change (Except.ok (encodeBlock (([c].mergeSort Condition.before).map .condition ++ [] ++ [] ++ [])) : Except Error Bytes) = _
    rw [List.mergeSort_singleton]
    rfl

/-- Whatever compiles of a condition on the id or on an integer of the main block, in the scope of a type or of what links
store, tells of every node how its integer relates to the operand; a range whose ends are in the wrong order does not
compile; and every node of a reached store has an integer to be compared. -/
theorem integer_conditions_exact {decl : SchemaDecl} {priority : Priority} {schema : SchemaLayout}
    (hc : decl.compile priority = .ok schema) {s : Scope} (hs : s.Of schema) {path : String}
    (hr : s.resolve (Path.split path) = .field f) (h : f.type.isInteger = true) {operand : Value} {ints : List Int64}
    (hints : Field.alternatives operand = ints.map .int) (operator : Operator) (locale : UInt8) :
    (∀ block, filterBytes s locale (some (.condition path operator operand)) = .ok block →
      ∃ c, block = encodeBlock [.condition c] ∧ ∀ (x : Subject) (i : Int), f.Stores x.id x.node i →
        c.holds x.id x.node = .ok (decide (operator.relates i (ints.map (·.toInt)))) ∧
          (block.length < 2 ^ 32 → ∀ store,
            x.passes schema store block = .ok (decide (operator.relates i (ints.map (·.toInt)))))) ∧
    (∀ low high, ints = [low, high] → high.toInt < low.toInt →
      ∃ e, filterBytes s locale (some (.condition path .between operand)) = .error e) ∧
    (s.layout ∈ schema.types → ∀ m, Reached schema m → ∀ id n, m.store.node? s.layout.id id = some n →
      ∃ i, f.Stores id n i) := by
  have ht : s.layout.Placed := hs.placed (compile_placed hc)
  have hf : f.Of s.layout := by
    rcases Scope.field_of_resolve hr with rfl | ⟨p, n, rfl, hp⟩
    · trivial
    · exact Layout.mem_of_longestProp? hp
  have hm : f.Measured := hf.measured ht
  refine ⟨fun block hblock => ?_, fun low high hends hlt => ?_, fun htype m hm' id n hn => ?_⟩
  · rw [filterBytes_condition hr] at hblock
    cases hcond : f.condition operator operand locale with
    | error e =>
      rw [hcond] at hblock
      cases hblock
    | ok c =>
      rw [hcond] at hblock
      cases hblock
      refine ⟨c, rfl, fun x i hi => ?_⟩
      have hholds := hi.holds hm h hints hcond
      refine ⟨hholds, fun hsize store => ?_⟩
      have hwell : Clause.EachOf Condition.WellFormed [.condition c] := ⟨hf.wellFormed ht hcond, trivial⟩
      rw [passes_encodeBlock hwell hsize, Clause.evalAll, Clause.eval, hholds]
      cases decide (operator.relates i (ints.map (·.toInt))) <;> rfl
  · subst hends
    rw [filterBytes_condition hr]
    cases hcond : f.condition .between operand locale with
    | error e => exact ⟨e, rfl⟩
    | ok c => exact absurd hcond (f.condition_reversed hm h hints hlt)
  · have hp := compile_placed hc
    exact Field.exists_stores ht hf h ((reached_sized hp hm').2.node (hp.ids _ htype) hn) id

/-! ### Moments -/

namespace Moments

/-- Events with the moment at which they happened. -/
def decl : SchemaDecl where
  locales := []
  types := [("event", [("at", .leaf .timestamp {} [])])]

def flat : Schema.FlatProp := ⟨["at"], .timestamp, {}, []⟩

def context : Schema.Context where
  typeNames := ["event"]
  localeIds := []
  priority := fun _ => PropDef.defaultPriority

def moment : PropDef EdgeLayout := Schema.unplaced context flat 8 true none none

def event : TypeLayout where
  name := "event"
  id := 1
  mainLen := 8
  props := [moment]
  tree := [("at", .leaf 0)]
  mainDefaults := [0, 0, 0, 0, 0, 0, 0, 0]

def layout : SchemaLayout := ⟨[event], [], Sha256.digest (describeSchema [event] [])⟩

theorem layoutOf_event : Schema.layoutOf context.priority "event" 1 [moment] = .ok event := by
  unfold Schema.layoutOf
  rw [show [moment].filter (·.isMain) = [moment] from rfl, List.mergeSort_singleton,
    show ([moment].filter fun p => !p.isMain) = [] from rfl, List.mergeSort_nil]
  rfl

theorem typeLayouts_event : Schema.typeLayouts context 1 [("event", [flat])] [] = .ok ([event], []) := by
  have htype : Schema.typeLayout context "event" 1 [flat] [] = .ok (event, []) := by
    unfold Schema.typeLayout
    rw [StateT.bind_eq_ok]
    refine ⟨(), [], rfl, StateT.bind_eq_ok.2 ⟨[moment], [], rfl, ?_⟩⟩
    exact StateT.lift_eq_ok.2 ⟨layoutOf_event, rfl⟩
  exact StateT.bind_eq_ok.2 ⟨event, [], htype, rfl⟩

theorem flattenTypes_decl : Schema.flattenTypes ∅ decl.types = .ok [("event", [flat])] := by
  rw [decl, Schema.flattenTypes, if_neg (by simp)]
  rfl

theorem compile_decl : decl.compile = .ok layout := by
  have hsort : Schema.sortTypes [("event", [flat])] = [("event", [flat])] := List.mergeSort_singleton _
  have hlocales : Schema.compileLocales decl.locales = .ok [] := by
    simp [Schema.compileLocales, decl, Schema.dropRepeated]
    rfl
  unfold SchemaDecl.compile
  rw [hlocales, flattenTypes_decl]
  refine Except.bind_eq_ok.2 ⟨[], rfl, ?_⟩
  rw [if_neg (by decide)]
  refine Except.bind_eq_ok.2 ⟨_, rfl, Except.bind_eq_ok.2 ⟨[("event", [flat])], by rw [hsort]; rfl, ?_⟩⟩
  exact Except.bind_eq_ok.2 ⟨([event], []), typeLayouts_event, rfl⟩

/-- An event at a moment. -/
def happened (bs : Bytes) : Subject := ⟨event, 1, ⟨bs, []⟩, none⟩

/-- All moments but the last one. -/
def allButLast : Value := .list [.int (-9223372036854775808), .int 9223372036854775806]

def block : Bytes :=
  [1, 9, 0, 1, 0, 0, 0, 0, 8, 0, 0, 16, 0, 0, 0] ++ [0, 0, 0, 0, 0, 0, 0, 128, 254, 255, 255, 255, 255, 255, 255, 255]

theorem filterBytes_allButLast :
    filterBytes (.ofType layout event) 0 (some (.condition "at" .between allButLast)) = .ok block := by
  rw [filterBytes_condition (f := .prop moment) rfl]
  rfl

end Moments

open Moments in
/-- The distance between the ends takes the whole width of the field. -/
theorem integer_conditions_exact_moments :
    (decl.compile = .ok layout ∧ (Scope.ofType layout event).resolve (Path.split "at") = .field (.prop moment) ∧
      (happened [0, 0, 0, 0, 0, 0, 0, 128]).passes layout .empty block = .ok true ∧
      (happened [255, 255, 255, 255, 255, 255, 255, 127]).passes layout .empty block = .ok false ∧
      ∃ e, filterBytes (.ofType layout event) 0 (some (.condition "at" .between (.list [.int 1, .int 0]))) = .error e) := by
  have hscope : (Scope.ofType layout event).Of layout := .inl List.mem_cons_self
  have hresolve : (Scope.ofType layout event).resolve (Path.split "at") = .field (.prop moment) := rfl
  have hends : Field.alternatives allButLast = [(-9223372036854775808 : Int64), 9223372036854775806].map .int := rfl
  have hends' : Field.alternatives (.list [.int 1, .int 0]) = [(1 : Int64), 0].map .int := rfl
  obtain ⟨c, -, hpasses⟩ :=
    (integer_conditions_exact compile_decl hscope hresolve rfl hends .between 0).1 block filterBytes_allButLast
  have hreversed := (integer_conditions_exact compile_decl hscope hresolve rfl hends' .between 0).2.1 1 0 rfl (by decide)
  have hfirst := (hpasses (happened [0, 0, 0, 0, 0, 0, 0, 128]) (-9223372036854775808)
    ⟨0, _, _, rfl, rfl, by decide, by decide, by decide⟩).2 (by decide) .empty
  have hlast := (hpasses (happened [255, 255, 255, 255, 255, 255, 255, 127]) 9223372036854775807
    ⟨0, _, _, rfl, rfl, by decide, by decide, by decide⟩).2 (by decide) .empty
  exact ⟨compile_decl, hresolve, hfirst.trans (congrArg Except.ok (by decide)),
    hlast.trans (congrArg Except.ok (by decide)), hreversed⟩

end NodeStore.Query
