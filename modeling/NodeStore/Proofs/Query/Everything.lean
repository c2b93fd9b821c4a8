import NodeStore.Proofs.Inversion
import NodeStore.Proofs.Schema.Addresses
import NodeStore.Proofs.SortedLists
import NodeStore.Query.Compile

/-!
# The query for all fields of one node

* `Query.everything`: the query; `Layout.plainProps`: the properties that it asks for.
* `compile_everything`: its bytes, and the plan by which the answer is read.
-/

namespace NodeStore

/-- The properties other than references. -/
def Layout.plainProps {E : Type} (t : Layout E) : List (PropDef E) := t.props.filter (!·.type.isReference)

namespace Query

/-- The query for one node with all its fields but references. -/
def everything (type : String) (id : NodeId) : Query := { type, target := .id id, body := { includes := [("*", none)] } }

/-- What the records hold of the main block; of a type that has references only it is all of it. -/
def everythingMain (t : TypeLayout) : MainPlan :=
  if t.plainProps = [] then .all
  else
    match t.plainProps.filter (·.isMain) with
    | [] => .none
    | ps => .props ps

/-- The separate fields that the records hold. -/
def everythingFields (t : TypeLayout) : List (PropDef EdgeLayout) := t.plainProps.filter (!·.isMain)

/-- The descriptor of all fields. -/
def everythingItems (t : TypeLayout) : List IncludeItem :=
  Includes.mainItem (everythingMain t) ++
    (everythingFields t).map fun p => .field (p.slot?.getD 0) p.type.tag Locale.none

/-- The plan by which all fields are read. -/
def everythingPlan (t : TypeLayout) : ReadPlan :=
  { layout := t, main := everythingMain t, fields := everythingFields t, links := [], edges := none, counts := [],
    locale := none }

namespace Includes

variable {s : Scope}

/-- Properties that are taken in order are those that come first, without references. -/
theorem choose_range {n : Nat} (hn : n ≤ s.layout.props.length) :
    ∃ chosen, (List.range n).foldl (choose s) {} = { chosen } ∧ (∀ i ∈ chosen, i < n) ∧
      propsAt s chosen = (s.layout.props.take n).filter (!·.type.isReference) := by
  induction n with
  | zero => exact ⟨[], rfl, nofun, rfl⟩
  | succ n ih =>
    obtain ⟨chosen, hfold, hlt, hprops⟩ := ih (by omega)
    have hget : s.layout.props[n]? = some s.layout.props[n] := List.getElem?_eq_getElem hn
    rw [List.range_succ, List.foldl_append, hfold, List.take_add_one, hget, List.filter_append, ← hprops]
    simp only [List.foldl_cons, List.foldl_nil, choose, hget, Option.toList_some, List.filter_cons, List.filter_nil]
    cases href : s.layout.props[n].type.isReference with
    | true => exact ⟨chosen, rfl, fun i hi => Nat.lt_succ_of_lt (hlt i hi), by simp⟩
    | false =>
      refine ⟨chosen ++ [n], ?_, ?_, ?_⟩
      · rw [if_neg Bool.false_ne_true, KeySet.insert_of_lt hlt]
      · intro i hi
        rcases List.mem_append.1 hi with hi | hi
        · exact Nat.lt_succ_of_lt (hlt i hi)
        · rw [List.mem_singleton.1 hi]
          exact Nat.lt_succ_self n
      · simp [propsAt, hget]

/-- The star stands for all properties but references. -/
theorem addAll_star (s : Scope) :
    ∃ chosen, addAll s [("*", none)] {} = .ok { chosen } ∧ propsAt s chosen = s.layout.plainProps ∧
      (chosen = [] ↔ s.layout.plainProps = []) := by
  obtain ⟨chosen, hfold, hlt, hprops⟩ := choose_range (s := s) (Nat.le_refl _)
  have hprops : propsAt s chosen = s.layout.plainProps := by rw [hprops, List.take_length]; rfl
  refine ⟨chosen, ?_, hprops, fun hnil => by rw [← hprops, hnil]; rfl, fun hnil => ?_⟩
  · have hsplit : Path.split "*" = ["*"] := by decide
    rw [addAll, hsplit, add, if_pos ⟨rfl, rfl⟩, hfold]
    change addAll s [] { chosen } = _
    rw [addAll]
  · refine List.eq_nil_iff_forall_not_mem.2 fun i hi => ?_
    have hnone := List.filterMap_eq_nil_iff.1 (hprops.trans hnil) i hi
    exact Nat.not_lt.2 (List.getElem?_eq_none_iff.1 hnone) (hlt i hi)

end Includes

/-- What the query for all fields is compiled to. -/
theorem compile_everything {schema : SchemaLayout} {type : String} {t : TypeLayout}
    (ht : schema.typeByName? type = some t) (hid : t.id ≠ 0) (id : NodeId) :
    (everything type id).compile schema = .ok ⟨schema,
      opId :: leBytes 2 t.id.toNat ++ leBytes 4 id.toNat ++ SortSpec.encode none ++ Wire.sized [] ++
        Wire.sized (encodeIncludes (everythingItems t)) ++ Wire.sized [],
      .records (everythingPlan t)⟩ := by
  obtain ⟨chosen, hadd, hprops, hnil⟩ := Includes.addAll_star (Scope.ofType schema t)
  change Includes.propsAt _ chosen = t.plainProps at hprops
  change _ ↔ t.plainProps = [] at hnil
  have hmain : Includes.mainPlan (Scope.ofType schema t) { chosen } = everythingMain t := by
    have hedge : Layout.isEdge t = false := by simpa [Layout.isEdge] using hid
    have hempty : (Includes.isEmpty { chosen } ∧ !(Scope.ofType schema t).layout.isEdge) ↔ t.plainProps = [] := by
      simp [Includes.isEmpty, Scope.ofType, hedge, hnil]
    rw [Includes.mainPlan, hprops]
    exact if_congr hempty rfl rfl
  have hfields : Includes.fields (Scope.ofType schema t) { chosen } = everythingFields t := by
    rw [Includes.fields, hprops]
    rfl
  have hincludes : (everything type id).includes (Scope.ofType schema t) = .ok { chosen } := by
    unfold includes
    exact Except.bind_eq_ok.2 ⟨_, hadd, rfl⟩
  have hitems : Includes.items (Scope.ofType schema t) Locale.none { chosen } = .ok (everythingItems t) := by
    unfold Includes.items
    simp only [Includes.linkItems, Includes.edgeItems, hmain, hfields]
    simp [everythingItems, Includes.propsAt, bind, Except.bind, pure, Except.pure]
  have hplan : Includes.plan (Scope.ofType schema t) none { chosen } = everythingPlan t := by
    unfold Includes.plan
    simp only [Includes.linkPlans, Includes.edgePlan, hmain, hfields]
    rfl
  have htype : schema.typeByName? (everything type id).type = some t := ht
  unfold compile
  simp only [htype]
  refine Except.bind_eq_ok.2 ⟨none, rfl, Except.bind_eq_ok.2 ⟨_, rfl, Except.bind_eq_ok.2 ⟨none, rfl,
    Except.bind_eq_ok.2 ⟨[], rfl, (if_neg Bool.false_ne_true).trans ?_⟩⟩⟩⟩
  refine Except.bind_eq_ok.2 ⟨_, hincludes, Except.bind_eq_ok.2 ⟨_, hitems, ?_⟩⟩
  change Except.ok (CompiledQuery.mk schema _ (.records (Includes.plan (Scope.ofType schema t) none { chosen }))) = _
  rw [hplan]

end Query

end NodeStore
