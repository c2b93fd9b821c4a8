import NodeStore.Proofs.Schema.Addresses
import NodeStore.Write.Fields

/-!
# Fields of records

* `validate_eq_ok`, `checkField_eq_ok`: the tests that a value and a field have passed.
* `collectFields_mem`: the fields of a record are properties of the layout.
* `collectFields_named`: a record with one property by its name has one field, or is refused by the test of that field.
-/

namespace NodeStore.Write

open PathNode

variable {E : Type}

/-! ### Addressing by name -/

/-- The child of that name decides. -/
theorem addressIn_of_find? {type : String} {lenient : Bool} {above s : String} {children : List (String × PathNode)}
    {node : PathNode} (rest : List String) (v : Value) (h : Assoc.find? s children = some node) :
    addressIn type lenient above children s rest v = address type lenient (below above s) node rest v := by
  induction children with
  | nil => cases h
  | cons x others ih =>
    obtain ⟨name, node'⟩ := x
    rw [Assoc.find?] at h
    rw [addressIn]
    by_cases hname : s = name
    · rw [if_pos hname] at h
      cases h
      rw [if_pos hname.symm]
    · rw [if_neg hname] at h
      rw [if_neg (Ne.symm hname)]
      exact ih h

/-- A path that leads to a property addresses it, whatever the value. -/
theorem addressIn_of_leafAt? {type : String} {lenient : Bool} {rest : List String} {s above : String}
    {children : List (String × PathNode)} {i : Nat} (v : Value) (h : leafAt? children (s :: rest) = some i) :
    addressIn type lenient above children s rest v = .ok [(i, v)] := by
  induction rest generalizing s above children with
  | nil =>
    rw [leafAt?] at h
    split at h
    · rename_i hf
      cases h
      rw [addressIn_of_find? _ _ hf, address]
      rfl
    · cases h
  | cons s' rest ih =>
    rw [leafAt?] at h
    split at h
    · rename_i hf
      rw [addressIn_of_find? _ _ hf, address]
      exact ih h
    · cases h

/-! ### Collected fields -/

/-- What is missing are defaults of separate properties. -/
theorem missingDefaults_mem {fields : List (Field E)} {index : Nat} {ps : List (PropDef E)} {f : Field E}
    (h : f ∈ missingDefaults fields index ps) : f.prop ∈ ps ∧ f.prop.isMain = false ∧ f.prop.default = some f.value := by
  induction ps generalizing index with
  | nil => cases h
  | cons p ps ih =>
    have hrest : f ∈ missingDefaults fields (index + 1) ps →
        f.prop ∈ p :: ps ∧ f.prop.isMain = false ∧ f.prop.default = some f.value :=
      fun h => ⟨List.mem_cons_of_mem _ (ih h).1, (ih h).2⟩
    rw [missingDefaults] at h
    split at h
    · rename_i v hv
      split at h
      · exact hrest h
      · rename_i hadded
        rcases List.mem_cons.1 h with rfl | h
        · exact ⟨List.mem_cons_self, by simp_all, hv⟩
        · exact hrest h
    · exact hrest h

/-- A value is valid if it passes the tests of the declaration, and those of the validator unless it is a null. -/
theorem validate_eq_ok {p : PropDef E} {v : Value} : p.validate v = .ok () ↔ p.validateBuiltin v = .ok () ∧
    (v.isNull = false → ∀ check, p.validator = some check → check v = .ok ()) := by
  rw [PropDef.validate, Except.bind_eq_ok]
  refine ⟨fun ⟨_, hbuiltin, hcheck⟩ => ⟨hbuiltin, fun hnull check hvalidator => ?_⟩,
    fun ⟨hbuiltin, hcheck⟩ => ⟨(), hbuiltin, ?_⟩⟩
  · simp only [hnull, hvalidator, Bool.not_false, if_true] at hcheck
    split at hcheck
    · assumption
    · cases hcheck
  · split
    · rename_i hnull
      split
      · rename_i check hvalidator
        rw [hcheck (by simpa using hnull) check hvalidator]
        rfl
      · rfl
    · rfl

/-- A lenient caller does not ask the validator. -/
theorem checkField_eq_ok {lenient : Bool} {f : Field E} : checkField lenient f = .ok () ↔
    f.prop.validateBuiltin f.value = .ok () ∧
      (lenient = false → f.value.isNull = false → ∀ check, f.prop.validator = some check → check f.value = .ok ()) := by
  have hstrip : checkField lenient f = .ok () ↔
      (if lenient then f.prop.validateBuiltin f.value else f.prop.validate f.value) = .ok () := by
    unfold checkField
    split <;> simp_all
  rw [hstrip]
  cases lenient with
  | true => simp
  | false => simp [validate_eq_ok]

/-- A field that passes its test has a valid value. -/
theorem validateBuiltin_of_checkField {lenient : Bool} {f : Field E} (h : checkField lenient f = .ok ()) :
    f.prop.validateBuiltin f.value = .ok () := (checkField_eq_ok.1 h).1

/-- The fields of a record are properties of the layout. -/
theorem collectFields_mem {t : Layout E} {lenient create : Bool} {record : Record} {fields : List (Field E)}
    (h : collectFields t lenient create record = .ok fields) {f : Field E} (hf : f ∈ fields) : f.prop ∈ t.props := by
  unfold collectFields at h
  obtain ⟨found, -, h⟩ := Except.bind_eq_ok.1 h
  obtain ⟨_, -, h⟩ := Except.bind_eq_ok.1 h
  cases h
  have haddressed : ∀ g : Field E, g ∈ found.flatten.filterMap (fun e => t.props[e.1]?.map fun p => ⟨e.1, p, e.2⟩) →
      g.prop ∈ t.props := by
    intro g hg
    obtain ⟨⟨i, v⟩, -, hp⟩ := List.mem_filterMap.1 hg
    obtain ⟨p, hp', rfl⟩ := Option.map_eq_some_iff.1 hp
    exact List.mem_of_getElem? hp'
  rw [List.mem_mergeSort] at hf
  split at hf
  · rcases List.mem_append.1 hf with hf | hf
    · exact haddressed f hf
    · exact (missingDefaults_mem hf).1
  · exact haddressed f hf

/-- A property given by its name is the one field of a record, if the value passes its test. -/
theorem collectFields_named {t : Layout E} (ht : t.Addressed) {i : Nat} {p : PropDef E} (hp : t.props[i]? = some p)
    (lenient : Bool) (v : Value) :
    collectFields t lenient false [(p.name, v)] = (fun _ => [⟨i, p, v⟩]) <$> checkField lenient ⟨i, p, v⟩ := by
  have hpath : Path.split p.name = p.path := ht.name p (List.mem_of_getElem? hp)
  have hleaf := ht.leaf i p hp
  obtain ⟨s, rest, hsplit⟩ := List.exists_cons_of_ne_nil (Path.split_ne_nil p.name)
  rw [← hpath, hsplit] at hleaf
  have hok : ∀ {α β : Type} (a : α) (f : α → Except Error β), ((Except.ok a : Except Error α) >>= f) = f a :=
    fun _ _ => rfl
  unfold collectFields
  simp only [List.mapM_cons, List.mapM_nil, hsplit, addressIn_of_leafAt? v hleaf, hok, pure_bind, List.flatten_cons,
    List.flatten_nil, List.append_nil, List.filterMap_cons, List.filterMap_nil, hp, Option.map_some, Bool.false_eq_true,
    if_false, List.mergeSort_singleton]
  change ((checkField lenient ⟨i, p, v⟩ >>= fun _ => pure ()) >>= fun _ => pure [(⟨i, p, v⟩ : Field E)]) = _
  cases checkField lenient ⟨i, p, v⟩ <;> rfl

end NodeStore.Write
