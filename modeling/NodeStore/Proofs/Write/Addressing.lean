import NodeStore.Proofs.Schema.Packing
import NodeStore.Proofs.Write.Fields

/-!
# What a record gives to a property

A record addresses properties by nested objects and dotted names; what it gives to one property follows from the path of
that property alone.

* `Record.writesAt`: the values that a record gives to a path.
* `Write.valuesOf`: the values that some fields have for one property.
* `Write.collectFields_values`: the fields of a record hold just what it gives to the paths of the properties.
-/

namespace NodeStore

mutual

/-- The values that a value gives to a path below it. A null is a null for all that is below. -/
def Value.writesAt : List String → Value → List Value
  | [], v => [v]
  | _ :: _, .null => [.null]
  | s :: path, .object fields => Record.writesAt (s :: path) fields
  | _ :: _, _ => []

/-- The values that the fields of a record give to a path; their names may be dotted. -/
def Record.writesAt (path : List String) : List (String × Value) → List Value
  | [] => []
  | (key, v) :: fields =>
    (match (Path.split key).isPrefixOf? path with
      | some rest => Value.writesAt rest v
      | none => []) ++ Record.writesAt path fields

end

namespace Write

open PathNode

/-! ### One path -/

/-- The values found for a property. -/
def pick (i : Nat) (found : List (Nat × Value)) : List Value := found.filterMap fun x => if x.1 = i then some x.2 else none

theorem pick_append (i : Nat) (as bs : List (Nat × Value)) : pick i (as ++ bs) = pick i as ++ pick i bs :=
  List.filterMap_append

theorem pick_singleton (i j : Nat) (v : Value) : pick i [(j, v)] = if j = i then [v] else [] := by
  unfold pick
  split <;> simp_all

theorem pick_nulls (i : Nat) (js : List Nat) : pick i (js.map fun j => (j, .null)) = List.replicate (js.count i) .null := by
  induction js with
  | nil => rfl
  | cons j js ih =>
    rw [List.map_cons, ← List.singleton_append, pick_append, pick_singleton, ih, List.count_cons]
    by_cases hj : j = i
    · simp [hj, List.replicate_succ]
    · simp [hj]

/-- What a value gives to a path when `rest` remains of its name. -/
def given (rest ks : List String) (v : Value) : List Value :=
  match rest.isPrefixOf? ks with
  | some more => Value.writesAt more v
  | none => []

theorem given_nil (ks : List String) (v : Value) : given [] ks v = Value.writesAt ks v := by
  simp [given, List.isPrefixOf?]

theorem given_cons_self (s : String) (rest ks : List String) (v : Value) :
    given (s :: rest) (s :: ks) v = given rest ks v := by
  simp [given, List.isPrefixOf?]

theorem given_of_ne {s : String} {rest ks : List String} (h : ∀ qs, ks ≠ s :: qs) (v : Value) :
    given (s :: rest) ks v = [] := by
  unfold given
  split
  · rename_i more hmore
    exact absurd (List.isPrefixOf?_eq_some_iff_append_eq.1 hmore).symm (h _)
  · rfl

theorem writesAt_cons (path : List String) (key : String) (v : Value) (fields : Record) :
    Record.writesAt path ((key, v) :: fields) = given (Path.split key) path v ++ Record.writesAt path fields := by
  rw [Record.writesAt, given]

theorem unknownName_eq_ok {type path : String} {lenient : Bool} {rest : List String} {found : List (Nat × Value)}
    (h : unknownName type lenient path rest = .ok found) : found = [] := by
  unfold unknownName at h
  split at h
  · exact (Except.ok.inj h).symm
  · cases h

theorem addressIn_of_none {type : String} {lenient : Bool} {above s : String} {children : List (String × PathNode)}
    (rest : List String) (v : Value) (h : Assoc.find? s children = none) :
    addressIn type lenient above children s rest v = unknownName type lenient (below above s) rest := by
  induction children with
  | nil => rw [addressIn]
  | cons x others ih =>
    obtain ⟨name, node⟩ := x
    rw [Assoc.find?] at h
    split at h
    · cases h
    · rename_i hname
      rw [addressIn, if_neg (Ne.symm hname)]
      exact ih h

/-- From a node, a property that one path leads to is given what the value gives to that path. -/
def Gives (type : String) (lenient : Bool) (i : Nat) (node : PathNode) : Prop :=
  ∀ path ks rest v found, node.Ordered → (∀ qs, leafIn? node qs = some i → qs = ks) →
    address type lenient path node rest v = .ok found → pick i found = if leafIn? node ks = some i then given rest ks v else []

variable {type : String} {lenient : Bool} {i : Nat} {children : List (String × PathNode)} {ks : List String}

/-- Among the children of a node. -/
theorem pick_addressIn (hgives : ∀ s node, Assoc.find? s children = some node → Gives type lenient i node)
    (hord : Ordered (.branch children)) (hunique : ∀ qs, leafAt? children qs = some i → qs = ks) {above s : String}
    {rest : List String} {v : Value} {found : List (Nat × Value)}
    (h : addressIn type lenient above children s rest v = .ok found) :
    pick i found = if leafAt? children ks = some i then given (s :: rest) ks v else [] := by
  cases hf : Assoc.find? s children with
  | none =>
    rw [addressIn_of_none rest v hf] at h
    rw [unknownName_eq_ok h]
    split
    · rename_i hleaf
      rw [given_of_ne fun qs hqs => by rw [hqs, leafAt?_of_none hf] at hleaf; cases hleaf]
      rfl
    · rfl
  | some node =>
    rw [addressIn_of_find? rest v hf] at h
    have hnode := hord.child (Assoc.mem_of_find? hf)
    have hlead : ∀ qs, leafAt? children (s :: qs) = leafIn? node qs := fun qs => leafAt?_of_find? hf
    by_cases hks : ∃ qs, ks = s :: qs
    · obtain ⟨qs, rfl⟩ := hks
      rw [hlead, given_cons_self]
      exact hgives s node hf _ qs rest v found hnode
        (fun qs' hqs' => List.tail_eq_of_cons_eq (hunique (s :: qs') ((hlead qs').trans hqs'))) h
    · have hnone : ∀ qs, leafIn? node qs ≠ some i := fun qs hqs =>
        hks ⟨qs, (hunique (s :: qs) ((hlead qs).trans hqs)).symm⟩
      have := hgives s node hf _ [] rest v found hnode (fun qs hqs => absurd hqs (hnone qs)) h
      rw [this, if_neg (hnone []), given_of_ne fun qs hqs => hks ⟨qs, hqs⟩]
      exact (ite_self _).symm

/-- The fields of an object, one after the other. -/
theorem pick_fields (hgives : ∀ s node, Assoc.find? s children = some node → Gives type lenient i node)
    (hord : Ordered (.branch children)) (hunique : ∀ qs, leafAt? children qs = some i → qs = ks) {above : String}
    {fields : Record} {found : List (List (Nat × Value))}
    (h : (fields.mapM fun (key, v) =>
      match Path.split key with
      | s :: rest => addressIn type lenient above children s rest v
      | [] => .ok []) = .ok found) :
    pick i found.flatten = if leafAt? children ks = some i then Record.writesAt ks fields else [] := by
  induction fields generalizing found with
  | nil =>
    cases h
    rw [Record.writesAt, ite_self]
    rfl
  | cons x fields ih =>
    obtain ⟨key, v⟩ := x
    rw [List.mapM_cons] at h
    obtain ⟨first, hfirst, h⟩ := Except.bind_eq_ok.1 h
    obtain ⟨others, hothers, h⟩ := Except.bind_eq_ok.1 h
    cases h
    obtain ⟨s, rest, hsplit⟩ := List.exists_cons_of_ne_nil (Path.split_ne_nil key)
    simp only [hsplit] at hfirst
    rw [List.flatten_cons, pick_append, pick_addressIn hgives hord hunique hfirst, ih hothers, writesAt_cons, hsplit]
    split <;> rfl

theorem gives (type : String) (lenient : Bool) (i : Nat) (node : PathNode) : Gives type lenient i node := by
  induction node using PathNode.induction_children with
  | leaf j =>
    intro path ks rest v found _ hunique h
    rw [address] at h
    cases rest with
    | nil =>
      cases h
      rw [pick_singleton, given_nil]
      by_cases hj : j = i
      · have hks : ([] : List String) = ks := hunique [] (by simp [leafIn?, hj])
        simp [leafIn?, hj, ← hks, Value.writesAt]
      · simp [leafIn?, hj]
    | cons s rest =>
      rw [unknownName_eq_ok h]
      cases ks with
      | nil =>
        rw [given_of_ne (fun _ hqs => by cases hqs), ite_self]
        rfl
      | cons _ _ => rfl
  | branch children hgives =>
    intro path ks rest v found hord hunique h
    cases rest with
    | cons s rest =>
      rw [address] at h
      exact pick_addressIn hgives hord hunique h
    | nil =>
      rw [given_nil]
      -- A path that ends at the branch is none of a property.
      have hne : leafIn? (.branch children) ks = some i → ∃ k qs, ks = k :: qs := fun hleaf => by
        cases ks with
        | nil => rw [leafIn?, leafAt?_root] at hleaf; cases hleaf
        | cons k qs => exact ⟨k, qs, rfl⟩
      cases v with
      | object inner =>
        rw [address] at h
        obtain ⟨groups, hgroups, h⟩ := Except.bind_eq_ok.1 h
        cases h
        rw [pick_fields hgives hord hunique hgroups]
        refine ite_congr rfl (fun hleaf => ?_) fun _ => rfl
        obtain ⟨k, qs, rfl⟩ := hne hleaf
        rw [Value.writesAt]
      | null =>
        rw [address] at h
        cases h
        rw [pick_nulls, count_leavesAll i children ks hord.sorted (fun _ _ hm => hord.child hm) hunique]
        by_cases hleaf : leafAt? children ks = some i
        · obtain ⟨k, qs, rfl⟩ := hne hleaf
          simp [leafIn?, hleaf, Value.writesAt]
        · simp [leafIn?, hleaf]
      | _ =>
        rw [address] at h
        · cases h
        all_goals intros; contradiction

/-! ### The fields of a record -/

variable {E : Type}

/-- The values of some fields for the property with an index. -/
def valuesOf (i : Nat) (fields : List (Field E)) : List Value := (fields.filter (·.index = i)).map (·.value)

/-- What a record gives to a property; a created node is given the default of a separate property that is left out. -/
def givenTo (create : Bool) (record : Record) (p : PropDef E) : List Value :=
  match Record.writesAt p.path record with
  | [] => if create && !p.isMain then p.default.toList else []
  | vs => vs

theorem valuesOf_append (i : Nat) (fs gs : List (Field E)) : valuesOf i (fs ++ gs) = valuesOf i fs ++ valuesOf i gs := by
  simp [valuesOf]

theorem valuesOf_found {t : Layout E} {i : Nat} {p : PropDef E} (hp : t.props[i]? = some p) (found : List (Nat × Value)) :
    valuesOf i (found.filterMap fun (j, v) => t.props[j]?.map fun q => (⟨j, q, v⟩ : Field E)) = pick i found := by
  induction found with
  | nil => rfl
  | cons x found ih =>
    obtain ⟨j, v⟩ := x
    rw [← List.singleton_append, pick_append, pick_singleton, List.filterMap_append, valuesOf_append, ih]
    congr 1
    by_cases hj : j = i
    · simp [hj, hp, valuesOf]
    · cases t.props[j]? <;> simp [hj, valuesOf]

theorem any_index_eq_false {i : Nat} {fields : List (Field E)} :
    fields.any (·.index = i) = false ↔ valuesOf i fields = [] := by
  simp [valuesOf]

theorem valuesOf_missingDefaults_of_lt (fields : List (Field E)) {i n : Nat} (h : i < n) (ps : List (PropDef E)) :
    valuesOf i (missingDefaults fields n ps) = [] := by
  induction ps generalizing n with
  | nil => rfl
  | cons p ps ih =>
    have hne : n ≠ i := by omega
    rw [missingDefaults]
    split
    · split
      · exact ih (by omega)
      · rw [← List.singleton_append, valuesOf_append, ih (by omega)]
        simp [valuesOf, hne]
    · exact ih (by omega)

/-- The default of a separate property is added unless a field addresses it. -/
theorem valuesOf_missingDefaults (fields : List (Field E)) (n : Nat) {ps : List (PropDef E)} {k : Nat} {p : PropDef E}
    (hp : ps[k]? = some p) : valuesOf (n + k) (missingDefaults fields n ps) =
      if p.isMain = false ∧ valuesOf (n + k) fields = [] then p.default.toList else [] := by
  induction ps generalizing n k with
  | nil =>
    rw [List.getElem?_nil] at hp
    cases hp
  | cons q ps ih =>
    cases k with
    | zero =>
      cases hp
      have hrest := valuesOf_missingDefaults_of_lt fields (Nat.lt_succ_self n) ps
      rw [missingDefaults, Nat.add_zero]
      cases hd : p.default with
      | none => simp [hrest]
      | some v =>
        simp only [Option.toList_some]
        cases hm : p.isMain with
        | true => simpa using hrest
        | false =>
          cases ha : fields.any (·.index = n) with
          | true =>
            have hne : valuesOf n fields ≠ [] := fun h => by rw [any_index_eq_false.2 h] at ha; cases ha
            simpa [hne] using hrest
          | false =>
            simp only [Bool.false_or, Bool.false_eq_true, if_false]
            rw [if_pos ⟨trivial, any_index_eq_false.1 ha⟩, ← List.singleton_append, valuesOf_append, hrest]
            simp [valuesOf]
    | succ k =>
      have hne : ∀ v, valuesOf (n + (k + 1)) [(⟨n, q, v⟩ : Field E)] = [] := fun v => by simp [valuesOf]
      have hshift : n + 1 + k = n + (k + 1) := by omega
      have := ih (n + 1) (k := k) hp
      rw [hshift] at this
      rw [missingDefaults, ← this]
      split
      · split
        · rfl
        · rw [← List.singleton_append, valuesOf_append, hne, List.nil_append]
      · rfl

theorem missingDefaults_index {fields : List (Field E)} {n : Nat} {ps : List (PropDef E)} {f : Field E}
    (h : f ∈ missingDefaults fields n ps) : n ≤ f.index ∧ ps[f.index - n]? = some f.prop := by
  induction ps generalizing n with
  | nil => cases h
  | cons p ps ih =>
    have hstep : f ∈ missingDefaults fields (n + 1) ps → n ≤ f.index ∧ (p :: ps)[f.index - n]? = some f.prop := by
      intro h
      obtain ⟨hle, hf⟩ := ih h
      refine ⟨by omega, ?_⟩
      rwa [show f.index - n = (f.index - (n + 1)) + 1 by omega, List.getElem?_cons_succ]
    rw [missingDefaults] at h
    split at h
    · split at h
      · exact hstep h
      · rcases List.mem_cons.1 h with rfl | h
        · simp
        · exact hstep h
    · exact hstep h

/-- The entries of a record among the children of a node, one after the other. -/
def addressEach (type : String) (lenient : Bool) (above : String) (children : List (String × PathNode)) (record : Record) :
    Except Error (List (List (Nat × Value))) :=
  record.mapM fun (key, v) =>
    match Path.split key with
    | s :: rest => addressIn type lenient above children s rest v
    | [] => .ok []

/-- The fields that are addressed. -/
def fieldsOf (t : Layout E) (found : List (Nat × Value)) : List (Field E) :=
  found.filterMap fun (i, v) => t.props[i]?.map fun p => ⟨i, p, v⟩

theorem mem_fieldsOf {t : Layout E} {found : List (Nat × Value)} {f : Field E} (h : f ∈ fieldsOf t found) :
    t.props[f.index]? = some f.prop := by
  obtain ⟨⟨i, v⟩, -, hp⟩ := List.mem_filterMap.1 h
  obtain ⟨p, hp', rfl⟩ := Option.map_eq_some_iff.1 hp
  exact hp'

/-- The fields of a record in the order of the layout, with the defaults that a created node is given. -/
def arranged (t : Layout E) (create : Bool) (fields : List (Field E)) : List (Field E) :=
  (if create then fields ++ missingDefaults fields 0 t.props else fields).mergeSort fun a b => a.index ≤ b.index

theorem mem_arranged {t : Layout E} {create : Bool} {found : List (Nat × Value)} {f : Field E}
    (h : f ∈ arranged t create (fieldsOf t found)) : t.props[f.index]? = some f.prop := by
  rw [arranged, List.mem_mergeSort] at h
  split at h
  · rcases List.mem_append.1 h with h | h
    · exact mem_fieldsOf h
    · exact (missingDefaults_index h).2
  · exact mem_fieldsOf h

theorem collectFields_eq_ok {t : Layout E} {lenient create : Bool} {record : Record} {fields : List (Field E)} :
    collectFields t lenient create record = .ok fields ↔
      ∃ found, addressEach t.name lenient "" t.tree record = .ok found ∧
        fields = arranged t create (fieldsOf t found.flatten) ∧ ∀ f ∈ fields, checkField lenient f = .ok () := by
  unfold collectFields
  rw [Except.bind_eq_ok]
  refine exists_congr fun found => and_congr_right fun _ => ?_
  rw [Except.bind_eq_ok]
  constructor
  · rintro ⟨_, hcheck, h⟩
    cases h
    exact ⟨rfl, forM_eq_ok.1 hcheck⟩
  · rintro ⟨rfl, hcheck⟩
    exact ⟨_, forM_eq_ok.2 hcheck, rfl⟩

/-- The fields of a record are valid values of properties of the layout. -/
theorem collectFields_valid {t : Layout E} {lenient create : Bool} {record : Record} {fields : List (Field E)}
    (h : collectFields t lenient create record = .ok fields) :
    ∀ f ∈ fields, f.prop ∈ t.props ∧ f.prop.validateBuiltin f.value = .ok () := fun f hf => by
  obtain ⟨-, -, -, hcheck⟩ := collectFields_eq_ok.1 h
  exact ⟨collectFields_mem h hf, validateBuiltin_of_checkField (hcheck f hf)⟩

/-- The fields that a record addresses hold what it gives to their paths. -/
theorem valuesOf_fieldsOf {t : Layout E} (ht : t.Addressed) {lenient : Bool} {record : Record}
    {found : List (List (Nat × Value))} (h : addressEach t.name lenient "" t.tree record = .ok found) {i : Nat}
    {p : PropDef E} (hp : t.props[i]? = some p) :
    valuesOf i (fieldsOf t found.flatten) = Record.writesAt p.path record := by
  have hleaf := ht.leaf i p hp
  rw [fieldsOf, valuesOf_found hp, pick_fields (fun _ node _ => gives t.name lenient i node) ht.ordered (fun qs hqs => ?_) h,
    if_pos hleaf]
  obtain ⟨q, hq, rfl⟩ := ht.only qs i hqs
  rw [hp] at hq
  cases hq
  rfl

/-- The fields of a record are valid values of the properties of a layout, and hold what the record gives to their
paths. -/
theorem collectFields_values {t : Layout E} (ht : t.Addressed) {lenient create : Bool} {record : Record}
    {fields : List (Field E)} (h : collectFields t lenient create record = .ok fields) :
    (∀ f ∈ fields, t.props[f.index]? = some f.prop ∧ checkField lenient f = .ok ()) ∧
      ∀ i p, t.props[i]? = some p → (valuesOf i fields).Perm (givenTo create record p) := by
  obtain ⟨found, hfound, rfl, hcheck⟩ := collectFields_eq_ok.1 h
  refine ⟨fun f hf => ⟨mem_arranged hf, hcheck f hf⟩, fun i p hp => ?_⟩
  refine ((List.mergeSort_perm ..).filter _ |>.map _).trans ?_
  change (valuesOf i _).Perm _
  have hgiven := valuesOf_fieldsOf ht hfound hp
  unfold givenTo
  cases create with
  | false =>
    rw [if_neg (by simp), hgiven]
    cases Record.writesAt p.path record <;> exact .refl _
  | true =>
    have hmissing := valuesOf_missingDefaults (fieldsOf t found.flatten) 0 (k := i) hp
    rw [Nat.zero_add, hgiven] at hmissing
    rw [if_pos rfl, valuesOf_append, hgiven, hmissing]
    cases Record.writesAt p.path record with
    | nil => cases p.isMain <;> exact .refl _
    | cons v vs => simp

end Write

end NodeStore
