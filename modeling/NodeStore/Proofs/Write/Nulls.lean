import NodeStore.Proofs.SortedLists
import NodeStore.Proofs.Write.ReadBack

/-!
# Nulls in the record of a new node

A null says that there is nothing to write, so a node is created alike without it, as long as the null is not all that
keeps a default away: a separate property that the record does not mention is given its default.

* `Record.DropsTo`: some nulls of a record are left out, at any depth.
* `Fades`: the same of fields; `dropsAt`, `addressEach_dropsTo`: what a record addresses.
* `collectFields_dropsTo`: the fields that have a value stay the same; `writeCreate_valued`: they alone are written.
* `create_without_nulls`: the calls do the same.
-/

namespace NodeStore

/-! ### Records -/

mutual

/-- Some nulls in the objects of a value are left out. -/
inductive Value.DropsTo : Value → Value → Prop
  | refl (v : Value) : Value.DropsTo v v
  | object {record record' : Record} (h : Record.DropsTo record record') : Value.DropsTo (.object record) (.object record')

/-- Some nulls of a record are left out, at any depth. -/
inductive Record.DropsTo : Record → Record → Prop
  | nil : Record.DropsTo [] []
  | keep {key : String} {v v' : Value} {record record' : Record} (hv : Value.DropsTo v v')
      (h : Record.DropsTo record record') : Record.DropsTo ((key, v) :: record) ((key, v') :: record')
  | drop {key : String} {record record' : Record} (h : Record.DropsTo record record') :
      Record.DropsTo ((key, .null) :: record) record'

end

namespace Write

variable {E : Type}

/-! ### Fields -/

/-- The fields that have a value. -/
def valued (fields : List (Field E)) : List (Field E) := fields.filter fun f => !f.value.isNull

@[simp] theorem valued_append (fields more : List (Field E)) : valued (fields ++ more) = valued fields ++ valued more :=
  List.filter_append ..

/-- Some nulls among the fields are left out. -/
structure Fades (fields fields' : List (Field E)) : Prop where
  sublist : fields'.Sublist fields
  valued : Write.valued fields' = Write.valued fields

theorem Fades.refl (fields : List (Field E)) : Fades fields fields := ⟨.refl _, rfl⟩

theorem Fades.append {fields fields' more more' : List (Field E)} (h : Fades fields fields') (h' : Fades more more') :
    Fades (fields ++ more) (fields' ++ more') :=
  ⟨h.sublist.append h'.sublist, by rw [valued_append, valued_append, h.valued, h'.valued]⟩

theorem Fades.nulls {fields : List (Field E)} (h : ∀ f ∈ fields, f.value = .null) : Fades fields [] := by
  refine ⟨List.nil_sublist _, (List.filter_eq_nil_iff.2 fun f hf => ?_).symm⟩
  simp [h f hf, Value.isNull]

/-- No field has an object as its value. -/
def Plain (fields : List (Field E)) : Prop := ∀ f ∈ fields, ∀ record, f.value ≠ .object record

/-! ### Addressed properties -/

section

variable {t : Layout E} {type : String} {lenient : Bool} {children : List (String × PathNode)}

theorem fieldsOf_append (t : Layout E) (found more : List (Nat × Value)) :
    fieldsOf t (found ++ more) = fieldsOf t found ++ fieldsOf t more := List.filterMap_append

/-- From a node, a null addresses nothing but nulls. -/
def NullsAt (type : String) (lenient : Bool) (node : PathNode) : Prop :=
  ∀ path rest found, address type lenient path node rest .null = .ok found → ∀ x ∈ found, x.2 = .null

theorem addressIn_null (hnulls : ∀ s node, Assoc.find? s children = some node → NullsAt type lenient node) {above s : String}
    {rest : List String} {found : List (Nat × Value)} (h : addressIn type lenient above children s rest .null = .ok found) :
    ∀ x ∈ found, x.2 = .null := by
  cases hf : Assoc.find? s children with
  | none =>
    rw [addressIn_of_none rest _ hf] at h
    rw [unknownName_eq_ok h]
    nofun
  | some node =>
    rw [addressIn_of_find? rest _ hf] at h
    exact hnulls s node hf _ rest found h

theorem nullsAt (type : String) (lenient : Bool) (node : PathNode) : NullsAt type lenient node := by
  induction node using PathNode.induction_children with
  | leaf i =>
    intro path rest found h
    rw [address] at h
    split at h
    · cases h
      simp
    · rw [unknownName_eq_ok h]
      exact List.forall_mem_nil _
  | branch children hnulls =>
    intro path rest found h
    cases rest with
    | cons s rest =>
      rw [address] at h
      exact addressIn_null hnulls h
    | nil =>
      rw [address] at h
      cases h
      intro x hx
      obtain ⟨i, -, rfl⟩ := List.mem_map.1 hx
      rfl

/-- From a node, a value without some of its nulls addresses the same but for nulls. A property is given no object. -/
def DropsAt (t : Layout E) (type : String) (lenient : Bool) (node : PathNode) : Prop :=
  ∀ path rest v v' found, v.DropsTo v' → address type lenient path node rest v = .ok found →
    ∃ found', address type lenient path node rest v' = .ok found' ∧
      (Plain (fieldsOf t found) → Fades (fieldsOf t found) (fieldsOf t found'))

theorem addressIn_dropsTo (hdrops : ∀ s node, Assoc.find? s children = some node → DropsAt t type lenient node)
    {above s : String} {rest : List String} {v v' : Value} (hv : v.DropsTo v') {found : List (Nat × Value)}
    (h : addressIn type lenient above children s rest v = .ok found) :
    ∃ found', addressIn type lenient above children s rest v' = .ok found' ∧
      (Plain (fieldsOf t found) → Fades (fieldsOf t found) (fieldsOf t found')) := by
  cases hf : Assoc.find? s children with
  | none =>
    rw [addressIn_of_none rest v hf] at h
    rw [addressIn_of_none rest v' hf]
    exact ⟨found, h, fun _ => .refl _⟩
  | some node =>
    rw [addressIn_of_find? rest v hf] at h
    rw [addressIn_of_find? rest v' hf]
    exact hdrops s node hf _ rest v v' found hv h

/-- Entry by entry. -/
theorem addressEach_dropsTo (hdrops : ∀ s node, Assoc.find? s children = some node → DropsAt t type lenient node)
    {record record' : Record} (hr : Record.DropsTo record record') {above : String} {found : List (List (Nat × Value))}
    (h : addressEach type lenient above children record = .ok found) :
    ∃ found', addressEach type lenient above children record' = .ok found' ∧
      (Plain (fieldsOf t found.flatten) → Fades (fieldsOf t found.flatten) (fieldsOf t found'.flatten)) := by
  induction record generalizing record' found with
  | nil =>
    cases hr
    exact ⟨found, h, fun _ => .refl _⟩
  | cons x record ih =>
    obtain ⟨key, v⟩ := x
    obtain ⟨s, rest, hsplit⟩ := List.exists_cons_of_ne_nil (Path.split_ne_nil key)
    rw [addressEach, List.mapM_cons] at h
    obtain ⟨first, hfirst, h⟩ := Except.bind_eq_ok.1 h
    obtain ⟨others, hothers, h⟩ := Except.bind_eq_ok.1 h
    cases h
    simp only [hsplit] at hfirst
    have hsplits : Plain (fieldsOf t (first :: others).flatten) →
        Plain (fieldsOf t first) ∧ Plain (fieldsOf t others.flatten) := by
      intro hplain
      rw [List.flatten_cons, fieldsOf_append] at hplain
      exact ⟨fun f hf => hplain f (List.mem_append_left _ hf), fun f hf => hplain f (List.mem_append_right _ hf)⟩
    cases hr with
    | @keep _ _ v' _ record' hv hr =>
      obtain ⟨first', hfirst', hfade⟩ := addressIn_dropsTo hdrops hv hfirst
      obtain ⟨others', hothers', hfades⟩ := ih hr hothers
      refine ⟨first' :: others', ?_, fun hplain => ?_⟩
      · rw [addressEach, List.mapM_cons]
        simp only [hsplit]
        exact Except.bind_eq_ok.2 ⟨first', hfirst', Except.bind_eq_ok.2 ⟨others', hothers', rfl⟩⟩
      · rw [List.flatten_cons, List.flatten_cons, fieldsOf_append, fieldsOf_append]
        exact (hfade (hsplits hplain).1).append (hfades (hsplits hplain).2)
    | drop hr =>
      obtain ⟨others', hothers', hfades⟩ := ih hr hothers
      refine ⟨others', hothers', fun hplain => ?_⟩
      have hnulls : ∀ f ∈ fieldsOf t first, f.value = .null := by
        intro f hf
        obtain ⟨⟨i, v⟩, hmem, hp⟩ := List.mem_filterMap.1 hf
        obtain ⟨p, -, rfl⟩ := Option.map_eq_some_iff.1 hp
        exact addressIn_null (fun _ node _ => nullsAt type lenient node) hfirst _ hmem
      rw [List.flatten_cons, fieldsOf_append]
      exact (Fades.nulls hnulls).append (hfades (hsplits hplain).2)

theorem dropsAt (t : Layout E) (type : String) (lenient : Bool) (node : PathNode) : DropsAt t type lenient node := by
  induction node using PathNode.induction_children with
  | leaf i =>
    intro path rest v v' found hv h
    cases hv with
    | refl => exact ⟨found, h, fun _ => .refl _⟩
    | @object record record' hr =>
      rw [address] at h ⊢
      by_cases hrest : rest.isEmpty
      · rw [if_pos hrest] at h ⊢
        cases h
        refine ⟨[(i, .object record')], rfl, fun hplain => ?_⟩
        cases hp : t.props[i]? with
        | none => simp [fieldsOf, hp, Fades.refl]
        | some p => exact absurd rfl (hplain ⟨i, p, .object record⟩ (by simp [fieldsOf, hp]) record)
      · rw [if_neg hrest] at h ⊢
        exact ⟨found, h, fun _ => .refl _⟩
  | branch children hdrops =>
    intro path rest v v' found hv h
    cases rest with
    | cons s rest =>
      rw [address] at h ⊢
      exact addressIn_dropsTo hdrops hv h
    | nil =>
      cases hv with
      | refl => exact ⟨found, h, fun _ => .refl _⟩
      | object hr =>
        rw [address] at h ⊢
        obtain ⟨groups, hgroups, h⟩ := Except.bind_eq_ok.1 h
        cases h
        obtain ⟨groups', hgroups', hfades⟩ := addressEach_dropsTo hdrops hr hgroups
        exact ⟨groups'.flatten, Except.bind_eq_ok.2 ⟨groups', hgroups', rfl⟩, hfades⟩

end

/-! ### Collected fields -/

theorem checkField_null {lenient : Bool} {f : Field E} (h : f.value = .null) : checkField lenient f = .ok () := by
  unfold checkField PropDef.validate PropDef.validateBuiltin
  rw [h]
  cases lenient <;> simp [Value.isNull]

/-- No property takes an object. -/
theorem validateBuiltin_object (p : PropDef E) (record : Record) : p.validateBuiltin (.object record) ≠ .ok () := by
  unfold PropDef.validateBuiltin
  cases p.type <;> nofun

/-- Where the same separate properties with a default are addressed, the same defaults are missing. -/
theorem valued_missingDefaults {fields fields' : List (Field E)} {n : Nat} {ps : List (PropDef E)}
    (h : ∀ k p, ps[k]? = some p → p.isMain = false → (∃ v, p.default = some v ∧ v.isNull = false) →
      fields.any (·.index = n + k) = fields'.any (·.index = n + k)) :
    valued (missingDefaults fields' n ps) = valued (missingDefaults fields n ps) := by
  induction ps generalizing n with
  | nil => rfl
  | cons p ps ih =>
    have hrest := ih (n := n + 1) fun k q hq hmain hdefault => by
      have := h (k + 1) q hq hmain hdefault
      rwa [show n + (k + 1) = n + 1 + k by omega] at this
    have hskip : ∀ v, v.isNull = true → ∀ more, valued (⟨n, p, v⟩ :: more) = valued more := fun v hv more =>
      List.filter_cons_of_neg (by simp [hv])
    have hkeep : ∀ v, v.isNull = false → ∀ more, valued (⟨n, p, v⟩ :: more) = ⟨n, p, v⟩ :: valued more := fun v hv more =>
      List.filter_cons_of_pos (by simp [hv])
    rw [missingDefaults, missingDefaults]
    cases hd : p.default with
    | none => exact hrest
    | some v =>
      dsimp only
      cases hm : p.isMain with
      | true => simpa using hrest
      | false =>
        cases hv : v.isNull with
        | true => split <;> split <;> simp only [hskip v hv, hrest]
        | false =>
          have hsame := h 0 p rfl hm ⟨v, hd, hv⟩
          rw [Nat.add_zero] at hsame
          rw [hsame]
          split
          · exact hrest
          · rw [hkeep v hv, hkeep v hv, hrest]

theorem valued_arranged (t : Layout E) (create : Bool) (fields : List (Field E)) :
    valued (arranged t create fields) =
      (valued (if create then fields ++ missingDefaults fields 0 t.props else fields)).mergeSort fun a b => a.index ≤ b.index :=
  filter_mergeSort (fun a b c hab hbc => by simp at hab hbc ⊢; omega) (fun a b => by simp; omega) _ _

/-- Every separate property with a default that one record gives something to is given something by the other. -/
def Mentions (t : Layout E) (record record' : Record) : Prop :=
  ∀ p ∈ t.props, p.isMain = false → (∃ v, p.default = some v ∧ v.isNull = false) →
    Record.writesAt p.path record ≠ [] → Record.writesAt p.path record' ≠ []

/-- As long as the same properties with a default are addressed, no default comes in. -/
theorem missingDefaults_dropsTo {t : Layout E} (ht : t.Addressed) {lenient : Bool} {record record' : Record}
    {found found' : List (List (Nat × Value))} (hfound : addressEach t.name lenient "" t.tree record = .ok found)
    (hfound' : addressEach t.name lenient "" t.tree record' = .ok found')
    (hfade : Fades (fieldsOf t found.flatten) (fieldsOf t found'.flatten)) (hmentions : Mentions t record record') :
    valued (missingDefaults (fieldsOf t found'.flatten) 0 t.props) =
      valued (missingDefaults (fieldsOf t found.flatten) 0 t.props) := by
  refine valued_missingDefaults fun k p hp hmain hdefault => ?_
  rw [Nat.zero_add, Bool.eq_iff_iff, ← not_iff_not, Bool.not_eq_true, Bool.not_eq_true, any_index_eq_false,
    any_index_eq_false, valuesOf_fieldsOf ht hfound hp, valuesOf_fieldsOf ht hfound' hp]
  constructor
  · intro hnone
    have hsub := (hfade.sublist.filter (fun f : Field E => decide (f.index = k))).map Field.value
    change (valuesOf k _).Sublist (valuesOf k _) at hsub
    rw [valuesOf_fieldsOf ht hfound hp, valuesOf_fieldsOf ht hfound' hp, hnone] at hsub
    exact List.sublist_nil.1 hsub
  · intro hnone
    by_contra hsome
    exact hmentions p (List.mem_of_getElem? hp) hmain hdefault hsome hnone

/-- Without some of its nulls, a record has the same values for a new node, as long as no default comes in. -/
theorem collectFields_dropsTo {t : Layout E} (ht : t.Addressed) {lenient : Bool} {record record' : Record}
    (hr : Record.DropsTo record record') (hmentions : Mentions t record record') {fields : List (Field E)}
    (h : collectFields t lenient true record = .ok fields) :
    ∃ fields', collectFields t lenient true record' = .ok fields' ∧ valued fields' = valued fields := by
  obtain ⟨found, hfound, rfl, hcheck⟩ := collectFields_eq_ok.1 h
  obtain ⟨found', hfound', hfades⟩ := addressEach_dropsTo (fun _ node _ => dropsAt t t.name lenient node) hr hfound
  have hmem : ∀ f, f ∈ arranged t true (fieldsOf t found.flatten) ↔
      f ∈ fieldsOf t found.flatten ∨ f ∈ missingDefaults (fieldsOf t found.flatten) 0 t.props := fun f => by
    rw [arranged, List.mem_mergeSort, if_pos rfl, List.mem_append]
  have hfade := hfades fun f hf inner hinner => by
    have hvalid := validateBuiltin_of_checkField (hcheck f ((hmem f).2 (.inl hf)))
    exact validateBuiltin_object f.prop inner (hinner ▸ hvalid)
  have hmissing := missingDefaults_dropsTo ht hfound hfound' hfade hmentions
  have hvalued : valued (arranged t true (fieldsOf t found'.flatten)) = valued (arranged t true (fieldsOf t found.flatten)) := by
    rw [valued_arranged, valued_arranged, if_pos rfl, if_pos rfl, valued_append, valued_append, hfade.valued, hmissing]
  refine ⟨_, collectFields_eq_ok.2 ⟨found', hfound', rfl, fun f hf => ?_⟩, hvalued⟩
  -- A field with a value is one of the record with all its nulls.
  cases hnull : f.value.isNull with
  | true => exact checkField_null (by cases hv : f.value <;> simp_all [Value.isNull])
  | false =>
    have hf' : f ∈ valued (arranged t true (fieldsOf t found'.flatten)) := List.mem_filter.2 ⟨hf, by simp [hnull]⟩
    rw [hvalued] at hf'
    exact hcheck f (List.mem_filter.1 hf').1

/-! ### New nodes -/

theorem forM_valued {fields : List (Field E)} {f : Field E → EncodeM Unit}
    (h : ∀ x ∈ fields, x.value.isNull = true → f x = pure ()) : fields.forM f = (valued fields).forM f := by
  induction fields with
  | nil => rfl
  | cons x fields ih =>
    have hrest := ih fun y hy => h y (List.mem_cons_of_mem _ hy)
    cases hx : x.value.isNull with
    | true =>
      rw [valued, List.filter_cons_of_neg (by simp [hx])]
      change (f x >>= fun _ => fields.forM f) = _
      rw [h x List.mem_cons_self hx, pure_bind]
      exact hrest
    | false =>
      rw [valued, List.filter_cons_of_pos (by simp [hx])]
      change (f x >>= fun _ => fields.forM f) = (f x >>= fun _ => (valued fields).forM f)
      rw [hrest]

theorem writeSeparate_null (c : Context) (edgesOf : EdgeEncoder E) {p : PropDef E} {v : Value} (h : v.isNull = true) :
    writeSeparate c edgesOf true p v = pure () := by
  cases v with
  | null => unfold writeSeparate; cases p.type <;> rfl
  | _ => cases h

/-- A new node is written by the fields that have a value. -/
theorem writeCreate_valued (c : Context) (t : TypeLayout) (fields : List (Field EdgeLayout)) :
    writeCreate c t fields = writeCreate c t (valued fields) := by
  have hmain : mainBlock t (valued fields) = mainBlock t fields := by
    unfold mainBlock valued
    rw [List.filter_filter]
    congr 2
    funext f
    cases f.value.isNull <;> simp
  have hseparate : (valued fields).filter (fun f => !f.prop.isMain) = valued (fields.filter fun f => !f.prop.isMain) := by
    unfold valued
    rw [List.filter_filter, List.filter_filter]
    congr 1
    funext f
    exact Bool.and_comm _ _
  unfold writeCreate writeCreateWith
  rw [hmain, hseparate, forM_valued fun f _ hf => writeSeparate_null c _ hf]

namespace Session

variable {s s' : Session} {type : String} {record record' : Record} {p : PendingId}

/-- A node is created alike by records with the same values for it. -/
theorem create_of_valued {t : TypeLayout} (ht : s.schema.typeByName? type = some t) {fields fields' : List (Field EdgeLayout)}
    (h : collectFields t s.lenient true record = .ok fields) (h' : collectFields t s.lenient true record' = .ok fields')
    (hvalued : valued fields' = valued fields) : create type record' s = create type record s := by
  rw [create_of_fields ht h, create_of_fields ht h']
  simp only [writeCreate_valued _ t fields, writeCreate_valued _ t fields', hvalued]

end Session

end Write

end NodeStore
