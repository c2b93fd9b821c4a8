import Mathlib.Data.Multiset.AddSub
import NodeStore.Proofs.Schema.WellFormed
import NodeStore.Proofs.Write.Texts

/-!
# Objects and dotted names

The entries of an object in a record may be written under dotted names instead, at any depth: the properties that are
addressed stay the same, and so does what is written.

* `Record.dotted`, `Record.Spreads`: the entries of an object under dotted names.
* `addressed`: what a record addresses, whatever the order of its entries; `addressed_spreads`: it stays the same.
* `collectFields_spreads`: so do the fields of a record that addresses no property twice.
* `objects_interchangeable`: calls do the same with either record.
-/

namespace NodeStore

/-- The entries of an object under the dotted names that lead to them. -/
def Record.dotted (key : String) (inner : Record) : Record := inner.map fun (name, v) => (key ++ "." ++ name, v)

/-- Some objects of a record, at any depth, are replaced by their entries under dotted names. The entries of a record are
in the order of their names, which is not that of the objects. -/
inductive Record.Spreads : List (String × PathNode) → Record → Record → Prop
  | entry {children inside : List (String × PathNode)} {key : String} (h : PathNode.branch? children (Path.split key) = some inside)
      (inner rest : Record) : Spreads children ((key, .object inner) :: rest) (Record.dotted key inner ++ rest)
  | within {children inside : List (String × PathNode)} {key : String} {inner inner' : Record}
      (h : PathNode.branch? children (Path.split key) = some inside) (hinner : Spreads inside inner inner') (rest : Record) :
      Spreads children ((key, .object inner) :: rest) ((key, .object inner') :: rest)
  | reorder {children : List (String × PathNode)} {record record' : Record} (h : record.Perm record') :
      Spreads children record record'
  | trans {children : List (String × PathNode)} {record record' record'' : Record} (h : Spreads children record record')
      (h' : Spreads children record' record'') : Spreads children record record''

/-- A record addresses each property of a layout at most once. -/
def Record.AtMostOnce {E : Type} (t : Layout E) (record : Record) : Prop :=
  ∀ p ∈ t.props, (Record.writesAt p.path record).length ≤ 1

namespace Write

/-! ### Addressed properties -/

section

variable (type : String) (lenient : Bool) (above : String) {children inside : List (String × PathNode)}

/-- Behind the name of a branch the search goes on among the children of the branch. -/
theorem exists_addressIn_inside {s : String} {rest : List String} (h : PathNode.branch? children (s :: rest) = some inside) :
    ∃ path, (∀ s' rest' v, addressIn type lenient above children s (rest ++ s' :: rest') v =
        addressIn type lenient path inside s' rest' v) ∧
      ∀ inner, addressIn type lenient above children s rest (.object inner) =
        (addressEach type lenient path inside inner).map List.flatten := by
  induction rest generalizing above children s with
  | nil =>
    rw [PathNode.branch?] at h
    split at h
    · rename_i inner hfind
      cases h
      refine ⟨below above s, fun s' rest' v => ?_, fun inner => ?_⟩
      · rw [addressIn_of_find? _ _ hfind, List.nil_append, address]
      · rw [addressIn_of_find? _ _ hfind, address]
        rfl
    · cases h
  | cons s₂ rest ih =>
    rw [PathNode.branch?] at h
    split at h
    · rename_i inner hfind
      obtain ⟨path, hname, hobject⟩ := ih (below above s) h
      refine ⟨path, fun s' rest' v => ?_, fun inner => ?_⟩
      · rw [addressIn_of_find? _ _ hfind, List.cons_append, address, hname]
      · rw [addressIn_of_find? _ _ hfind, address, hobject]
    · cases h

/-- The entries of an object address the same under dotted names. -/
theorem exists_addressEach_inside {key : String} (h : PathNode.branch? children (Path.split key) = some inside) :
    ∃ path, ∀ inner, addressEach type lenient above children (Record.dotted key inner) =
        addressEach type lenient path inside inner ∧
      addressEach type lenient above children [(key, .object inner)] =
        (addressEach type lenient path inside inner).map fun found => [found.flatten] := by
  obtain ⟨s, rest, hsplit⟩ := List.exists_cons_of_ne_nil (Path.split_ne_nil key)
  rw [hsplit] at h
  obtain ⟨path, hname, hobject⟩ := exists_addressIn_inside type lenient above h
  refine ⟨path, fun inner => ⟨?_, ?_⟩⟩
  · unfold addressEach Record.dotted
    rw [List.mapM_map]
    congr 1
    funext ⟨name, v⟩
    obtain ⟨s', rest', hsplit'⟩ := List.exists_cons_of_ne_nil (Path.split_ne_nil name)
    simp only [Function.comp_apply, Path.split_append, hsplit, hsplit', List.cons_append, hname]
  · have hone : addressEach type lenient above children [(key, .object inner)] =
        (addressIn type lenient above children s rest (.object inner)).map fun found => [found] := by
      rw [addressEach, List.mapM_cons]
      simp only [hsplit]
      cases addressIn type lenient above children s rest (.object inner) <;> rfl
    rw [hone, hobject]
    cases addressEach type lenient path inside inner <;> rfl

variable (children)

theorem addressEach_append (record record' : Record) : addressEach type lenient above children (record ++ record') =
    (addressEach type lenient above children record).bind fun found =>
      (addressEach type lenient above children record').map (found ++ ·) := by
  unfold addressEach
  rw [List.mapM_append]
  rfl

/-- The properties that a record addresses with their values, whatever the order; none if an entry is refused. -/
def addressed (record : Record) : Option (Multiset (Nat × Value)) :=
  (addressEach type lenient above children record).toOption.map fun found => (found.flatten : Multiset (Nat × Value))

theorem addressed_append (record record' : Record) : addressed type lenient above children (record ++ record') =
    (addressed type lenient above children record).bind fun found =>
      (addressed type lenient above children record').map (found + ·) := by
  unfold addressed
  rw [addressEach_append]
  cases addressEach type lenient above children record with
  | error => rfl
  | ok found =>
    cases addressEach type lenient above children record' with
    | error => rfl
    | ok found' => simp [Except.bind, Except.map, Except.toOption]

theorem addressed_swap (record record' : Record) : addressed type lenient above children (record ++ record') =
    addressed type lenient above children (record' ++ record) := by
  rw [addressed_append, addressed_append]
  cases addressed type lenient above children record <;> cases addressed type lenient above children record' <;>
    simp [Multiset.add_comm]

theorem addressed_cons (x : String × Value) (record : Record) : addressed type lenient above children (x :: record) =
    (addressed type lenient above children [x]).bind fun found =>
      (addressed type lenient above children record).map (found + ·) :=
  addressed_append type lenient above children [x] record

theorem addressed_perm {record record' : Record} (h : record.Perm record') :
    addressed type lenient above children record = addressed type lenient above children record' := by
  induction h with
  | nil => rfl
  | cons x _ ih => rw [addressed_cons, ih, ← addressed_cons]
  | swap x y record =>
    have hpair : addressed type lenient above children [y, x] = addressed type lenient above children [x, y] :=
      addressed_swap type lenient above children [y] [x]
    have hrest := fun pair => addressed_append type lenient above children pair record
    exact (hrest [y, x]).trans (hpair ▸ (hrest [x, y]).symm)
  | trans _ _ ih ih' => exact ih.trans ih'

variable {children}

/-- Objects and dotted names address the same. -/
theorem addressed_spreads {record record' : Record} (h : Record.Spreads children record record') :
    addressed type lenient above children record = addressed type lenient above children record' := by
  induction h generalizing above with
  | @entry children inside key hbranch inner rest =>
    obtain ⟨path, hpath⟩ := exists_addressEach_inside type lenient above hbranch
    obtain ⟨hdotted, hobject⟩ := hpath inner
    rw [addressed_cons, addressed_append]
    congr 1
    unfold addressed
    rw [hdotted, hobject]
    cases addressEach type lenient path inside inner <;> simp [Except.map, Except.toOption]
  | @within children inside key inner inner' hbranch _ rest ih =>
    obtain ⟨path, hpath⟩ := exists_addressEach_inside type lenient above hbranch
    have hinner := ih path
    rw [addressed_cons, addressed_cons type lenient above children (key, .object inner')]
    congr 1
    unfold addressed at hinner ⊢
    rw [(hpath inner).2, (hpath inner').2]
    cases hi : addressEach type lenient path inside inner <;> cases hi' : addressEach type lenient path inside inner' <;>
      simp_all [Except.map, Except.toOption]
  | reorder h => exact addressed_perm type lenient above _ h
  | trans _ _ ih ih' => exact (ih above).trans (ih' above)

variable {type lenient above}

theorem exists_addressEach_perm {record record' : Record}
    (h : addressed type lenient above children record = addressed type lenient above children record')
    {found : List (List (Nat × Value))} (hfound : addressEach type lenient above children record = .ok found) :
    ∃ found', addressEach type lenient above children record' = .ok found' ∧ found.flatten.Perm found'.flatten := by
  unfold addressed at h
  rw [hfound] at h
  cases hfound' : addressEach type lenient above children record' with
  | error => simp [hfound', Except.toOption] at h
  | ok found' =>
    refine ⟨found', rfl, ?_⟩
    simpa [hfound', Except.toOption] using h

end

/-! ### Fields -/

section

variable {E : Type} {t : Layout E} {fields fields' : List (Field E)}

theorem perm_fieldsOf {found found' : List (Nat × Value)} (h : found.Perm found') : (fieldsOf t found).Perm (fieldsOf t found') :=
  h.filterMap _

theorem nodup_index (h : ∀ i, (valuesOf i fields).length ≤ 1) : (fields.map (·.index)).Nodup := by
  refine List.nodup_iff_count_le_one.2 fun i => ?_
  have hcount : (fields.map (·.index)).count i = (valuesOf i fields).length := by
    rw [valuesOf, List.length_map, ← List.countP_eq_length_filter, List.count, List.countP_map]
    rfl
  rw [hcount]
  exact h i

/-- The added defaults are those of properties that no field addresses. -/
theorem length_valuesOf_append_missingDefaults (h : ∀ i, (valuesOf i fields).length ≤ 1) (i : Nat) :
    (valuesOf i (fields ++ missingDefaults fields 0 t.props)).length ≤ 1 := by
  rw [valuesOf_append]
  cases hp : t.props[i]? with
  | none =>
    have hnone : valuesOf i (missingDefaults fields 0 t.props) = [] := by
      rw [valuesOf, List.map_eq_nil_iff, List.filter_eq_nil_iff]
      intro f hf hi
      have := (missingDefaults_index hf).2
      rw [Nat.sub_zero, of_decide_eq_true hi, hp] at this
      cases this
    rw [hnone, List.append_nil]
    exact h i
  | some p =>
    have hmissing := valuesOf_missingDefaults fields 0 hp
    rw [Nat.zero_add] at hmissing
    rw [hmissing]
    split
    · rename_i hfree
      rw [hfree.2]
      cases p.default <;> simp
    · simpa using h i

/-- Fields of different properties are arranged in one order only. -/
theorem arranged_perm (create : Bool) (h : fields.Perm fields') (honce : ∀ i, (valuesOf i fields).length ≤ 1) :
    arranged t create fields = arranged t create fields' := by
  have hany : ∀ i, fields'.any (·.index = i) = fields.any (·.index = i) := fun i => by
    rw [Bool.eq_iff_iff, List.any_eq_true, List.any_eq_true]
    simp only [h.mem_iff]
  unfold arranged
  rw [missingDefaults_congr hany]
  generalize hall : (if create then fields ++ missingDefaults fields 0 t.props else fields) = all
  generalize hall' : (if create then fields' ++ missingDefaults fields 0 t.props else fields') = all'
  have hperm : all.Perm all' := by
    rw [← hall, ← hall']
    split
    · exact h.append_right _
    · exact h
  have hnodup : (all.map (·.index)).Nodup := by
    refine nodup_index fun i => ?_
    rw [← hall]
    split
    · exact length_valuesOf_append_missingDefaults honce i
    · exact honce i
  have hsorted : ∀ fs : List (Field E), (fs.mergeSort fun a b => a.index ≤ b.index).Pairwise fun a b => a.index ≤ b.index :=
    fun fs => (List.pairwise_mergeSort (by simp; omega) (by simp; omega) fs).imp fun h => of_decide_eq_true h
  refine List.Perm.eq_of_pairwise (fun a b ha hb hab hba => ?_) (hsorted all) (hsorted all')
    (((List.mergeSort_perm ..).trans hperm).trans (List.mergeSort_perm ..).symm)
  rw [List.mem_mergeSort] at ha hb
  exact List.inj_on_of_nodup_map hnodup ha (hperm.mem_iff.2 hb) (Nat.le_antisymm hab hba)

/-- Objects and dotted names stand for the same fields in the same order, or are both refused. -/
theorem collectFields_spreads (ht : t.Addressed) {record record' : Record} (h : Record.Spreads t.tree record record')
    (honce : Record.AtMostOnce t record) (lenient create : Bool) (fields : List (Field E)) :
    collectFields t lenient create record = .ok fields ↔ collectFields t lenient create record' = .ok fields := by
  have hsame := addressed_spreads t.name lenient "" h
  have harranged : ∀ {found found' : List (List (Nat × Value))}, addressEach t.name lenient "" t.tree record = .ok found →
      found.flatten.Perm found'.flatten →
        arranged t create (fieldsOf t found.flatten) = arranged t create (fieldsOf t found'.flatten) := by
    intro found found' hfound hperm
    refine arranged_perm create (perm_fieldsOf hperm) fun i => ?_
    cases hp : t.props[i]? with
    | some p =>
      rw [valuesOf_fieldsOf ht hfound hp]
      exact honce p (List.mem_of_getElem? hp)
    | none =>
      have hnone : ∀ f ∈ fieldsOf t found.flatten, f.index ≠ i := fun f hf hi => by
        have := mem_fieldsOf hf
        rw [hi, hp] at this
        cases this
      rw [valuesOf, List.filter_eq_nil_iff.2 fun f hf => by simpa using hnone f hf]
      exact Nat.zero_le _
  rw [collectFields_eq_ok, collectFields_eq_ok]
  constructor
  · rintro ⟨found, hfound, rfl, hcheck⟩
    obtain ⟨found', hfound', hperm⟩ := exists_addressEach_perm hsame hfound
    exact ⟨found', hfound', harranged hfound hperm, hcheck⟩
  · rintro ⟨found', hfound', rfl, hcheck⟩
    obtain ⟨found, hfound, hperm⟩ := exists_addressEach_perm hsame.symm hfound'
    exact ⟨found, hfound, (harranged hfound hperm.symm).symm, hcheck⟩

end

/-! ### Calls -/

namespace Session

variable {s : Session} {type : String} {t : TypeLayout} {record record' : Record}

/-- An update with one record does the same as with another, or waits with its record for a node in flight. -/
def UpdatesAs (record record' : Record) (target : NodeRef) (call : Record → SessionM Unit) (s : Session) : Prop :=
  ∀ s', call record s = .ok () s' → call record' s = .ok () s' ∨ ∃ (p : PendingId) (s₁ : Session), target = .pending p ∧
    s' = { s₁ with registry := s₁.registry.queue p (.update record) } ∧
    call record' s = .ok () { s₁ with registry := s₁.registry.queue p (.update record') }

/-- Calls with two records that have the same fields do the same. -/
structure CallsAs (s : Session) (type : String) (t : TypeLayout) (record record' : Record) : Prop where
  create : ∀ p s', s.create type record = .ok p s' → s.create type record' = .ok p s'
  update : ∀ target, UpdatesAs record record' target (Session.update type target) s
  /-- The update waited for the node. -/
  replay : ∀ id s', Session.replay t.id id (.update record) s = .ok () s' → Session.replay t.id id (.update record') s = .ok () s'

theorem callsAs_of_fields (hname : s.schema.typeByName? type = some t) (hid : s.schema.typeById? t.id = some t)
    (hfields : ∀ create fields, collectFields t s.lenient create record = .ok fields →
      collectFields t s.lenient create record' = .ok fields) : CallsAs s type t record record' where
  create p s' := create_congr fun u fields hu hcollect => by
    obtain rfl : t = u := Option.some.inj (hname.symm.trans hu)
    exact ⟨fields, hfields true fields hcollect, fun _ _ => rfl⟩
  update target s' := update_congr fun u v fields hu hv hcollect => by
    obtain rfl : t = u := Option.some.inj (hname.symm.trans hu)
    obtain rfl : t = v := Option.some.inj (hid.symm.trans hv)
    exact ⟨fields, hfields false fields hcollect, fun _ _ => rfl⟩
  replay id s' h := by
    have hnode : ∀ v fields, s.schema.typeById? t.id = some v → collectFields v s.lenient false record = .ok fields →
        ∃ fields', collectFields v s.lenient false record' = .ok fields' ∧
          ∀ c : Context, c.locale = s.locale → writeUpdate c v fields' = writeUpdate c v fields := by
      intro v fields hv hcollect
      obtain rfl : t = v := Option.some.inj (hid.symm.trans hv)
      exact ⟨fields, hfields false fields hcollect, fun _ _ => rfl⟩
    rcases updateNode_congr hnode h with hdone | ⟨_, _, htarget, -⟩
    · exact hdone
    · cases htarget

/-- Objects and dotted names are interchangeable. In every layout of a schema that compiles, of a type or of what links
store, a record that addresses no property twice has the same fields whichever way its entries are written; so creating
and updating nodes do the same with both records. -/
theorem objects_interchangeable {decl : SchemaDecl} {priority : Priority} {schema : SchemaLayout}
    (hschema : decl.compile priority = .ok schema) :
    (∀ {E : Type} (t : Layout E), schema.HasLayout t → ∀ record record', Record.Spreads t.tree record record' →
      Record.AtMostOnce t record → ∀ lenient create fields,
        collectFields t lenient create record = .ok fields ↔ collectFields t lenient create record' = .ok fields) ∧
    ∀ s : Session, s.schema = schema → ∀ type t, schema.typeByName? type = some t → ∀ record record',
      Record.Spreads t.tree record record' → Record.AtMostOnce t record →
        CallsAs s type t record record' ∧ CallsAs s type t record' record := by
  have hfields : ∀ {E : Type} (t : Layout E), schema.HasLayout t → ∀ record record', Record.Spreads t.tree record record' →
      Record.AtMostOnce t record → ∀ lenient create fields,
        collectFields t lenient create record = .ok fields ↔ collectFields t lenient create record' = .ok fields :=
    fun t ht record record' h honce => collectFields_spreads (compile_hasLayout hschema ht).2.1 h honce
  refine ⟨hfields, fun s hs type t hname record record' h honce => ?_⟩
  subst hs
  have ht : t ∈ s.schema.types := List.mem_of_find?_eq_some hname
  have hid := (compile_placed hschema).ids t ht
  have hsame := hfields t (.ofType ht) record record' h honce s.lenient
  exact ⟨callsAs_of_fields hname hid fun create fields => (hsame create fields).1,
    callsAs_of_fields hname hid fun create fields => (hsame create fields).2⟩

open People in
/-- The number of a house, in an object and under a dotted name. -/
theorem objects_interchangeable_home :
    ∃ fields p s₀ s, decl.compile = .ok layout ∧ start layout {} = .ok s₀ ∧
      collectFields person false true [("home", .object [("number", .int 7)])] = .ok fields ∧
      collectFields person false true [("home.number", .int 7)] = .ok fields ∧
      s₀.create "person" [("home", .object [("number", .int 7)])] = .ok p s ∧
      s₀.create "person" [("home.number", .int 7)] = .ok p s := by
  obtain ⟨inside, hinside⟩ : ∃ inside, PathNode.branch? person.tree (Path.split "home") = some inside :=
    Option.isSome_iff_exists.1 (by decide +kernel)
  have hspreads : Record.Spreads person.tree [("home", .object [("number", .int 7)])] [("home.number", .int 7)] :=
    .entry hinside _ []
  have honce : Record.AtMostOnce person [("home", .object [("number", .int 7)])] := by
    have hall : person.props.all fun p => (Record.writesAt p.path [("home", .object [("number", .int 7)])]).length ≤ 1 := by
      decide +kernel
    exact fun p hp => of_decide_eq_true (List.all_eq_true.1 hall p hp)
  obtain ⟨s₀, hstart, hschema, hlenient⟩ : ∃ s₀, start layout {} = .ok s₀ ∧ s₀.schema = layout ∧ s₀.lenient = false :=
    ⟨_, rfl, rfl, rfl⟩
  obtain ⟨p, s, hcreate⟩ : ∃ p s, s₀.create "person" [("home", .object [("number", .int 7)])] = .ok p s := by
    cases hstart
    exact EStateM.eq_ok_of_succeeds (by decide +kernel)
  obtain ⟨t, fields, -, -, -, ht, hfields, -⟩ := create_eq_ok hcreate
  obtain rfl : person = t := Option.some.inj ((hschema ▸ ht : layout.typeByName? "person" = some t))
  rw [hlenient] at hfields
  obtain ⟨hlayouts, hcalls⟩ := objects_interchangeable compile_decl
  obtain ⟨hsame, -⟩ := hcalls s₀ hschema "person" person rfl _ _ hspreads honce
  exact ⟨fields, p, s₀, s, compile_decl, hstart, hfields,
    (hlayouts person (.ofType (by simp [layout])) _ _ hspreads honce false true fields).1 hfields, hcreate,
    hsame.create p s hcreate⟩

end Session

end Write

end NodeStore
