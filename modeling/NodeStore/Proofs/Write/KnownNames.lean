import NodeStore.Proofs.SortedLists
import NodeStore.Proofs.Write.LinkRecords
import NodeStore.Proofs.Write.Texts

/-!
# Records without unknown names

An entry of a record addresses a property, or an object of properties, or nothing at all. A lenient caller skips those
that address nothing, at any depth: it finds what any caller finds in the record without them.

* `PathNode.follow`: where a name leads; `Record.known`: a record without the entries that lead nowhere.
* `EdgeLayout.known`, `TypeLayout.known`: the same for what a link stores, and for a node with what its links store.
* `address_known`, `address_lenient`: what lenient callers find, and what others find in the same record or in that one.
* `collectFields_agrees`: the fields are the same, but for the records on links.
-/

namespace NodeStore

/-- The node that a path leads to. -/
def PathNode.follow : PathNode → List String → Option PathNode
  | node, [] => some node
  | .leaf _, _ :: _ => none
  | .branch children, s :: rest => (Assoc.find? s children).bind fun node => node.follow rest

mutual

/-- A value at a node of a path tree, without the entries that lead nowhere; `f` is done to the value of each property. -/
def Value.known (f : Nat → Value → Value) : PathNode → Value → Value
  | .leaf i, v => f i v
  | .branch children, .object fields => .object (Record.known f children fields)
  | .branch _, v => v

/-- A record without the entries that lead nowhere. -/
def Record.known (f : Nat → Value → Value) (children : List (String × PathNode)) :
    List (String × Value) → List (String × Value)
  | [] => []
  | (key, v) :: fields =>
    match (PathNode.branch children).follow (Path.split key) with
    | some node => (key, Value.known f node v) :: Record.known f children fields
    | none => Record.known f children fields

end

/-- A value of a property with other records on its links, given the index of the property. -/
def Layout.relinkAt {E : Type} (t : Layout E) (g : PropDef E → Record → Record) (i : Nat) (v : Value) : Value :=
  (t.props[i]?).elim v fun p => p.relink (g p) v

/-- The properties of a layout have no validators, and those with links have neither a default nor a place in the main
block. -/
structure Layout.Unchecked {E : Type} (t : Layout E) : Prop where
  validator : ∀ p ∈ t.props, p.validator = none
  default : ∀ p ∈ t.props, p.type.isReference = true → p.default = none
  separate : ∀ p ∈ t.props, p.isMain = true → p.type.isReference = false

/-- What a link stores without the entries that lead nowhere. The links of links store nothing. -/
def EdgeLayout.known (t : EdgeLayout) (edges : Record) : Record :=
  Assoc.select (fun name => (PathNode.branch t.tree).follow (Path.split (Write.plainName name)))
    (fun node v => v.known (t.relinkAt fun _ _ => []) node) edges

/-- What the links of a property store, without the entries that lead nowhere. -/
def PropDef.knownEdges (p : PropDef EdgeLayout) (edges : Record) : Record := p.edges.elim [] (·.known edges)

/-- A record without the entries that lead nowhere, at any depth and on the links too. -/
def TypeLayout.known (t : TypeLayout) (record : Record) : Record :=
  Record.known (t.relinkAt PropDef.knownEdges) t.tree record

namespace Write

variable {E : Type} {X : Prop} {b : Bool} {type : String} {children : List (String × PathNode)}
  {f : Nat → Value → Value}

/-! ### Addressed properties -/

/-- The same properties are given the same values but for `f`. -/
def Moved (f : Nat → Value → Value) (found found' : List (Nat × Value)) : Prop :=
  found.map (fun x => (x.1, f x.1 x.2)) = found'

theorem Moved.append {found found' more more' : List (Nat × Value)} (h : Moved f found found') (h' : Moved f more more') :
    Moved f (found ++ more) (found' ++ more') := by
  unfold Moved
  rw [List.map_append, h, h']

/-- From a node, nothing is found where a name leads nowhere; anything else is found without what leads nowhere. -/
def KnownAt (f : Nat → Value → Value) (type : String) (b : Bool) (node : PathNode) : Prop :=
  ∀ path rest v, (node.follow rest = none → address type true path node rest v = .ok []) ∧
    ∀ n, node.follow rest = some n →
      Agree False (Moved f) (address type true path node rest v) (address type b path node rest (v.known f n))

theorem addressIn_known (hchildren : ∀ s node, Assoc.find? s children = some node → KnownAt f type b node)
    (above s : String) (rest : List String) (v : Value) :
    ((PathNode.branch children).follow (s :: rest) = none → addressIn type true above children s rest v = .ok []) ∧
      ∀ n, (PathNode.branch children).follow (s :: rest) = some n →
        Agree False (Moved f) (addressIn type true above children s rest v)
          (addressIn type b above children s rest (v.known f n)) := by
  rw [PathNode.follow]
  cases hf : Assoc.find? s children with
  | none =>
    refine ⟨fun _ => ?_, fun n hn => by cases hn⟩
    rw [addressIn_of_none rest v hf]
    rfl
  | some node =>
    obtain ⟨hnone, hsome⟩ := hchildren s node hf (below above s) rest v
    refine ⟨fun h => ?_, fun n hn => ?_⟩
    · rw [addressIn_of_find? rest v hf]
      exact hnone h
    · rw [addressIn_of_find? rest v hf, addressIn_of_find? rest _ hf]
      exact hsome n hn

/-- Entry by entry. -/
theorem addressEach_known (hchildren : ∀ s node, Assoc.find? s children = some node → KnownAt f type b node)
    (above : String) (record : Record) :
    Agree False (fun found found' => Moved f found.flatten found'.flatten) (addressEach type true above children record)
      (addressEach type b above children (Record.known f children record)) := by
  induction record with
  | nil => exact .ok rfl
  | cons x record ih =>
    obtain ⟨key, v⟩ := x
    obtain ⟨s, rest, hsplit⟩ := List.exists_cons_of_ne_nil (Path.split_ne_nil key)
    obtain ⟨hnone, hsome⟩ := addressIn_known hchildren above s rest v
    rw [addressEach, List.mapM_cons, Record.known]
    simp only [hsplit]
    cases hfollow : (PathNode.branch children).follow (s :: rest) with
    | none =>
      rw [hnone hfollow, ← bind_pure (addressEach type b above children _)]
      exact ih.bind fun found found' h => .ok h
    | some n =>
      dsimp only
      rw [addressEach, List.mapM_cons]
      simp only [hsplit]
      refine (hsome n hfollow).bind fun found found' h => ih.bind fun more more' h' => .ok ?_
      rw [List.flatten_cons, List.flatten_cons]
      exact h.append h'

theorem knownAt (hf : ∀ i, f i .null = .null) (type : String) (b : Bool) (node : PathNode) : KnownAt f type b node := by
  induction node using PathNode.induction_children with
  | leaf i =>
    intro path rest v
    cases rest with
    | nil =>
      refine ⟨fun h => absurd h (Option.some_ne_none _), fun n hn => ?_⟩
      cases hn
      rw [Value.known, address, address]
      exact .ok rfl
    | cons s rest =>
      refine ⟨fun _ => ?_, fun n hn => by cases hn⟩
      rw [address]
      rfl
  | branch children hchildren =>
    intro path rest v
    cases rest with
    | cons s rest =>
      rw [address]
      refine ⟨(addressIn_known hchildren path s rest v).1, fun n hn => ?_⟩
      rw [address]
      exact (addressIn_known hchildren path s rest v).2 n hn
    | nil =>
      refine ⟨fun h => absurd h (Option.some_ne_none _), fun n hn => ?_⟩
      cases hn
      cases v with
      | object fields =>
        rw [Value.known, address, address]
        exact (addressEach_known hchildren path fields).bind fun _ _ h => .ok h
      | null =>
        rw [Value.known, address, address]
        · refine .ok ?_
          rw [Moved, List.map_map]
          exact List.map_congr_left fun i _ => congrArg (i, ·) (hf i)
        · intros; contradiction
      | _ =>
        rw [Value.known, address]
        · exact .error (.refl id)
        all_goals intros; contradiction

/-- From a node, others find what a lenient caller finds, or refuse a name. -/
def LenientAt (X : Prop) (type : String) (b : Bool) (node : PathNode) : Prop :=
  ∀ path rest v, Agree X Eq (address type true path node rest v) (address type b path node rest v)

theorem unknownName_lenient (hb : b = true ∨ X) (path : String) (rest : List String) :
    Agree X Eq (unknownName type true path rest) (unknownName type b path rest) := by
  cases b with
  | true => exact .ok rfl
  | false => exact .refused (hb.resolve_left Bool.false_ne_true) trivial

theorem addressIn_lenient (hb : b = true ∨ X)
    (hchildren : ∀ s node, Assoc.find? s children = some node → LenientAt X type b node) (above s : String)
    (rest : List String) (v : Value) :
    Agree X Eq (addressIn type true above children s rest v) (addressIn type b above children s rest v) := by
  cases hf : Assoc.find? s children with
  | none =>
    rw [addressIn_of_none rest v hf, addressIn_of_none rest v hf]
    exact unknownName_lenient hb _ rest
  | some node =>
    rw [addressIn_of_find? rest v hf, addressIn_of_find? rest v hf]
    exact hchildren s node hf _ rest v

/-- Entry by entry. -/
theorem addressEach_lenient (hb : b = true ∨ X)
    (hchildren : ∀ s node, Assoc.find? s children = some node → LenientAt X type b node) (above : String)
    (record : Record) : Agree X Eq (addressEach type true above children record) (addressEach type b above children record) := by
  refine Agree.mapM_eq (R := Eq) (List.forall₂_same.2 fun _ _ => rfl) ?_
  rintro ⟨key, v⟩ _ rfl
  obtain ⟨s, rest, hsplit⟩ := List.exists_cons_of_ne_nil (Path.split_ne_nil key)
  simp only [hsplit]
  exact addressIn_lenient hb hchildren above s rest v

theorem lenientAt (hb : b = true ∨ X) (type : String) (node : PathNode) : LenientAt X type b node := by
  induction node using PathNode.induction_children with
  | leaf i =>
    intro path rest v
    rw [address, address]
    split
    · exact .ok rfl
    · exact unknownName_lenient hb path rest
  | branch children hchildren =>
    intro path rest v
    cases rest with
    | cons s rest =>
      rw [address, address]
      exact addressIn_lenient hb hchildren path s rest v
    | nil =>
      cases v with
      | object fields =>
        rw [address, address]
        refine (addressEach_lenient hb hchildren path fields).bind ?_
        rintro found _ rfl
        exact .ok rfl
      | null =>
        rw [address, address]
        exact .ok rfl
      | _ =>
        rw [address]
        · exact .error (.refl id)
        all_goals intros; contradiction

/-! ### Collected fields -/

section

variable {t : Layout E} {g : PropDef E → Record → Record}

theorem fieldsOf_moved {found found' : List (Nat × Value)} (h : Moved (t.relinkAt g) found found') :
    (fieldsOf t found).map (Field.relink g) = fieldsOf t found' := by
  subst h
  unfold fieldsOf
  rw [List.map_filterMap, List.filterMap_map]
  refine List.filterMap_congr fun x _ => ?_
  simp only [Function.comp_apply, Layout.relinkAt]
  cases t.props[x.1]? <;> rfl

/-- Defaults have no links, so they stay the same, and the same ones are missing. -/
theorem missingDefaults_relink (ht : t.Unchecked) (fields : List (Field E)) :
    (missingDefaults fields 0 t.props).map (Field.relink g) = missingDefaults (fields.map (Field.relink g)) 0 t.props := by
  have hany : ∀ i, (fields.map (Field.relink g)).any (·.index = i) = fields.any (·.index = i) := fun i => List.any_map
  rw [missingDefaults_congr hany, List.map_congr_left (g := id), List.map_id]
  intro f hf
  obtain ⟨hmem, -, hdefault⟩ := missingDefaults_mem hf
  refine Field.relink_of_plain (Bool.eq_false_iff.2 fun href => ?_)
  rw [ht.default _ hmem href] at hdefault
  cases hdefault

theorem arranged_relink (ht : t.Unchecked) (create : Bool) (fields : List (Field E)) :
    (arranged t create fields).map (Field.relink g) = arranged t create (fields.map (Field.relink g)) := by
  unfold arranged
  rw [List.map_mergeSort (r := fun a b => decide (a.index ≤ b.index)) (s := fun a b => decide (a.index ≤ b.index))
    (f := Field.relink g) fun _ _ _ _ => rfl]
  congr 1
  cases create with
  | true => rw [if_pos rfl, if_pos rfl, List.map_append, missingDefaults_relink ht]
  | false => rfl

/-- The tests of a value do not look at what its links store. -/
theorem validateReference_mapLink (g : Record → Record) (v : Value) :
    PropDef.validateReference (v.mapLink g) = PropDef.validateReference v := by
  cases v <;> rfl

theorem validateReference_mapLinks (g : Record → Record) (v : Value) :
    PropDef.validateReference (v.mapLinks g) = PropDef.validateReference v := by
  cases v <;> rfl

theorem validateReferences_mapLinks (g : Record → Record) (v : Value) :
    PropDef.validateReferences (v.mapLinks g) = PropDef.validateReferences v := by
  cases v with
  | list vs =>
    simp only [Value.mapLinks, PropDef.validateReferences, List.forM_eq_forM, List.forM_map, validateReference_mapLink]
  | refs replace add remove =>
    have hitems : (replace.map (·.map (RefItem.relink g))).getD [] ++ add.map (RefItem.relink g) =
        (replace.getD [] ++ add).map (RefItem.relink g) := by
      cases replace <;> simp
    simp only [Value.mapLinks, PropDef.validateReferences, hitems, List.forM_eq_forM, List.forM_map, RefItem.relink]
  | _ => rfl

theorem validateBuiltin_relink (g : Record → Record) (p : PropDef E) (v : Value) :
    p.validateBuiltin (p.relink g v) = p.validateBuiltin v := by
  cases href : p.type.isReference with
  | false =>
    rw [PropDef.relink, href]
    rfl
  | true =>
    rw [PropDef.relink, if_pos href]
    unfold PropDef.validateBuiltin
    rw [v.isNull_mapLinks g]
    cases htype : p.type with
    | reference => simp only [validateReference_mapLinks]
    | references => simp only [validateReferences_mapLinks]
    | _ =>
      rw [htype] at href
      cases href

/-- Without validators nobody tests more than a lenient caller. -/
theorem checkField_relink {f : Field E} (hf : f.prop.validator = none) (g : PropDef E → Record → Record) :
    Agree X Eq (checkField true f) (checkField b (f.relink g)) := by
  have hown : ∀ v, f.prop.validate v = f.prop.validateBuiltin v := fun v => by
    unfold PropDef.validate
    rw [hf]
    cases f.prop.validateBuiltin v <;> cases v.isNull <;> rfl
  have hsame : (if b = true then f.prop.validateBuiltin (f.prop.relink (g f.prop) f.value)
      else f.prop.validate (f.prop.relink (g f.prop) f.value)) = f.prop.validateBuiltin f.value := by
    rw [hown, ite_self, validateBuiltin_relink]
  unfold checkField Field.relink
  dsimp only
  rw [hsame, if_pos rfl]
  cases f.prop.validateBuiltin f.value with
  | ok _ => exact .ok rfl
  | error e => exact .error ⟨id, id, .rfl⟩

/-- Where a lenient caller finds values, and another caller finds them with other records on their links, so are the
fields. -/
theorem collectFields_agrees (ht : t.Unchecked) (create : Bool) {record record' : Record}
    (h : Agree X (fun found found' => Moved (t.relinkAt g) found.flatten found'.flatten)
      (addressEach t.name true "" t.tree record) (addressEach t.name b "" t.tree record')) :
    Agree X (fun fields fields' => fields.map (Field.relink g) = fields')
      (collectFields t true create record) (collectFields t b create record') := by
  refine h.bind fun found found' hmoved => ?_
  have hfields : (arranged t create (fieldsOf t found.flatten)).map (Field.relink g) =
      arranged t create (fieldsOf t found'.flatten) := by
    rw [arranged_relink ht, fieldsOf_moved hmoved]
  change Agree X _ ((arranged t create (fieldsOf t found.flatten)).forM (checkField true) >>= fun _ => pure _)
    ((arranged t create (fieldsOf t found'.flatten)).forM (checkField b) >>= fun _ => pure _)
  refine Agree.bind (P := Eq) ?_ fun _ _ _ => .ok hfields
  rw [← hfields]
  refine Agree.forM (forall₂_map_mem (Field.relink g) _) ?_
  rintro f _ ⟨hf, rfl⟩
  exact checkField_relink (ht.validator f.prop (List.mem_of_getElem? (mem_arranged hf))) g

end

end Write

end NodeStore
