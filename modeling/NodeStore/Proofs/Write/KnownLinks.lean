import NodeStore.Proofs.Write.KnownNames

/-!
# Links without unknown names

What a link stores is encoded like a record of its own. A lenient caller skips the names in it that are unknown, so the
block is the one of the names that are known. If there are none, though, a lenient caller still writes a block.

* `plainRecord_known`: unknown names may be dropped before the marks of names are, or after that.
* `encodeEdges_agrees`: blocks come out alike for records that give alike fields.
* `links_known`, `links_lenient`: what links store comes out alike without the unknown names, and with them;
  `links_unknown`: what is stored if all names are unknown.
-/

namespace NodeStore

theorem Record.known_eq_select (f : Nat → Value → Value) (children : List (String × PathNode)) (record : Record) :
    Record.known f children record =
      Assoc.select (fun key => (PathNode.branch children).follow (Path.split key)) (fun node v => v.known f node)
        record := by
  induction record with
  | nil => rfl
  | cons e record ih =>
    obtain ⟨key, v⟩ := e
    rw [Record.known, ih]
    cases h : (PathNode.branch children).follow (Path.split key) with
    | none => exact (Assoc.select_cons_of_none (fun key => (PathNode.branch children).follow _) _ h v record).symm
    | some node => exact (Assoc.select_cons_of_some (fun key => (PathNode.branch children).follow _) _ h v record).symm

/-- If links store something, a record on a link is empty, or not all of its names are unknown. -/
def PropDef.KeepsSome (p : PropDef EdgeLayout) (edges : Record) : Prop :=
  ∀ t, p.edges = some t → edges ≠ [] → t.known edges ≠ []

namespace Write

/-- What a link stores, by the plain names of its properties. -/
def plainRecord (edges : Record) : Record := Record.ofList (edges.map fun (name, v) => (plainName name, v))

/-- Unknown names are dropped before or after the marks of names. -/
theorem plainRecord_known (t : EdgeLayout) (edges : Record) :
    plainRecord (t.known edges) = Record.known (t.relinkAt fun _ _ => []) t.tree (plainRecord edges) := by
  have hplain : (t.known edges).map (fun (name, v) => (plainName name, v)) =
      Assoc.select (fun key => (PathNode.branch t.tree).follow (Path.split key))
        (fun node v => v.known (t.relinkAt fun _ _ => []) node) (edges.map fun (name, v) => (plainName name, v)) := by
    unfold EdgeLayout.known Assoc.select
    rw [List.map_filterMap, List.filterMap_map]
    refine List.filterMap_congr fun x _ => ?_
    simp only [Function.comp_apply, Option.map_map]
    rfl
  rw [plainRecord, hplain, plainRecord, Record.known_eq_select]
  exact Assoc.ofList_select _ _ _

section

variable {E : Type} {X : Prop} {b : Bool} {c : Context}

/-! ### Records on links -/

theorem relinkAt_null (t : Layout E) (g : PropDef E → Record → Record) (i : Nat) : t.relinkAt g i .null = .null := by
  unfold Layout.relinkAt PropDef.relink
  cases t.props[i]? with
  | none => rfl
  | some p => exact ite_self _

/-- Nothing is put on links. -/
theorem relinkAt_same (t : Layout E) : t.relinkAt (fun _ edges => edges) = fun _ v => v := by
  have hitem : RefItem.relink (fun edges => edges) = id := rfl
  have hlink : Value.mapLink (fun edges => edges) = id := by
    funext v
    cases v <;> rfl
  have hvalue : ∀ v : Value, v.mapLinks (fun edges => edges) = v := by
    intro v
    cases v with
    | list vs => rw [Value.mapLinks, hlink, List.map_id]
    | refs replace add remove => rw [Value.mapLinks, hitem, List.map_id_fun, Option.map_id]; rfl
    | _ => rfl
  funext i v
  unfold Layout.relinkAt PropDef.relink
  cases t.props[i]? with
  | none => rfl
  | some p => simp only [Option.elim_some, hvalue, ite_self]

/-- What a lenient caller finds, others find in the record without the names that lead nowhere. -/
theorem addressEach_layout_known (t : Layout E) (g : PropDef E → Record → Record) (record : Record) :
    Agree False (fun found found' => Moved (t.relinkAt g) found.flatten found'.flatten)
      (addressEach t.name true "" t.tree record)
      (addressEach t.name b "" t.tree (Record.known (t.relinkAt g) t.tree record)) :=
  addressEach_known (fun _ node _ => knownAt (relinkAt_null t g) t.name b node) "" record

/-- What a lenient caller finds, others find in the same record, or refuse a name in it. -/
theorem addressEach_layout_lenient (hb : b = true ∨ X) (t : Layout E) (record : Record) :
    Agree X (fun found found' => Moved (t.relinkAt fun _ edges => edges) found.flatten found'.flatten)
      (addressEach t.name true "" t.tree record) (addressEach t.name b "" t.tree record) := by
  refine (addressEach_lenient hb (fun _ node _ => lenientAt hb t.name node) "" record).mono id ?_
  rintro found _ rfl
  rw [relinkAt_same]
  exact List.map_id _

/-! ### Links that store nothing -/

section

variable {edgesOf edgesOf' : EdgeEncoder E} {p : PropDef E} {deferred : Bool}

/-- A lenient caller may put anything on them. -/
theorem linkBlock_of_none (hlenient : c.lenient = true) (h : p.edges = none) (edges : Record) :
    linkBlock c edgesOf p edges deferred = .ok none := by
  unfold linkBlock
  split
  · rfl
  · rw [h]
    exact if_pos hlenient

theorem linkBlock_agrees_of_none (hlenient : c.lenient = true) (h : p.edges = none) (edges : Record) :
    Agree X Eq (linkBlock c edgesOf p edges deferred) (.ok none) := by
  rw [linkBlock_of_none hlenient h]
  exact .ok rfl

/-- Others may not. -/
theorem linkBlock_lenient_of_none (hb : b = true ∨ X) (hlenient : c.lenient = true) (h : p.edges = none) (edges : Record) :
    Agree X Eq (linkBlock c edgesOf p edges deferred) (linkBlock { c with lenient := b } edgesOf' p edges deferred) := by
  rw [linkBlock_of_none hlenient h]
  cases b with
  | true =>
    rw [linkBlock_of_none rfl h]
    exact .ok rfl
  | false =>
    have hX := hb.resolve_left Bool.false_ne_true
    unfold linkBlock
    split
    · exact .ok rfl
    · rw [h]
      exact .refused hX trivial

theorem edges_of_link (p : PropDef Empty) : p.edges = none := by
  cases p.edges with
  | none => rfl
  | some t => exact t.elim

end

/-! ### Blocks -/

/-- A block is what a write to an empty buffer comes to. -/
theorem encodeEdges_eq (c : Context) (t : EdgeLayout) (edges : Record) (deferred : Bool) :
    encodeEdges c t edges deferred = collectFields t c.lenient true (plainRecord edges) >>= fun fields =>
      (fun r => r.2.encoder.buffer.bytes) <$>
        outcome (writeCreateWith { c with linkDeferred := some deferred } nothingOnLinks t fields) ⟨.forLink, []⟩ := by
  unfold encodeEdges
  refine bind_congr fun fields => ?_
  unfold outcome
  split <;> rename_i h <;> rw [h] <;> rfl

/-- Records that give alike fields give alike blocks. -/
theorem encodeEdges_agrees (hlenient : c.lenient = true) {t : EdgeLayout} (ht : t.Unchecked)
    {g : PropDef Empty → Record → Record} (hg : ∀ p, g p [] = []) {edges edges' : Record} {deferred : Bool}
    (hlinks : ∀ p edges, LinksAgree X { c with linkDeferred := some deferred }
      { c with linkDeferred := some deferred, lenient := b } nothingOnLinks nothingOnLinks (g p) p edges)
    (h : Agree X (fun found found' => Moved (t.relinkAt g) found.flatten found'.flatten)
      (addressEach t.name true "" t.tree (plainRecord edges)) (addressEach t.name b "" t.tree (plainRecord edges'))) :
    Agree X Eq (encodeEdges c t edges deferred) (encodeEdges { c with lenient := b } t edges' deferred) := by
  rw [encodeEdges_eq, encodeEdges_eq]
  have hcollect : Agree X (fun fields fields' => fields.map (Field.relink g) = fields')
      (collectFields t c.lenient true (plainRecord edges)) (collectFields t b true (plainRecord edges')) := by
    rw [hlenient]
    exact collectFields_agrees ht true h
  refine hcollect.remember.bind ?_
  rintro fields _ ⟨rfl, hfields⟩
  have hagree : FieldsAgree X { c with linkDeferred := some deferred }
      { c with linkDeferred := some deferred, lenient := b } nothingOnLinks nothingOnLinks g fields :=
    ⟨fun f _ _ item _ => hlinks f.prop item.2, fun f hf => ht.separate f.prop (collectFields_mem hfields hf)⟩
  exact (writeCreateWith_agrees hg hagree t ⟨.forLink, []⟩ ⟨.forLink, []⟩ rfl).map fun _ _ h => by rw [h.2]

/-! ### What links store -/

section

variable {edgesOf : EdgeEncoder EdgeLayout} {p : PropDef EdgeLayout} {edges : Record} {deferred : Bool}

theorem linkBlock_of_some {t : EdgeLayout} (h : p.edges = some t) (hne : edges ≠ []) :
    linkBlock c edgesOf p edges deferred = some <$> edgesOf t edges deferred := by
  unfold linkBlock
  split
  · exact absurd rfl hne
  · rw [h]

/-- The block of a link is that of the record without the unknown names. -/
theorem encodeEdges_known (hlenient : c.lenient = true) {t : EdgeLayout} (ht : t.Unchecked) (edges : Record)
    (deferred : Bool) :
    Agree False Eq (encodeEdges c t edges deferred) (encodeEdges { c with lenient := b } t (t.known edges) deferred) := by
  have haddress := addressEach_layout_known (b := b) t (fun _ _ => []) (plainRecord edges)
  rw [← plainRecord_known] at haddress
  exact encodeEdges_agrees hlenient ht (fun _ => rfl)
    (fun p edges _ => linkBlock_agrees_of_none hlenient (edges_of_link p) edges) haddress

/-- What a link stores comes out alike without the unknown names, if a known one is left. -/
theorem links_known (hlenient : c.lenient = true) (ht : ∀ t, p.edges = some t → t.Unchecked)
    (hkeeps : p.KeepsSome edges) :
    LinksAgree False c { c with lenient := b } (encodeEdges c) (encodeEdges { c with lenient := b }) p.knownEdges p
      edges := by
  intro deferred
  unfold PropDef.knownEdges
  cases hedges : p.edges with
  | none => exact linkBlock_agrees_of_none hlenient hedges edges
  | some t =>
    rw [Option.elim_some]
    by_cases hnil : edges = []
    · subst hnil
      exact .ok rfl
    · rw [linkBlock_of_some hedges hnil, linkBlock_of_some hedges (hkeeps t hedges hnil)]
      exact (encodeEdges_known hlenient (ht t hedges) edges deferred).map fun _ _ h => congrArg some h

/-- If no known name is left, a block is written nevertheless: that of an empty record, with all the defaults. -/
theorem links_unknown (hlenient : c.lenient = true) {t : EdgeLayout} (hedges : p.edges = some t) (ht : t.Unchecked)
    (hnil : edges ≠ []) (hknown : t.known edges = []) (deferred : Bool) :
    Agree False Eq (linkBlock c (encodeEdges c) p edges deferred)
      (some <$> encodeEdges { c with lenient := b } t [] deferred) := by
  rw [linkBlock_of_some hedges hnil, ← hknown]
  exact (encodeEdges_known hlenient ht edges deferred).map fun _ _ h => congrArg some h

/-- What a link stores comes out alike, or a name in it is refused. -/
theorem links_lenient (hb : b = true ∨ X) (hlenient : c.lenient = true) (ht : ∀ t, p.edges = some t → t.Unchecked)
    (edges : Record) :
    LinksAgree X c { c with lenient := b } (encodeEdges c) (encodeEdges { c with lenient := b }) (fun edges => edges) p
      edges := by
  intro deferred
  cases hedges : p.edges with
  | none => exact linkBlock_lenient_of_none hb hlenient hedges edges
  | some t =>
    by_cases hnil : edges = []
    · subst hnil
      exact .ok rfl
    rw [linkBlock_of_some hedges hnil, linkBlock_of_some hedges hnil]
    exact (encodeEdges_agrees hlenient (ht t hedges) (fun _ => rfl)
      (fun p edges _ => linkBlock_lenient_of_none hb hlenient (edges_of_link p) edges)
      (addressEach_layout_lenient hb t _)).map fun _ _ h => congrArg some h

end

end

end Write

end NodeStore
