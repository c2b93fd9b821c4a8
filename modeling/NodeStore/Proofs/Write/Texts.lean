import NodeStore.Proofs.Write.Attempts
import NodeStore.Proofs.Write.Nulls

/-!
# Two ways to write a text

A text is written as a string, in the locale of the session, or as a map of locales. A string that is not empty does the
same in both ways, whatever is stored. The empty string does not: by itself it is stored, and in a map it takes the text in
that locale away.

* `Value.SameText`, `Record.Rephrases`: texts of a record written the other way, at any depth.
* `writeSeparate_string`, `writeSeparate_localized`: what is written in each of the two ways.
* `collectFields_rephrases`: a record that is rephrased has the same fields but for such texts (`Field.Alike`).
* `texts_interchangeable`: calls do the same with either way.
-/

namespace NodeStore

/-! ### Records -/

/-- Two ways to write a string that is not empty: by itself, and in the locale with a code. -/
inductive Value.SameText (code : String) : Value → Value → Prop
  | mapped {x : String} (h : x ≠ "") : Value.SameText code (.string x) (.text [(code, x)])
  | plain {x : String} (h : x ≠ "") : Value.SameText code (.text [(code, x)]) (.string x)

mutual

/-- Some texts in a value are written the other way. -/
inductive Value.Rephrases (code : String) : Value → Value → Prop
  | refl (v : Value) : Value.Rephrases code v v
  | text {v v' : Value} (h : v.SameText code v') : Value.Rephrases code v v'
  | object {record record' : Record} (h : Record.Rephrases code record record') :
      Value.Rephrases code (.object record) (.object record')

/-- Some texts of a record are written the other way, at any depth. -/
inductive Record.Rephrases (code : String) : Record → Record → Prop
  | nil : Record.Rephrases code [] []
  | cons {key : String} {v v' : Value} {record record' : Record} (hv : Value.Rephrases code v v')
      (h : Record.Rephrases code record record') : Record.Rephrases code ((key, v) :: record) ((key, v') :: record')

end

namespace Write

variable {E : Type} {code : String}

/-! ### Addressed properties -/

section

variable {type : String} {lenient : Bool} {children : List (String × PathNode)}

/-- The same property is given the same value, or one with texts written the other way. -/
def Matches (code : String) (x y : Nat × Value) : Prop := y.1 = x.1 ∧ x.2.Rephrases code y.2

theorem matches_refl (found : List (Nat × Value)) : List.Forall₂ (Matches code) found found :=
  List.forall₂_same.2 fun x _ => ⟨rfl, .refl x.2⟩

/-- From a node, a value with texts written the other way addresses the same. -/
def RephrasesAt (code type : String) (lenient : Bool) (node : PathNode) : Prop :=
  ∀ path rest v v' found, v.Rephrases code v' → address type lenient path node rest v = .ok found →
    ∃ found', address type lenient path node rest v' = .ok found' ∧ List.Forall₂ (Matches code) found found'

theorem addressIn_rephrases
    (hchildren : ∀ s node, Assoc.find? s children = some node → RephrasesAt code type lenient node) {above s : String}
    {rest : List String} {v v' : Value} (hv : v.Rephrases code v') {found : List (Nat × Value)}
    (h : addressIn type lenient above children s rest v = .ok found) :
    ∃ found', addressIn type lenient above children s rest v' = .ok found' ∧
      List.Forall₂ (Matches code) found found' := by
  cases hf : Assoc.find? s children with
  | none =>
    rw [addressIn_of_none rest v hf] at h
    rw [addressIn_of_none rest v' hf]
    exact ⟨found, h, matches_refl found⟩
  | some node =>
    rw [addressIn_of_find? rest v hf] at h
    rw [addressIn_of_find? rest v' hf]
    exact hchildren s node hf _ rest v v' found hv h

/-- Entry by entry. -/
theorem addressEach_rephrases
    (hchildren : ∀ s node, Assoc.find? s children = some node → RephrasesAt code type lenient node) {above : String}
    {record record' : Record} (hr : Record.Rephrases code record record') {found : List (List (Nat × Value))}
    (h : addressEach type lenient above children record = .ok found) :
    ∃ found', addressEach type lenient above children record' = .ok found' ∧
      List.Forall₂ (List.Forall₂ (Matches code)) found found' := by
  induction record generalizing record' found with
  | nil =>
    cases hr
    cases h
    exact ⟨[], rfl, .nil⟩
  | cons x record ih =>
    obtain ⟨key, v⟩ := x
    cases hr with
    | cons hv hr =>
      obtain ⟨s, rest, hsplit⟩ := List.exists_cons_of_ne_nil (Path.split_ne_nil key)
      rw [addressEach, List.mapM_cons] at h
      obtain ⟨first, hfirst, h⟩ := Except.bind_eq_ok.1 h
      obtain ⟨others, hothers, h⟩ := Except.bind_eq_ok.1 h
      cases h
      simp only [hsplit] at hfirst
      obtain ⟨first', hfirst', hmatch⟩ := addressIn_rephrases hchildren hv hfirst
      obtain ⟨others', hothers', hmatches⟩ := ih hr hothers
      refine ⟨first' :: others', ?_, .cons hmatch hmatches⟩
      rw [addressEach, List.mapM_cons]
      simp only [hsplit]
      exact Except.bind_eq_ok.2 ⟨first', hfirst', Except.bind_eq_ok.2 ⟨others', hothers', rfl⟩⟩

theorem rephrasesAt (code type : String) (lenient : Bool) (node : PathNode) : RephrasesAt code type lenient node := by
  induction node using PathNode.induction_children with
  | leaf i =>
    intro path rest v v' found hv h
    rw [address] at h ⊢
    by_cases hrest : rest.isEmpty
    · rw [if_pos hrest] at h ⊢
      cases h
      exact ⟨[(i, v')], rfl, .cons ⟨rfl, hv⟩ .nil⟩
    · rw [if_neg hrest] at h ⊢
      exact ⟨found, h, matches_refl found⟩
  | branch children hchildren =>
    intro path rest v v' found hv h
    cases rest with
    | cons s rest =>
      rw [address] at h ⊢
      exact addressIn_rephrases hchildren hv h
    | nil =>
      cases hv with
      | refl => exact ⟨found, h, matches_refl found⟩
      | text ht =>
        -- A text is no object, so it is refused in either way.
        cases ht with
        | mapped _ | plain _ =>
          rw [address] at h
          · cases h
          all_goals intros; contradiction
      | object hr =>
        rw [address] at h ⊢
        obtain ⟨groups, hgroups, h⟩ := Except.bind_eq_ok.1 h
        cases h
        obtain ⟨groups', hgroups', hmatches⟩ := addressEach_rephrases hchildren hr hgroups
        exact ⟨groups'.flatten, Except.bind_eq_ok.2 ⟨groups', hgroups', rfl⟩, List.rel_flatten hmatches⟩

end

/-! ### Fields -/

/-- A field, and the same with texts in its value written the other way. -/
structure Field.Rephrases (code : String) (f f' : Field E) : Prop where
  index : f'.index = f.index
  prop : f'.prop = f.prop
  value : f.value.Rephrases code f'.value

theorem fieldsOf_rephrases (t : Layout E) {found found' : List (Nat × Value)}
    (h : List.Forall₂ (Matches code) found found') :
    List.Forall₂ (Field.Rephrases code) (fieldsOf t found) (fieldsOf t found') := by
  refine List.rel_filterMap (R := Matches code) ?_ h
  rintro ⟨i, v⟩ ⟨j, v'⟩ ⟨hindex, hv⟩
  obtain rfl : j = i := hindex
  dsimp only
  cases t.props[j]? with
  | none => exact .none
  | some p => exact .some ⟨rfl, rfl, hv⟩

/-- Where properties have the same values, each of their fields has the same value. -/
theorem Field.forall₂_same {P : Nat → Prop} {fields fields' : List (Field E)}
    (h : List.Forall₂ (Field.Rephrases code) fields fields') (hsame : ∀ i, P i → valuesOf i fields' = valuesOf i fields) :
    List.Forall₂ (fun f f' => f.Rephrases code f' ∧ (P f.index → f'.value = f.value)) fields fields' := by
  induction h with
  | nil => exact .nil
  | @cons f f' fields fields' hf _ ih =>
    have hcons : ∀ i, P i → valuesOf i (f' :: fields') = valuesOf i (f :: fields) := hsame
    refine .cons ⟨hf, fun hP => ?_⟩ (ih fun i hP => ?_)
    · have := hcons f.index hP
      simp only [valuesOf, List.filter_cons, hf.index, decide_true, if_true, List.map_cons, List.cons.injEq] at this
      exact this.1
    · have := hcons i hP
      simp only [valuesOf, List.filter_cons, hf.index] at this
      split at this
      · exact (List.cons.inj this).2
      · exact this

/-- A field, and the same where a text may be written the other way. -/
structure Field.Alike (code : String) (f f' : Field E) : Prop where
  index : f'.index = f.index
  prop : f'.prop = f.prop
  value : f'.value = f.value ∨ f.prop.type = .text ∧ f.prop.isMain = false ∧ f.value.SameText code f'.value

theorem Field.Alike.refl (f : Field E) : Field.Alike code f f := ⟨rfl, rfl, .inl rfl⟩

/-- The defaults that are missing depend on which properties are addressed. -/
theorem missingDefaults_congr {fields fields' : List (Field E)}
    (hany : ∀ i, fields'.any (·.index = i) = fields.any (·.index = i)) (n : Nat) (ps : List (PropDef E)) :
    missingDefaults fields' n ps = missingDefaults fields n ps := by
  induction ps generalizing n with
  | nil => rfl
  | cons p ps ih => simp only [missingDefaults, hany, ih]

/-- The fields stay in their order, and the same defaults are missing. -/
theorem arranged_alike (t : Layout E) (create : Bool) {fields fields' : List (Field E)}
    (h : List.Forall₂ (Field.Alike code) fields fields') :
    List.Forall₂ (Field.Alike code) (arranged t create fields) (arranged t create fields') := by
  have hindex : fields'.map (·.index) = fields.map (·.index) := by
    rw [← List.forall₂_eq_eq_eq, List.forall₂_map_left_iff, List.forall₂_map_right_iff]
    exact (h.imp fun _ _ hf => hf.index).flip
  refine forall₂_mergeSort (fun a a' b b' hab hab' => by rw [hab.index, hab'.index]) ?_
  have hany : ∀ i, fields'.any (·.index = i) = fields.any (·.index = i) := fun i => by
    simpa only [List.any_map, Function.comp_def] using congrArg (List.any · (· = i)) hindex
  rw [missingDefaults_congr hany]
  split
  · exact List.rel_append h (List.forall₂_same.2 fun f _ => .refl f)
  · exact h

/-! ### Collected fields -/

/-- The validator of a property, if it has one, does not tell the two ways to write a text apart. -/
def Indifferent (code : String) (p : PropDef E) : Prop :=
  ∀ check, p.validator = some check → ∀ v v', v.SameText code v' → check v = .ok () → check v' = .ok ()

theorem isNull_sameText {v v' : Value} (h : v.SameText code v') : v.isNull = false ∧ v'.isNull = false := by
  cases h <;> exact ⟨rfl, rfl⟩

theorem validateText_localized {p : PropDef E} (hlocale : p.takesLocale code = true) (x : String) :
    p.validateText (.text [(code, x)]) = p.validateText (.string x) := by
  change ((if !p.takesLocale code then throw _ else p.checkLength (Utf8.size x)) >>= fun _ => pure ()) = p.checkLength _
  rw [hlocale]
  exact bind_pure _

theorem validateBuiltin_sameText {p : PropDef E} (htext : p.type = .text) (hlocale : p.takesLocale code = true)
    {v v' : Value} (h : v.SameText code v') : p.validateBuiltin v' = p.validateBuiltin v := by
  obtain ⟨hnull, hnull'⟩ := isNull_sameText h
  unfold PropDef.validateBuiltin
  rw [hnull, hnull', htext]
  cases h with
  | mapped => exact validateText_localized hlocale _
  | plain => exact (validateText_localized hlocale _).symm

theorem checkField_alike {lenient : Bool} {f f' : Field E} (h : f.Alike code f')
    (hlocale : f.prop.type = .text → f.prop.takesLocale code = true)
    (hvalid : lenient = false → f.prop.type = .text → Indifferent code f.prop) (hcheck : checkField lenient f = .ok ()) :
    checkField lenient f' = .ok () := by
  obtain ⟨hbuiltin, hown⟩ := checkField_eq_ok.1 hcheck
  rw [checkField_eq_ok, h.prop]
  rcases h.value with hvalue | ⟨htext, -, hsame⟩
  · rw [hvalue]
    exact ⟨hbuiltin, hown⟩
  · rw [validateBuiltin_sameText htext (hlocale htext) hsame]
    refine ⟨hbuiltin, fun hlenient _ check hvalidator => ?_⟩
    exact hvalid hlenient htext check hvalidator _ _ hsame (hown hlenient (isNull_sameText hsame).1 check hvalidator)

/-- Texts of a type are written the other way; what is given to its other properties stays. -/
structure Restates (code : String) (t : Layout E) (record record' : Record) : Prop where
  rephrases : Record.Rephrases code record record'
  others : ∀ p ∈ t.props, p.type ≠ .text → Record.writesAt p.path record' = Record.writesAt p.path record

/-- Valid values that are rephrased are those of texts. -/
theorem fieldsOf_alike {t : Layout E} (ht : t.Addressed) (hm : ∀ p ∈ t.props, p.Measured) {lenient : Bool}
    {record record' : Record} (hr : Restates code t record record') {found found' : List (List (Nat × Value))}
    (hfound : addressEach t.name lenient "" t.tree record = .ok found)
    (hfound' : addressEach t.name lenient "" t.tree record' = .ok found')
    (hmatches : List.Forall₂ (List.Forall₂ (Matches code)) found found')
    (hvalid : ∀ f ∈ fieldsOf t found.flatten, f.prop.validateBuiltin f.value = .ok ()) :
    List.Forall₂ (Field.Alike code) (fieldsOf t found.flatten) (fieldsOf t found'.flatten) := by
  have hsame := Field.forall₂_same (P := fun i => ∃ p, t.props[i]? = some p ∧ p.type ≠ .text)
    (fieldsOf_rephrases t (List.rel_flatten hmatches)) fun i ⟨p, hp, htype⟩ => by
      rw [valuesOf_fieldsOf ht hfound hp, valuesOf_fieldsOf ht hfound' hp, hr.others p (List.mem_of_getElem? hp) htype]
  have hfields : ∀ f ∈ fieldsOf t found.flatten,
      t.props[f.index]? = some f.prop ∧ f.prop.validateBuiltin f.value = .ok () := fun f hf => ⟨mem_fieldsOf hf, hvalid f hf⟩
  refine ((List.forall₂_and_left _ _).2 ⟨hfields, hsame⟩).imp fun f f' ⟨⟨hprop, hbuiltin⟩, hf, hother⟩ =>
    ⟨hf.index, hf.prop, ?_⟩
  by_cases htext : f.prop.type = .text
  · have hmain := (hm f.prop (List.mem_of_getElem? hprop)).separate (by rw [htext]; rfl)
    obtain ⟨_, _, v'⟩ := f'
    obtain ⟨_, p, v⟩ := f
    cases hf.value with
    | refl => exact .inl rfl
    | text h => exact .inr ⟨htext, hmain, h⟩
    | object => exact absurd hbuiltin (validateBuiltin_object p _)
  · exact .inl (hother ⟨f.prop, hprop, htext⟩)

/-- A record that is rephrased has the same fields but for texts that are written the other way. -/
theorem collectFields_rephrases {t : Layout E} (ht : t.Addressed) (hm : ∀ p ∈ t.props, p.Measured)
    (hlocale : ∀ p ∈ t.props, p.type = .text → p.takesLocale code = true) {lenient create : Bool}
    (hvalid : lenient = false → ∀ p ∈ t.props, p.type = .text → Indifferent code p) {record record' : Record}
    (hr : Restates code t record record') {fields : List (Field E)} (h : collectFields t lenient create record = .ok fields) :
    ∃ fields', collectFields t lenient create record' = .ok fields' ∧ List.Forall₂ (Field.Alike code) fields fields' := by
  have hprops := fun f hf => collectFields_mem h (f := f) hf
  obtain ⟨found, hfound, rfl, hcheck⟩ := collectFields_eq_ok.1 h
  obtain ⟨found', hfound', hmatches⟩ := addressEach_rephrases (fun _ node _ => rephrasesAt code t.name lenient node) hr.rephrases
    hfound
  have hmem : ∀ f ∈ fieldsOf t found.flatten, f ∈ arranged t create (fieldsOf t found.flatten) := fun f hf => by
    rw [arranged, List.mem_mergeSort]
    split
    · exact List.mem_append_left _ hf
    · exact hf
  have halike := arranged_alike t create (fieldsOf_alike ht hm hr hfound hfound' hmatches fun f hf =>
    validateBuiltin_of_checkField (hcheck f (hmem f hf)))
  refine ⟨_, collectFields_eq_ok.2 ⟨found', hfound', rfl, fun f' hf' => ?_⟩, halike⟩
  obtain ⟨f, hf, hfield⟩ := exists_of_forall₂_left halike.flip hf'
  exact checkField_alike hfield (hlocale _ (hprops f hf)) (fun hl => hvalid hl _ (hprops f hf)) (hcheck f hf)

/-! ### Writing -/

section

variable {c : Context} {edgesOf : EdgeEncoder E} {create : Bool} {p : PropDef E} {x : String}

/-- A string is stored as the text in the locale of the session, the empty string too. -/
theorem writeSeparate_string (htext : p.type = .text) (hlocale : c.locale ≠ Locale.none) :
    writeSeparate c edgesOf create p (.string x) =
      (fieldInstr p (.updateField (Payload.localized c.locale x)) >>= fun _ => pure ()) := by
  unfold writeSeparate
  simp only [htext, hlocale, if_false]

/-- In a map, the text in a locale is stored unless it is empty. An empty one takes that text away from a node that
exists. -/
theorem writeSeparate_localized (htext : p.type = .text) {locale : UInt8} (hcode : Locale.idOf? code = some locale) :
    writeSeparate c edgesOf create p (.text [(code, x)]) =
      if x = "" then if create then pure () else fieldInstr p (.deleteText locale) >>= fun _ => pure ()
      else fieldInstr p (.updateField (Payload.localized locale x)) >>= fun _ => pure () := by
  have hone : writeSeparate c edgesOf create p (.text [(code, x)]) = writeText create p (.text [(code, x)]) (code, x) := by
    unfold writeSeparate
    simp only [htext]
    exact bind_pure_unit
  rw [hone, writeText]
  simp only [hcode]
  by_cases hx : x = "" <;> cases create <;> simp [hx]

/-- A string that is not empty is written alike in both ways. -/
theorem writeSeparate_sameText (htext : p.type = .text) (hcode : Locale.idOf? code = some c.locale) {v v' : Value}
    (h : v.SameText code v') : writeSeparate c edgesOf create p v' = writeSeparate c edgesOf create p v := by
  have hnone := Locale.ne_none_of_idOf? hcode
  cases h with
  | mapped hx => rw [writeSeparate_string htext hnone, writeSeparate_localized htext hcode, if_neg hx]
  | plain hx => rw [writeSeparate_string htext hnone, writeSeparate_localized htext hcode, if_neg hx]

theorem Field.Alike.writeSeparate {f f' : Field E} (h : f.Alike code f') (hcode : Locale.idOf? code = some c.locale) :
    writeSeparate c edgesOf create f'.prop f'.value = writeSeparate c edgesOf create f.prop f.value := by
  rw [h.prop]
  rcases h.value with hvalue | ⟨htext, -, hsame⟩
  · rw [hvalue]
  · exact writeSeparate_sameText htext hcode hsame

/-- Fields of the main block stay the same. -/
theorem Field.Alike.eq_of_main {f f' : Field E} (h : f.Alike code f') (hmain : f.prop.isMain = true) : f' = f := by
  obtain ⟨i, p, v⟩ := f
  obtain ⟨i', p', v'⟩ := f'
  obtain ⟨rfl, rfl, rfl | ⟨-, hsep, -⟩⟩ := h
  · rfl
  · rw [hsep] at hmain
    cases hmain

theorem Field.Alike.isNull {f f' : Field E} (h : f.Alike code f') : f'.value.isNull = f.value.isNull := by
  rcases h.value with hvalue | ⟨-, -, hsame⟩
  · rw [hvalue]
  · rw [(isNull_sameText hsame).1, (isNull_sameText hsame).2]

theorem mainBlock_alike (t : Layout E) {fields fields' : List (Field E)}
    (h : List.Forall₂ (Field.Alike code) fields fields') : mainBlock t fields' = mainBlock t fields := by
  have hmain : fields'.filter (fun f => f.prop.isMain && !f.value.isNull) =
      fields.filter fun f => f.prop.isMain && !f.value.isNull := by
    induction h with
    | nil => rfl
    | cons hf _ ih =>
      rw [List.filter_cons, List.filter_cons, ih, hf.prop, hf.isNull]
      split
      · rename_i htaken
        rw [hf.eq_of_main (Bool.and_eq_true_iff.1 htaken).1]
      · rfl
  rw [mainBlock, hmain, mainBlock]

theorem forM_congr {α : Type} {R : α → α → Prop} {f : α → EncodeM Unit} (hf : ∀ x y, R x y → f y = f x) {xs ys : List α}
    (h : List.Forall₂ R xs ys) : ys.forM f = xs.forM f := by
  induction h with
  | nil => rfl
  | @cons x y xs ys hxy _ ih =>
    change (f y >>= fun _ => ys.forM f) = (f x >>= fun _ => xs.forM f)
    rw [hf x y hxy, ih]

/-- A new node is written alike. -/
theorem writeCreateWith_alike (hcode : Locale.idOf? code = some c.locale) (t : Layout E) {fields fields' : List (Field E)}
    (h : List.Forall₂ (Field.Alike code) fields fields') :
    writeCreateWith c edgesOf t fields' = writeCreateWith c edgesOf t fields := by
  have hseparate : List.Forall₂ (Field.Alike code) (fields.filter fun f => !f.prop.isMain)
      (fields'.filter fun f => !f.prop.isMain) := List.rel_filter (fun f f' hf => by simp only [hf.prop]) h
  unfold writeCreateWith
  rw [mainBlock_alike t h, forM_congr (fun f f' hf => hf.writeSeparate hcode) hseparate]

/-- So are changes of a node. -/
theorem writeUpdateWith_alike (hcode : Locale.idOf? code = some c.locale) (t : Layout E) {fields fields' : List (Field E)}
    (h : List.Forall₂ (Field.Alike code) fields fields') :
    writeUpdateWith c edgesOf t fields' = writeUpdateWith c edgesOf t fields := by
  refine forM_congr (fun f f' hf => ?_) h
  cases hoffset : f.prop.offset? with
  | some offset => rw [hf.eq_of_main (PropDef.isMain_of_offset? hoffset)]
  | none =>
    have hoffset' : f'.prop.offset? = none := by rw [hf.prop, hoffset]
    unfold writeChange
    simp only [hoffset, hoffset']
    exact hf.writeSeparate hcode

end

/-! ### Calls -/

namespace Session

variable {s s' : Session}

/-- What is tried on a buffer knows of the session its locale, its nodes and whether it is lenient. -/
theorem run_congr {α : Type} {call call' : Context → EncodeM α} (h : ∀ c, c.locale = s.locale → call' c = call c) :
    run call' s = run call s := by
  have hattempt : ∀ s₀ : Session, s₀.locale = s.locale → s₀.attempt call' = s₀.attempt call := fun s₀ hlocale => by
    unfold attempt
    rw [h s₀.context hlocale]
  unfold run
  simp only [hattempt s rfl, hattempt s.close (alike_close s).locale]

/-- What a write to a node does, written in another way. A write to a node in flight waits as it is. -/
theorem perform_congr {type : TypeId} {target : NodeRef} {op op' : QueuedOp} {write write' : Context → EncodeM Unit}
    (hwrite : ∀ c, c.locale = s.locale → write' c = write c) (h : perform type target op write s = .ok () s') :
    perform type target op' write' s = .ok () s' ∨ ∃ (p : PendingId) (s₁ : Session), target = .pending p ∧
      s' = { s₁ with registry := s₁.registry.queue p op } ∧
      perform type target op' write' s = .ok () { s₁ with registry := s₁.registry.queue p op' } := by
  have hrun : run (writeTo type target write') s = run (writeTo type target write) s :=
    run_congr fun c hc => by unfold writeTo; rw [hwrite c hc]
  unfold perform at h ⊢
  obtain ⟨⟨waits, hs⟩, s₁, hdone, h⟩ := EStateM.bind_eq_ok.1 h
  rw [EStateM.bind_of_ok (hrun.trans hdone)]
  cases waits with
  | none => exact .inl h
  | some p =>
    obtain ⟨s₀, enc, -, hcall, rfl⟩ := run_eq_ok hdone
    obtain ⟨q, hq, hwire, -⟩ | ⟨hnone, -⟩ := writeTo_eq_ok hcall
    · cases hq
      cases h
      exact .inr ⟨p, _, (Registry.wireTarget_deferred hwire).1, rfl, rfl⟩
    · cases hnone

/-- An update with a record whose fields are written alike does the same, or waits as the record that it is. -/
theorem updateNode_congr {type : TypeId} {target : NodeRef} {record record' : Record}
    (hfields : ∀ t fields, s.schema.typeById? type = some t → collectFields t s.lenient false record = .ok fields →
      ∃ fields', collectFields t s.lenient false record' = .ok fields' ∧
        ∀ c : Context, c.locale = s.locale → writeUpdate c t fields' = writeUpdate c t fields)
    (h : updateNode type target record s = .ok () s') :
    updateNode type target record' s = .ok () s' ∨ ∃ (p : PendingId) (s₁ : Session), target = .pending p ∧
      s' = { s₁ with registry := s₁.registry.queue p (.update record) } ∧
      updateNode type target record' s = .ok () { s₁ with registry := s₁.registry.queue p (.update record') } := by
  obtain ⟨t, fields, ht, hcollect, hperform⟩ := updateNode_eq_ok.1 h
  obtain ⟨fields', hcollect', hwrite⟩ := hfields t fields ht hcollect
  have hagain : ∀ s'', perform type target (.update record') (fun c => writeUpdate c t fields') s = .ok () s'' →
      updateNode type target record' s = .ok () s'' := fun s'' hs'' =>
    updateNode_eq_ok.2 ⟨t, fields', ht, hcollect', hs''⟩
  rcases perform_congr hwrite hperform with hsame | ⟨p, s₁, htarget, hqueued, hqueued'⟩
  · exact .inl (hagain _ hsame)
  · exact .inr ⟨p, s₁, htarget, hqueued, hagain _ hqueued'⟩

/-- So does the call that names the type. -/
theorem update_congr {type : String} {target : NodeRef} {record record' : Record}
    (hfields : ∀ u t fields, s.schema.typeByName? type = some u → s.schema.typeById? u.id = some t →
      collectFields t s.lenient false record = .ok fields → ∃ fields', collectFields t s.lenient false record' = .ok fields' ∧
        ∀ c : Context, c.locale = s.locale → writeUpdate c t fields' = writeUpdate c t fields)
    (h : update type target record s = .ok () s') :
    update type target record' s = .ok () s' ∨ ∃ (p : PendingId) (s₁ : Session), target = .pending p ∧
      s' = { s₁ with registry := s₁.registry.queue p (.update record) } ∧
      update type target record' s = .ok () { s₁ with registry := s₁.registry.queue p (.update record') } := by
  obtain ⟨u, hu, hnode⟩ := update_eq_ok_iff.1 h
  have hagain : ∀ s'', updateNode u.id target record' s = .ok () s'' → update type target record' s = .ok () s'' :=
    fun s'' hs'' => update_eq_ok_iff.2 ⟨u, hu, hs''⟩
  rcases updateNode_congr (fun t fields => hfields u t fields hu) hnode with hdone | ⟨p, s₁, htarget, hqueued, hqueued'⟩
  · exact .inl (hagain _ hdone)
  · exact .inr ⟨p, s₁, htarget, hqueued, hagain _ hqueued'⟩

/-- A node is created alike from a record whose fields are written alike. -/
theorem create_congr {type : String} {record record' : Record} {p : PendingId}
    (hfields : ∀ t fields, s.schema.typeByName? type = some t → collectFields t s.lenient true record = .ok fields →
      ∃ fields', collectFields t s.lenient true record' = .ok fields' ∧
        ∀ c : Context, c.locale = s.locale → writeCreate c t fields' = writeCreate c t fields)
    (h : create type record s = .ok p s') : create type record' s = .ok p s' := by
  obtain ⟨t, fields, -, -, -, ht, hcollect, -⟩ := create_eq_ok h
  obtain ⟨fields', hcollect', hwrite⟩ := hfields t fields ht hcollect
  have hrun : run (fun c => do createNode t.id c.registry.nextTmp; writeCreate c t fields') s =
      run (fun c => do createNode t.id c.registry.nextTmp; writeCreate c t fields) s := run_congr fun c hc => by
    rw [hwrite c hc]
  rw [create_of_fields ht hcollect] at h
  rw [create_of_fields ht hcollect']
  obtain ⟨a, s₁, hdone, hrest⟩ := EStateM.bind_eq_ok.1 h
  exact EStateM.bind_eq_ok.2 ⟨a, s₁, hrun.trans hdone, hrest⟩

section

variable {decl : SchemaDecl} {priority : Priority} {schema : SchemaLayout} {options : Options} {s₀ : Session}

/-- Texts take the locale of a session, if it has one. -/
theorem takesLocale_of_start (hschema : decl.compile priority = .ok schema) (hstart : start schema options = .ok s₀)
    (hs : s₀.Alike s) (hcode : Locale.idOf? code = some s.locale) {t : TypeLayout} (ht : t ∈ schema.types)
    {p : PropDef EdgeLayout} (hp : p ∈ t.props) (htext : p.type = .text) : p.takesLocale code = true := by
  have hlocale : s.locale ∈ schema.locales.map (·.id) := by
    rw [hs.locale]
    exact (start_locale_mem hstart).resolve_left (hs.locale ▸ Locale.ne_none_of_idOf? hcode)
  unfold PropDef.takesLocale
  rw [hcode, compile_textLocales hschema t ht p hp htext]
  exact List.contains_iff_mem.2 hlocale

end

end Session

end Write

end NodeStore
