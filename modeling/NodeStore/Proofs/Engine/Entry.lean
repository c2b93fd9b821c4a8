import NodeStore.Proofs.Engine.Shape

/-!
# What written references make

* `targetOf_spec`: a written reference names an existing node.
* `readEntry_spec`, `readEntries_spec`: the links that are read fit their property.
* `edgeInstr_fits`, `edgeNode_fits`: what the block of a link makes fits the layout of the links, instruction by
  instruction.
-/

namespace NodeStore.Engine

open Write (Instr RefEntry)

variable {E L : Type}

/-- A test that needs no reader. -/
theorem Scan.lift_eq_ok {α : Type} {x : Except Fault α} {r r' : Wire.Reader} {a : α} :
    (liftM x : Scan α) r = .ok a r' ↔ x = .ok a ∧ r = r' := by
  change Scan.ofExcept x r = _ ↔ _
  unfold Scan.ofExcept
  cases x with
  | ok b => simp
  | error e => simp

theorem Scan.pure_eq_ok {α : Type} {r r' : Wire.Reader} {a b : α} :
    (pure a : Scan α) r = .ok b r' ↔ b = a ∧ r' = r := by
  change EStateM.Result.ok a r = _ ↔ _
  rw [EStateM.Result.ok.injEq]
  exact ⟨fun h => ⟨h.1.symm, h.2.symm⟩, fun h => ⟨h.1.symm, h.2.symm⟩⟩

theorem orFail_eq_ok {α : Type} {f : Fault} {x : Option α} {a : α} : orFail f x = .ok a ↔ x = some a := by
  cases x <;> simp [orFail]

/-! ## Links -/

/-- A written reference names an existing node of the target type. -/
theorem targetOf_spec {k : Known} {p : PropDef L} {flags : UInt8} {raw : UInt32} {id : NodeId}
    (h : targetOf k p flags raw = .ok id) :
    ∃ target, p.target = some target ∧ (k.store.node? target.id id).isSome = true := by
  unfold targetOf at h
  obtain ⟨target, ht, h⟩ := Except.bind_eq_ok.1 h
  refine ⟨target, orFail_eq_ok.1 ht, ?_⟩
  split at h <;>
  · obtain ⟨id', -, h⟩ := Except.bind_eq_ok.1 h
    dsimp only at h
    split at h
    · cases h
    · rename_i hn
      cases h
      cases hs : k.store.node? target.id id <;> simp_all

/-- A link leads to the node that it is made for. -/
theorem linkTo_id {edgesOf : L → Bytes → Except Fault E} {p : PropDef L} {id : NodeId} {block : Option Bytes} {l : Link E}
    (h : linkTo edgesOf p id block = .ok l) : l.id = id := by
  unfold linkTo at h
  split at h
  · cases h
    rfl
  · obtain ⟨e, -, h⟩ := Except.bind_eq_ok.1 h
    cases h
    rfl
  · cases h

theorem linkTo_spec {pay : L → E → Prop} {edgesOf : L → Bytes → Except Fault E} {p : PropDef L}
    (hpay : ∀ t, p.edges = some t → ∀ block e, edgesOf t block = .ok e → pay t e) {id : NodeId}
    {block : Option Bytes} {l : Link E} (h : linkTo edgesOf p id block = .ok l) :
    l.id = id ∧ l.Fits pay p ∧ (l.edges.isSome = true → p.edges.isSome = true) := by
  unfold linkTo at h
  split at h
  · cases h
    exact ⟨rfl, nofun, nofun⟩
  · rename_i block t ht
    obtain ⟨e, he, h⟩ := Except.bind_eq_ok.1 h
    cases h
    refine ⟨rfl, fun e' he' t' ht' => ?_, fun _ => by rw [ht]; rfl⟩
    cases he'
    rw [ht] at ht'
    cases ht'
    exact hpay _ ht _ _ he
  · cases h

/-- A link as it can be written for a property: to an existing node, with what the property lets its links store. -/
structure Written (pay : L → E → Prop) (k : Known) (p : PropDef L) (l : Link E) : Prop where
  fits : l.Fits pay p
  edges : l.edges.isSome = true → p.edges.isSome = true
  target : ∃ target, p.target = some target ∧ (k.store.node? target.id l.id).isSome = true

theorem readEntry_spec {pay : L → E → Prop} {edgesOf : L → Bytes → Except Fault E} {k : Known} {p : PropDef L}
    (hpay : ∀ t, p.edges = some t → ∀ block e, edgesOf t block = .ok e → pay t e) {r r' : Wire.Reader}
    {l : Option (Link E)} (h : readEntry k edgesOf p r = .ok l r') :
    ∀ x ∈ l, Written pay k p x := by
  unfold readEntry at h
  simp only [EStateM.bind_eq_ok] at h
  obtain ⟨flags, _, -, raw, _, -, block, _, -, h⟩ := h
  split at h
  · cases h
    nofun
  · simp only [EStateM.bind_eq_ok, Scan.lift_eq_ok, Scan.pure_eq_ok] at h
    obtain ⟨id, _, ⟨hid, rfl⟩, x, _, ⟨hx, rfl⟩, rfl, rfl⟩ := h
    obtain ⟨rfl, hfits, hedges⟩ := linkTo_spec hpay hx
    rintro y ⟨⟩
    exact ⟨hfits, hedges, targetOf_spec hid⟩

theorem readEntries_spec {pay : L → E → Prop} {edgesOf : L → Bytes → Except Fault E} {k : Known} {p : PropDef L}
    (hpay : ∀ t, p.edges = some t → ∀ block e, edgesOf t block = .ok e → pay t e) {n : Nat} {r r' : Wire.Reader}
    {ls : List (Link E)} (h : readEntries k edgesOf p n r = .ok ls r') :
    ∀ x ∈ ls, Written pay k p x := by
  induction n generalizing r ls with
  | zero =>
    cases h
    nofun
  | succ n ih =>
    rw [readEntries] at h
    simp only [EStateM.bind_eq_ok, Scan.pure_eq_ok] at h
    obtain ⟨l, _, hl, others, _, hothers, rfl, rfl⟩ := h
    intro x hx
    rcases List.mem_append.1 hx with hx | hx
    · exact readEntry_spec hpay hl x (by simpa using hx)
    · exact ih hothers x hx

/-- The selected field is a property with that slot. -/
theorem fieldAt_spec {t : Layout L} {slot tag : UInt8} {p : PropDef L} (h : fieldAt t slot tag = .ok p) :
    p ∈ t.props ∧ p.slot? = some slot := by
  unfold fieldAt at h
  split at h
  · cases h
  · rename_i q hq
    split at h
    · cases h
      exact Layout.mem_of_propBySlot? hq
    · cases h

theorem slotOf_eq {p : PropDef L} {slot : UInt8} (h : p.slot? = some slot) : slotOf p = slot := by
  rw [slotOf, h, Option.getD_some]

/-! ## What links store -/

/-- What is made so far fits, and the selected field is one of the layout. -/
structure EdgeRun.Fits (t : EdgeLayout) (e : EdgeRun) : Prop where
  node : EdgeFits t e.node
  field : ∀ p, e.field = some p → p ∈ t.props ∧ ∃ slot, p.slot? = some slot

theorem EdgeRun.Fits.putLinks {t : EdgeLayout} (ht : t.Placed) {e : EdgeRun} (h : e.Fits t) {p : PropDef Empty}
    (hp : p ∈ t.props) {slot : UInt8} (hs : p.slot? = some slot) {ls : List (Link Empty)}
    (hls : ∀ l ∈ ls, l.Fits NothingFits p ∧ p.target.isSome = true) : (e.putLinks p ls).Fits t where
  node := by
    have hn := h.node
    change EdgeFits t (ls.foldl _ e.node)
    generalize e.node = n at hn
    induction ls generalizing n with
    | nil => exact hn
    | cons l ls ih =>
      obtain ⟨hl, htarget⟩ := hls l List.mem_cons_self
      refine ih (fun x hx => hls x (List.mem_cons_of_mem _ hx)) _ ?_
      rw [slotOf_eq hs]
      exact Node.Fits.putLink hn ht hp hs ((ht.measured p hp).target.symm.trans htarget) hl
  field := h.field

/-- Every instruction keeps what is made fitting. -/
theorem edgeInstr_fits {k : Known} {t : EdgeLayout} (ht : t.Placed) {e e' : EdgeRun} {r r' : Wire.Reader}
    (h : e.Fits t) (hr : edgeInstr k t e r = .ok e' r') : e'.Fits t := by
  have hnothing : ∀ p : PropDef Empty, ∀ u, p.edges = some u → ∀ block x, nothing u block = .ok x → NothingFits u x :=
    fun _ u => nomatch u
  have hnode := h.node
  unfold edgeInstr at hr
  obtain ⟨opcode, _, -, hr⟩ := EStateM.bind_eq_ok.1 hr
  split at hr
  · simp only [EStateM.bind_eq_ok, Scan.lift_eq_ok, Scan.pure_eq_ok] at hr
    obtain ⟨slot, _, -, tag, _, -, p, _, ⟨hp, rfl⟩, rfl, rfl⟩ := hr
    refine ⟨hnode, ?_⟩
    rintro q ⟨⟩
    exact ⟨(fieldAt_spec hp).1, slot, (fieldAt_spec hp).2⟩
  · split at hr
    · obtain ⟨block, _, -, hr⟩ := EStateM.bind_eq_ok.1 hr
      split at hr
      · cases hr
      · rename_i hlen
        cases hr
        exact ⟨Node.Fits.withMain hnode (Decidable.not_not.1 hlen), h.field⟩
    · obtain ⟨p, _, hp, hr⟩ := EStateM.bind_eq_ok.1 hr
      obtain ⟨hmem, slot, hs⟩ := h.field p (orFail_eq_ok.1 (Scan.lift_eq_ok.1 hp).1)
      have hlinks : ∀ ls : List (Link Empty), (∀ l ∈ ls, Written NothingFits k p l) → (e.putLinks p ls).Fits t :=
        fun ls hls => h.putLinks ht hmem hs fun l hl => by
          obtain ⟨hfits, -, target, htarget, -⟩ := hls l hl
          exact ⟨hfits, by rw [htarget]; rfl⟩
      split at hr
      · simp only [EStateM.bind_eq_ok, Scan.lift_eq_ok, Scan.pure_eq_ok] at hr
        obtain ⟨payload, _, -, n, _, ⟨hn, rfl⟩, rfl, rfl⟩ := hr
        rw [slotOf_eq hs] at hn
        exact ⟨Node.Fits.writePayload hnode hmem hs hn, h.field⟩
      · split at hr
        · simp only [EStateM.bind_eq_ok, Scan.pure_eq_ok] at hr
          obtain ⟨l, _, hl, rfl, rfl⟩ := hr
          exact hlinks _ fun x hx => readEntry_spec (hnothing p) hl x (by simpa using hx)
        · split at hr
          · simp only [EStateM.bind_eq_ok, Scan.pure_eq_ok] at hr
            obtain ⟨n, _, -, ls, _, hls, rfl, rfl⟩ := hr
            exact hlinks _ (readEntries_spec (hnothing p) hls)
          · cases hr

theorem edgeInstrs_fits {k : Known} {t : EdgeLayout} (ht : t.Placed) {n : Nat} {e e' : EdgeRun} {r r' : Wire.Reader}
    (h : e.Fits t) (hr : edgeInstrs k t n e r = .ok e' r') : e'.Fits t := by
  induction n generalizing e r with
  | zero =>
    cases hr
    exact h
  | succ n ih =>
    rw [edgeInstrs] at hr
    obtain ⟨_, _, -, hr⟩ := EStateM.bind_eq_ok.1 hr
    split at hr
    · cases hr
      exact h
    · obtain ⟨e₁, _, h₁, hr⟩ := EStateM.bind_eq_ok.1 hr
      exact ih (edgeInstr_fits ht h h₁) hr

/-- What the block of a link makes fits the layout of the links. -/
theorem edgeNode_fits {k : Known} {t : EdgeLayout} (ht : t.Placed) {block : Bytes} {n : EdgeNode}
    (h : edgeNode k t block = .ok n) : EdgeFits t n := by
  obtain ⟨e, he, hn⟩ := Except.bind_eq_ok.1 h
  cases hn
  unfold Scan.run at he
  split at he
  · rename_i hr
    cases he
    have hstart : EdgeRun.Fits t ⟨.fresh t, none⟩ := ⟨Node.Fits.fresh ht, fun _ h => by cases h⟩
    exact (edgeInstrs_fits ht hstart hr).node
  · cases he

end NodeStore.Engine
