import NodeStore.Proofs.Write.Refusals

/-!
# Attempts that come out alike

One attempt skips names that are unknown, another one is not given them. Both succeed with the same answer and the same
bytes, or both fail, and neither of them because of a name. Which placeholders are noted makes no difference to that.

* `Agree`: two results that are alike; `Concur`: two actions on the open buffer that are.
* `Agree.bind`, `Agree.mapM`, `Concur.bind`, `Concur.lift`, `Concur.forM`: results and actions put together.
-/

namespace NodeStore

namespace Write

/-- Is a name unknown? -/
def Error.IsUnknown : Error → Prop
  | .unknownProperty .. => True
  | _ => False

/-- Is there too little room? -/
def Error.IsFull : Error → Prop
  | .bufferFull _ => True
  | _ => False

theorem Error.IsFull.eq {e : Error} (h : e.IsFull) : ∃ full, e = .bufferFull full := by
  cases e with
  | bufferFull full => exact ⟨full, rfl⟩
  | _ => exact h.elim

theorem Error.IsUnknown.not_full {e : Error} (h : e.IsUnknown) : ¬e.IsFull := fun hfull => by
  obtain ⟨full, rfl⟩ := hfull.eq
  exact h

/-- Two failures that are met alike, and neither of them because of a name. -/
structure Resemble (e e' : Error) : Prop where
  left : ¬e.IsUnknown
  right : ¬e'.IsUnknown
  full : e'.IsFull ↔ e.IsFull

theorem Resemble.refl {e : Error} (h : ¬e.IsUnknown) : Resemble e e := ⟨h, h, .rfl⟩

variable {E α β γ δ : Type} {X : Prop}

/-- A list and what its members are mapped to. -/
theorem forall₂_map_mem (f : α → β) (xs : List α) :
    List.Forall₂ (fun x y => x ∈ xs ∧ f x = y) xs (xs.map f) :=
  List.forall₂_map_right_iff.2 (List.forall₂_same.2 fun _ hx => ⟨hx, rfl⟩)

/-- Both results are answers, which `P` relates, or both are failures that resemble each other. If `X` holds, the second one
may be the refusal of a name instead. -/
inductive Agree (X : Prop) (P : α → β → Prop) : Except Error α → Except Error β → Prop
  | ok {a : α} {b : β} (h : P a b) : Agree X P (.ok a) (.ok b)
  | error {e e' : Error} (h : Resemble e e') : Agree X P (.error e) (.error e')
  | refused {x : Except Error α} {e' : Error} (hx : X) (h : e'.IsUnknown) : Agree X P x (.error e')

namespace Agree

variable {P : α → β → Prop} {Q : γ → δ → Prop} {x : Except Error α} {y : Except Error β}

theorem mono {P' : α → β → Prop} {Y : Prop} (h : Agree X P x y) (hXY : X → Y) (hP : ∀ a b, P a b → P' a b) :
    Agree Y P' x y := by
  cases h with
  | ok h => exact .ok (hP _ _ h)
  | error h => exact .error h
  | refused hx h => exact .refused (hXY hx) h

theorem bind (h : Agree X P x y) {f : α → Except Error γ} {g : β → Except Error δ}
    (hf : ∀ a b, P a b → Agree X Q (f a) (g b)) : Agree X Q (x >>= f) (y >>= g) := by
  cases h with
  | ok h => exact hf _ _ h
  | error h => exact .error h
  | refused hx h => exact .refused hx h

theorem map (h : Agree X P x y) {f : α → γ} {g : β → δ} (hf : ∀ a b, P a b → Q (f a) (g b)) :
    Agree X Q (f <$> x) (g <$> y) := by
  cases h with
  | ok h => exact .ok (hf _ _ h)
  | error h => exact .error h
  | refused hx h => exact .refused hx h

theorem mapM {R : α → β → Prop} {f : α → Except Error γ} {g : β → Except Error δ} {xs : List α} {ys : List β}
    (h : List.Forall₂ R xs ys) (hf : ∀ x y, R x y → Agree X Q (f x) (g y)) :
    Agree X (List.Forall₂ Q) (xs.mapM f) (ys.mapM g) := by
  induction h with
  | nil => exact .ok .nil
  | cons hxy _ ih =>
    rw [List.mapM_cons, List.mapM_cons]
    exact (hf _ _ hxy).bind fun _ _ hab => ih.bind fun _ _ habs => .ok (.cons hab habs)

/-- Equal answers, one by one. -/
theorem mapM_eq {R : α → β → Prop} {f : α → Except Error γ} {g : β → Except Error γ} {xs : List α} {ys : List β}
    (h : List.Forall₂ R xs ys) (hf : ∀ x y, R x y → Agree X Eq (f x) (g y)) : Agree X Eq (xs.mapM f) (ys.mapM g) :=
  (mapM h hf).mono id fun _ _ h => List.forall₂_eq_eq_eq ▸ h

theorem forM {R : α → β → Prop} {f : α → Except Error Unit} {g : β → Except Error Unit} {xs : List α}
    {ys : List β} (h : List.Forall₂ R xs ys) (hf : ∀ x y, R x y → Agree X Eq (f x) (g y)) : Agree X Eq (xs.forM f) (ys.forM g) := by
  induction h with
  | nil => exact .ok rfl
  | @cons x y xs ys hxy _ ih =>
    change Agree X Eq (f x >>= fun _ => xs.forM f) (g y >>= fun _ => ys.forM g)
    exact (hf _ _ hxy).bind fun _ _ _ => ih

theorem foldlM {f : β → α → Except Error β} {xs : List α} (hf : ∀ b x, Agree X Eq (f b x) (f b x)) (b : β) :
    Agree X Eq (xs.foldlM f b) (xs.foldlM f b) := by
  induction xs generalizing b with
  | nil => exact .ok rfl
  | cons x xs ih =>
    rw [List.foldlM_cons]
    exact (hf b x).bind fun _ _ h => h ▸ ih _

/-- What fails for another reason than a name agrees with itself. -/
theorem self {x : Except Error α} (h : ∀ e, x = .error e → ¬e.IsUnknown) : Agree X Eq x x := by
  cases x with
  | ok a => exact .ok rfl
  | error e => exact .error (.refl (h e rfl))

/-- The first answer is kept in mind. -/
theorem remember (h : Agree X P x y) : Agree X (fun a b => P a b ∧ x = .ok a) x y := by
  cases h with
  | ok h => exact .ok ⟨h, rfl⟩
  | error h => exact .error h
  | refused hx h => exact .refused hx h

end Agree

/-! ### Actions -/

/-- How an action comes out. -/
def outcome (x : EncodeM α) (d : Draft) : Except Error (α × Draft) :=
  match x d with
  | .ok a d' => .ok (a, d')
  | .error e _ => .error e

/-- The same answer, and the same bytes with the cursor in the same place. -/
def SameDraft (r r' : α × Draft) : Prop := r'.1 = r.1 ∧ r'.2.encoder = r.2.encoder

/-- From drafts that differ at most in their placeholders, both actions come to such drafts with the same answer. -/
def Concur (X : Prop) (x y : EncodeM α) : Prop :=
  ∀ d d' : Draft, d'.encoder = d.encoder → Agree X SameDraft (outcome x d) (outcome y d')

theorem outcome_bind (x : EncodeM α) (f : α → EncodeM β) (d : Draft) :
    outcome (x >>= f) d = outcome x d >>= fun r => outcome (f r.1) r.2 := by
  unfold outcome
  cases h : x d with
  | ok a d' => rw [EStateM.bind_of_ok h]; rfl
  | error e d' => rw [EStateM.bind_of_error h]; rfl

namespace Concur

theorem pure (a : α) : Concur X (Pure.pure a) (Pure.pure a) := fun _ _ h => .ok ⟨rfl, h⟩

theorem throw {e e' : Error} (h : Resemble e e') :
    Concur X (MonadExcept.throw e : EncodeM α) (MonadExcept.throw e') := fun _ _ _ => .error h

theorem bind {x y : EncodeM α} {f g : α → EncodeM β} (h : Concur X x y) (hf : ∀ a, Concur X (f a) (g a)) :
    Concur X (x >>= f) (y >>= g) := by
  intro d d' hd
  rw [outcome_bind, outcome_bind]
  refine (h d d' hd).bind ?_
  rintro ⟨a, d₁⟩ ⟨a', d₁'⟩ ⟨rfl, hd₁⟩
  exact hf _ d₁ d₁' hd₁

/-- What comes without the buffer is put to use. -/
theorem lift {x : Except Error α} {y : Except Error β} {P : α → β → Prop} (h : Agree X P x y) {f : α → EncodeM γ}
    {g : β → EncodeM γ} (hf : ∀ a b, P a b → Concur X (f a) (g b)) :
    Concur X ((liftM x : EncodeM α) >>= f) ((liftM y : EncodeM β) >>= g) := by
  cases h with
  | ok h => exact hf _ _ h
  | error h => exact fun _ _ _ => .error h
  | refused hx h => exact fun _ _ _ => .refused hx h

theorem discard {x y : EncodeM α} (h : Concur X x y) :
    Concur X (x >>= fun _ => Pure.pure PUnit.unit) (y >>= fun _ => Pure.pure PUnit.unit) := h.bind fun _ => .pure _

theorem forM {R : α → β → Prop} {f : α → EncodeM PUnit} {g : β → EncodeM PUnit} {xs : List α} {ys : List β}
    (h : List.Forall₂ R xs ys) (hf : ∀ x y, R x y → Concur X (f x) (g y)) : Concur X (xs.forM f) (ys.forM g) := by
  induction h with
  | nil => exact .pure _
  | @cons x y xs ys hxy _ ih =>
    change Concur X (f x >>= fun _ => xs.forM f) (g y >>= fun _ => ys.forM g)
    exact (hf _ _ hxy).bind fun _ => ih

theorem emit (is : List Instr) : Concur X (Write.emit is) (Write.emit is) := by
  intro d d' hd
  unfold outcome Write.emit
  simp only [get, MonadState.get, getThe, MonadStateOf.get]
  rw [EStateM.bind_of_ok (rfl : (EStateM.get : EncodeM Draft) d = .ok d d),
    EStateM.bind_of_ok (rfl : (EStateM.get : EncodeM Draft) d' = .ok d' d'), hd]
  cases d.encoder.buffer.append (encodeAll is) with
  | ok x => exact .ok ⟨rfl, rfl⟩
  | error full => exact .error (.refl id)

theorem cursor : Concur X Write.cursor Write.cursor := fun _ _ h => .ok ⟨congrArg Encoder.cursor h, h⟩

theorem moveTo (c : Cursor) : Concur X (Write.moveTo c) (Write.moveTo c) := fun _ _ h =>
  .ok ⟨rfl, congrArg (fun e => { e with cursor := c }) h⟩

theorem note (hs hs' : List Placeholder) : Concur X (Write.note hs) (Write.note hs') := fun _ _ h => .ok ⟨rfl, h⟩

theorem activeNode : Concur X Write.activeNode Write.activeNode := by
  unfold Write.activeNode
  refine cursor.bind fun c => ?_
  split
  · exact .pure _
  · exact .throw (.refl id)

theorem createNode (type : TypeId) (tmp : UInt32) : Concur X (Write.createNode type tmp) (Write.createNode type tmp) :=
  cursor.bind fun _ => (emit _).bind fun _ => moveTo _

theorem selectNode (type : TypeId) (node : NodeTarget) :
    Concur X (Write.selectNode type node) (Write.selectNode type node) := by
  unfold Write.selectNode
  refine cursor.bind fun c => ?_
  split
  · exact .pure _
  · cases node with
    | link => exact (Concur.throw (.refl id)).bind fun _ => (emit _).bind fun _ => moveTo _
    | _ => exact (emit _).bind fun _ => moveTo _

theorem nodeInstr (i : Instr) : Concur X (Write.nodeInstr i) (Write.nodeInstr i) := activeNode.bind fun _ => (emit _).discard

theorem fieldInstr (p : PropDef E) (i : Instr) : Concur X (Write.fieldInstr p i) (Write.fieldInstr p i) := by
  unfold Write.fieldInstr
  refine activeNode.bind fun ⟨type, node⟩ => ?_
  dsimp only
  split
  · exact .throw (e := .noActiveNode) (.refl id)
  · exact cursor.bind fun _ => (emit _).bind fun _ => (moveTo _).bind fun _ => .pure _

theorem refInstr (p : PropDef E) (many : Bool) (items items' : List RefItem) (entries : List (RefEntry × Option PendingId))
    (i : Instr) : Concur X (Write.refInstr p many items entries i) (Write.refInstr p many items' entries i) :=
  (fieldInstr p i).bind fun _ => note _ _

end Concur

end Write

end NodeStore
