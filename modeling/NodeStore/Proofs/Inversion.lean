import Mathlib.Data.List.Forall2

/-!
# Successful runs

What a run that succeeds went through: each step of it succeeded.

* `Except.bind_eq_ok`, `StateT.bind_eq_ok`, `EStateM.bind_eq_ok`, `EStateM.bind_of_ok`: two steps; `EStateM.bind_of_error`,
  `EStateM.map_of_error`: the first one fails; `StateT.lift_eq_ok`: one without state; `EStateM.succeeds`,
  `EStateM.succeedsIn`: whether a run does.
* `foldlM_invariant`, `mapM_eq_ok`, `mapM_eq_ok_iff`, `mapM_cons_eq_ok`, `mapM_invariant`, `forM_eq_ok`: one step for each
  element of a list.
-/

namespace NodeStore

variable {ε σ α β : Type}

theorem Except.bind_eq_ok {x : Except ε α} {f : α → Except ε β} {b : β} :
    (x >>= f) = .ok b ↔ ∃ a, x = .ok a ∧ f a = .ok b := by
  cases x with
  | error e => exact ⟨nofun, fun ⟨_, h, _⟩ => nomatch h⟩
  | ok a => exact ⟨fun h => ⟨a, rfl, h⟩, fun ⟨_, h, hf⟩ => by cases h; exact hf⟩

theorem Except.map_eq_ok {x : Except ε α} {f : α → β} {b : β} :
    (f <$> x) = .ok b ↔ ∃ a, x = .ok a ∧ f a = b := by
  cases x with
  | error e => exact ⟨nofun, fun ⟨_, h, _⟩ => nomatch h⟩
  | ok a => exact ⟨fun h => ⟨a, rfl, Except.ok.inj h⟩, fun ⟨_, h, hf⟩ => by cases h; exact hf ▸ rfl⟩

theorem StateT.bind_eq_ok {x : StateT σ (Except ε) α} {f : α → StateT σ (Except ε) β} {s : σ} {r : β × σ} :
    (x >>= f) s = .ok r ↔ ∃ a s', x s = .ok (a, s') ∧ f a s' = .ok r := by
  change (x s >>= fun p => f p.1 p.2) = _ ↔ _
  rw [Except.bind_eq_ok]
  exact ⟨fun ⟨p, h, hf⟩ => ⟨p.1, p.2, h, hf⟩, fun ⟨a, s', h, hf⟩ => ⟨(a, s'), h, hf⟩⟩

theorem StateT.pure_eq_ok {a : α} {s : σ} {r : α × σ} :
    (pure a : StateT σ (Except ε) α) s = .ok r ↔ r = (a, s) :=
  ⟨fun h => (Except.ok.inj h).symm, fun h => h ▸ rfl⟩

theorem StateT.map_eq_ok {x : StateT σ (Except ε) α} {f : α → β} {s : σ} {r : β × σ} :
    (f <$> x) s = .ok r ↔ ∃ a s', x s = .ok (a, s') ∧ r = (f a, s') := by
  change (x s >>= fun p => pure (f p.1, p.2)) = _ ↔ _
  rw [Except.bind_eq_ok]
  exact ⟨fun ⟨p, h, hf⟩ => ⟨p.1, p.2, h, (Except.ok.inj hf).symm⟩, fun ⟨a, s', h, hf⟩ => ⟨(a, s'), h, hf ▸ rfl⟩⟩

/-- A step that does not touch the state. -/
theorem StateT.lift_eq_ok {x : Except ε α} {s : σ} {r : α × σ} :
    (liftM x : StateT σ (Except ε) α) s = .ok r ↔ x = .ok r.1 ∧ s = r.2 := by
  change (x >>= fun a => pure (a, s)) = _ ↔ _
  rw [Except.bind_eq_ok]
  exact ⟨fun ⟨a, h, hr⟩ => by cases hr; exact ⟨h, rfl⟩, fun ⟨h, hs⟩ => ⟨r.1, h, by rw [hs]; rfl⟩⟩

theorem EStateM.bind_eq_ok {x : EStateM ε σ α} {f : α → EStateM ε σ β} {s s'' : σ} {b : β} :
    (x >>= f) s = .ok b s'' ↔ ∃ a s', x s = .ok a s' ∧ f a s' = .ok b s'' := by
  change EStateM.bind x f s = _ ↔ _
  unfold EStateM.bind
  cases x s with
  | error e s' => exact ⟨nofun, fun ⟨_, _, h, _⟩ => nomatch h⟩
  | ok a s' => exact ⟨fun h => ⟨a, s', rfl, h⟩, fun ⟨_, _, h, hf⟩ => by cases h; exact hf⟩

theorem EStateM.bind_of_ok {x : EStateM ε σ α} {f : α → EStateM ε σ β} {s s' : σ} {a : α} (h : x s = .ok a s') :
    (x >>= f) s = f a s' := by
  change EStateM.bind x f s = _
  unfold EStateM.bind
  rw [h]

theorem EStateM.bind_of_error {x : EStateM ε σ α} {f : α → EStateM ε σ β} {s s' : σ} {e : ε} (h : x s = .error e s') :
    (x >>= f) s = .error e s' := by
  change EStateM.bind x f s = _
  unfold EStateM.bind
  rw [h]

theorem EStateM.map_of_error {x : EStateM ε σ α} {f : α → β} {s s' : σ} {e : ε} (h : x s = .error e s') :
    (f <$> x) s = .error e s' := by
  change EStateM.map f x s = _
  unfold EStateM.map
  rw [h]

/-- Did a run succeed? This can be decided where results cannot be compared. -/
def EStateM.succeeds : EStateM.Result ε σ α → Bool
  | .ok .. => true
  | .error .. => false

theorem EStateM.eq_ok_of_succeeds {r : EStateM.Result ε σ α} (h : EStateM.succeeds r = true) : ∃ a s, r = .ok a s := by
  cases r with
  | ok a s => exact ⟨a, s, rfl⟩
  | error => cases h

/-- Did a run succeed in a state that passes a test? -/
def EStateM.succeedsIn (q : σ → Bool) : EStateM.Result ε σ α → Bool
  | .ok _ s => q s
  | .error .. => false

theorem EStateM.eq_ok_of_succeedsIn {q : σ → Bool} {r : EStateM.Result ε σ α} (h : EStateM.succeedsIn q r = true) :
    ∃ a s, r = .ok a s ∧ q s = true := by
  cases r with
  | ok a s => exact ⟨a, s, rfl, h⟩
  | error => cases h

/-- What holds at first and is kept by every step holds at the end of a fold. -/
theorem foldlM_invariant {P : σ → Prop} {f : σ → α → Except ε σ} {xs : List α} {s s' : σ}
    (h : xs.foldlM f s = .ok s') (hs : P s) (step : ∀ x ∈ xs, ∀ s s', P s → f s x = .ok s' → P s') : P s' := by
  induction xs generalizing s with
  | nil => cases h; exact hs
  | cons x xs ih =>
    rw [List.foldlM_cons] at h
    obtain ⟨t, hx, ht⟩ := Except.bind_eq_ok.1 h
    exact ih ht (step x List.mem_cons_self s t hs hx) fun y hy => step y (List.mem_cons_of_mem _ hy)

/-- A test of each element of a list. -/
theorem forM_eq_ok {f : α → Except ε Unit} {xs : List α} : xs.forM f = .ok () ↔ ∀ x ∈ xs, f x = .ok () := by
  induction xs with
  | nil => exact ⟨fun _ => nofun, fun _ => rfl⟩
  | cons x xs ih =>
    change (f x >>= fun _ => xs.forM f) = _ ↔ _
    rw [Except.bind_eq_ok, List.forall_mem_cons, ← ih]
    exact ⟨fun ⟨_, hx, hxs⟩ => ⟨hx, hxs⟩, fun ⟨hx, hxs⟩ => ⟨_, hx, hxs⟩⟩

/-- A computation that succeeds for each element of a list. -/
theorem mapM_ok {f : α → Except ε β} {g : α → β} {xs : List α} (h : ∀ x ∈ xs, f x = .ok (g x)) :
    xs.mapM f = .ok (xs.map g) := by
  induction xs with
  | nil => rfl
  | cons x xs ih =>
    rw [List.mapM_cons, h x List.mem_cons_self, ih fun y hy => h y (List.mem_cons_of_mem _ hy)]
    rfl

theorem exists_foldlM {f : σ → α → Except ε σ} {xs : List α} (h : ∀ x ∈ xs, ∀ s, ∃ s', f s x = .ok s') (s : σ) :
    ∃ s', xs.foldlM f s = .ok s' := by
  induction xs generalizing s with
  | nil => exact ⟨s, rfl⟩
  | cons x xs ih =>
    obtain ⟨t, ht⟩ := h x List.mem_cons_self s
    obtain ⟨s', hs'⟩ := ih (fun y hy => h y (List.mem_cons_of_mem _ hy)) t
    exact ⟨s', by rw [List.foldlM_cons, ht]; exact hs'⟩

theorem exists_mapM {f : α → Except ε β} {xs : List α} (h : ∀ x ∈ xs, ∃ y, f x = .ok y) : ∃ ys, xs.mapM f = .ok ys := by
  induction xs with
  | nil => exact ⟨[], rfl⟩
  | cons x xs ih =>
    obtain ⟨y, hy⟩ := h x List.mem_cons_self
    obtain ⟨ys, hys⟩ := ih fun z hz => h z (List.mem_cons_of_mem _ hz)
    refine ⟨y :: ys, ?_⟩
    rw [List.mapM_cons, hy, hys]
    rfl

/-- A computation that succeeds where a condition holds. -/
theorem mapM_eq_ok_iff {f : α → Except ε β} {g : α → β} {P : α → Prop} {xs : List α} {ys : List β}
    (h : ∀ x ∈ xs, ∀ y, f x = .ok y ↔ P x ∧ y = g x) : xs.mapM f = .ok ys ↔ (∀ x ∈ xs, P x) ∧ ys = xs.map g := by
  induction xs generalizing ys with
  | nil => exact ⟨fun hok => ⟨fun _ hx => absurd hx List.not_mem_nil, (Except.ok.inj hok).symm⟩, fun hall => hall.2 ▸ rfl⟩
  | cons x xs ih =>
    rw [List.mapM_cons, List.forall_mem_cons, List.map_cons]
    constructor
    · intro hok
      obtain ⟨y, hy, hok⟩ := Except.bind_eq_ok.1 hok
      obtain ⟨zs, hzs, hok⟩ := Except.bind_eq_ok.1 hok
      cases hok
      obtain ⟨hx, rfl⟩ := (h x List.mem_cons_self y).1 hy
      obtain ⟨hxs, rfl⟩ := (ih fun z hz => h z (List.mem_cons_of_mem _ hz)).1 hzs
      exact ⟨⟨hx, hxs⟩, rfl⟩
    · rintro ⟨⟨hx, hxs⟩, rfl⟩
      refine Except.bind_eq_ok.2 ⟨g x, (h x List.mem_cons_self _).2 ⟨hx, rfl⟩, Except.bind_eq_ok.2 ⟨xs.map g, ?_, rfl⟩⟩
      exact (ih fun z hz => h z (List.mem_cons_of_mem _ hz)).2 ⟨hxs, rfl⟩

theorem mapM_forall₂ {f : α → Except ε β} {xs : List α} {ys : List β} (h : xs.mapM f = .ok ys) :
    List.Forall₂ (fun x y => f x = .ok y) xs ys := by
  induction xs generalizing ys with
  | nil =>
    cases h
    exact .nil
  | cons x xs ih =>
    rw [List.mapM_cons] at h
    obtain ⟨y, hy, h⟩ := Except.bind_eq_ok.1 h
    obtain ⟨zs, hzs, h⟩ := Except.bind_eq_ok.1 h
    cases h
    exact .cons hy (ih hzs)

theorem exists_of_forall₂_left {R : α → β → Prop} {xs : List α} {ys : List β} (h : List.Forall₂ R xs ys) {x : α}
    (hx : x ∈ xs) : ∃ y ∈ ys, R x y := by
  induction h with
  | nil => cases hx
  | @cons a b as bs hab _ ih =>
    rcases List.mem_cons.1 hx with rfl | hx
    · exact ⟨b, List.mem_cons_self, hab⟩
    · obtain ⟨y, hy, hxy⟩ := ih hx
      exact ⟨y, List.mem_cons_of_mem _ hy, hxy⟩

/-- What is computed for each element of a list. -/
theorem mapM_eq_ok {f : α → Except ε β} {xs : List α} {ys : List β} (h : xs.mapM f = .ok ys) :
    ys.length = xs.length ∧ (∀ y ∈ ys, ∃ x ∈ xs, f x = .ok y) ∧ ∀ x ∈ xs, ∃ y ∈ ys, f x = .ok y :=
  have hall := mapM_forall₂ h
  ⟨hall.length_eq.symm, fun _ hy => exists_of_forall₂_left hall.flip hy, fun _ hx => exists_of_forall₂_left hall hx⟩

/-- The first element of a list comes first. -/
theorem mapM_cons_eq_ok {f : α → StateT σ (Except ε) β} {x : α} {xs : List α} {ys : List β} {s s' : σ} :
    (x :: xs).mapM f s = .ok (ys, s') ↔ ∃ y t zs, f x s = .ok (y, t) ∧ xs.mapM f t = .ok (zs, s') ∧ ys = y :: zs := by
  rw [List.mapM_cons]
  simp only [StateT.bind_eq_ok, StateT.pure_eq_ok]
  constructor
  · rintro ⟨y, t, hx, zs, _, hxs, h⟩
    cases h
    exact ⟨y, t, zs, hx, hxs, rfl⟩
  · rintro ⟨y, t, zs, hx, hxs, rfl⟩
    exact ⟨y, t, hx, zs, s', hxs, rfl⟩

/-- Each element of a list has its step. -/
theorem mapM_step {f : α → StateT σ (Except ε) β} {xs : List α} {ys : List β} {s s' : σ} (h : xs.mapM f s = .ok (ys, s')) :
    ∀ x ∈ xs, ∃ t y t', f x t = .ok (y, t') := by
  induction xs generalizing s ys with
  | nil => exact fun _ hx => absurd hx List.not_mem_nil
  | cons x xs ih =>
    obtain ⟨y, t, zs, hx, hxs, -⟩ := mapM_cons_eq_ok.1 h
    exact List.forall_mem_cons.2 ⟨⟨s, y, t, hx⟩, ih hxs⟩

/-- What is computed for each element of a list, while an invariant of the state is kept. -/
theorem mapM_invariant {P : σ → Prop} {Q : α → β → σ → Prop} {f : α → StateT σ (Except ε) β} {xs : List α}
    {ys : List β} {s s' : σ} (h : xs.mapM f s = .ok (ys, s')) (hs : P s)
    (step : ∀ x ∈ xs, ∀ s y s', P s → f x s = .ok (y, s') → P s' ∧ Q x y s')
    (mono : ∀ x y s x' y' s', P s → Q x y s → f x' s = .ok (y', s') → Q x y s') :
    P s' ∧ ∀ y ∈ ys, ∃ x ∈ xs, Q x y s' := by
  suffices h' : P s' ∧ (∀ y ∈ ys, ∃ x ∈ xs, Q x y s') ∧ ∀ x y, Q x y s → Q x y s' from ⟨h'.1, h'.2.1⟩
  induction xs generalizing s ys with
  | nil =>
    cases h
    exact ⟨hs, nofun, fun _ _ h => h⟩
  | cons x xs ih =>
    obtain ⟨y, t, zs, hx, hxs, rfl⟩ := mapM_cons_eq_ok.1 h
    obtain ⟨ht, hy⟩ := step x List.mem_cons_self s y t hs hx
    obtain ⟨h1, h2, h3⟩ := ih hxs ht fun x' hx' => step x' (List.mem_cons_of_mem _ hx')
    refine ⟨h1, fun z hz => ?_, fun x' y' hq => h3 _ _ (mono _ _ _ _ _ _ hs hq hx)⟩
    rcases List.mem_cons.1 hz with rfl | hz
    · exact ⟨x, List.mem_cons_self, h3 _ _ hy⟩
    · obtain ⟨x', hx', hq⟩ := h2 z hz
      exact ⟨x', List.mem_cons_of_mem _ hx', hq⟩

end NodeStore
