import NodeStore.Engine.Order
import NodeStore.Proofs.Engine.Contents
import NodeStore.Proofs.Query.Conditions

/-!
# The order of a result

A result is sorted by the values of a field: numbers by their size, contents by the first byte in which they differ, and
no value is the least of all. Equal values stand in the order of the ids, whichever way the values are turned.

* `Less`: the order of values; `compare_key` ties it to the keys that the engine makes.
* `Field.sortValue`: the value by which a node is sorted; `sortKey_eq`: its key is that of the engine.
* `Precedes`: one node before another in the order of a query.
* `insertionSort_perm`, `insertionSort_pairwise`: what sorting does; `arrange_sorted`: the order of a result.
-/

namespace NodeStore.Query

open Engine

/-! ## Values in order -/

/-- The order of values, of which no value is the least. Doubles have no place in it, and values of different kinds are not
in order. -/
def Less : Option Held → Option Held → Prop
  | none, some _ => True
  | some (.number (.int i)), some (.number (.int j)) => i < j
  | some (.label a), some (.label b) => a < b
  | some (.content xs), some (.content ys) => xs < ys
  | _, _ => False

/-- The kinds of values that a field is sorted by. -/
inductive SortKind where
  | integer | label | content

/-- Is the value of that kind? -/
def SortKind.Of : SortKind → Held → Prop
  | integer, .number (.int _) => True
  | label, .label _ => True
  | content, .content _ => True
  | _, _ => False

section

variable {x y z : Option Held}

theorem not_less_none (x : Option Held) : ¬ Less x none := by
  match x with
  | none | some (.number _) | some (.label _) | some (.content _) | some .sketch => simp [Less]

theorem Less.trans (hxy : Less x y) (hyz : Less y z) : Less x z := by
  match x, y, z with
  | none, some _, some _ => trivial
  | some (.number (.int _)), some (.number (.int _)), some (.number (.int _)) => exact Int.lt_trans hxy hyz
  | some (.label _), some (.label _), some (.label _) => exact UInt8.lt_trans hxy hyz
  | some (.content _), some (.content _), some (.content _) => exact List.lt_trans hxy hyz
  | none, some _, none => exact absurd hyz (not_less_none _)

/-- Two values of one kind are in order. -/
theorem less_total {k : SortKind} (hx : ∀ h ∈ x, k.Of h) (hy : ∀ h ∈ y, k.Of h) : x = y ∨ Less x y ∨ Less y x := by
  match x, y with
  | none, none => exact .inl rfl
  | none, some _ => exact .inr (.inl trivial)
  | some _, none => exact .inr (.inr trivial)
  | some a, some b =>
    have ha := hx a rfl
    have hb := hy b rfl
    match k, a, b with
    | .integer, .number (.int i), .number (.int j) =>
      rcases Int.lt_trichotomy i j with h | rfl | h
      exacts [.inr (.inl h), .inl rfl, .inr (.inr h)]
    | .label, .label i, .label j =>
      rcases Std.lt_trichotomy i j with h | rfl | h
      exacts [.inr (.inl h), .inl rfl, .inr (.inr h)]
    | .content, .content xs, .content ys =>
      rcases Std.lt_trichotomy xs ys with h | rfl | h
      exacts [.inr (.inl h), .inl rfl, .inr (.inr h)]

end

/-- The key of a value; sketches are no values to sort by. -/
def Held.key : Option Held → SortKey
  | none => .missing
  | some (.number x) => .number x
  | some (.label b) => .bytes [b]
  | some (.content bs) => .bytes bs
  | some .sketch => .bytes []

theorem compareBytes_of_lt {xs ys : Bytes} (h : xs < ys) :
    SortKey.compareBytes xs ys = .lt ∧ SortKey.compareBytes ys xs = .gt := by
  induction xs generalizing ys with
  | nil =>
    cases ys with
    | nil => exact absurd h (List.lt_irrefl _)
    | cons y ys => exact ⟨rfl, rfl⟩
  | cons x xs ih =>
    cases ys with
    | nil => exact absurd h (List.not_lt_nil _)
    | cons y ys =>
      rw [SortKey.compareBytes, SortKey.compareBytes]
      rcases List.cons_lt_cons_iff.1 h with hxy | ⟨rfl, hrest⟩
      · simp only [if_pos hxy, if_neg (UInt8.lt_asymm hxy), and_self]
      · simp only [if_neg (UInt8.lt_irrefl x)]
        exact ih hrest

theorem compareBytes_self (bs : Bytes) : SortKey.compareBytes bs bs = .eq := by
  induction bs with
  | nil => rfl
  | cons b bs ih => simp only [SortKey.compareBytes, if_neg (UInt8.lt_irrefl b), ih]

/-- The keys are compared as the values are. -/
theorem compare_key {x y : Option Held} (h : Less x y) :
    (Held.key x).compare (Held.key y) = .lt ∧ (Held.key y).compare (Held.key x) = .gt := by
  match x, y with
  | none, some y => cases y <;> exact ⟨rfl, rfl⟩
  | some (.number (.int i)), some (.number (.int j)) => exact ⟨Int.compare_eq_lt.2 h, Int.compare_eq_gt.2 h⟩
  | some (.label a), some (.label b) => exact compareBytes_of_lt (List.cons_lt_cons_iff.2 (.inl h))
  | some (.content xs), some (.content ys) => exact compareBytes_of_lt h

theorem compare_key_self {x : Option Held} {k : SortKind} (h : ∀ y ∈ x, k.Of y) : (Held.key x).compare (Held.key x) = .eq := by
  match x with
  | none => rfl
  | some (.number (.int i)) => exact Int.compare_eq_eq.2 rfl
  | some (.number (.float _)) => cases k <;> exact absurd (h _ rfl) id
  | some (.label _) => exact compareBytes_self _
  | some (.content _) => exact compareBytes_self _
  | some .sketch => rfl

/-! ## Values of nodes -/

/-- The value of a node that it is sorted by: that of the field, and of a text the one in the locale, in the first of its
fallbacks that has one, or in any. -/
def Field.sortValue (schema : SchemaLayout) (locale : UInt8) (id : NodeId) (n : StoredNode) (f : Field) : Option Held :=
  if f.type = .text then
    (sortText schema locale (Engine.textsIn (n.field? f.slot))).map fun s => .content (Utf8.encode s)
  else (f.held Locale.none id n).head?

/-- The field of an order. -/
def SortBy.field? (s : SortBy) (t : TypeLayout) : Option Field :=
  if s.field = "id" ∧ !t.isEdge then some .id else (t.prop? s.field).map .prop

/-- The kind of the values of a field that has an order and holds no doubles. -/
def Field.sortKind (f : Field) : SortKind :=
  match f.type with
  | .boolean | .enum => .label
  | .string | .binary | .alias | .text => .content
  | _ => .integer

section

variable {schema : SchemaLayout} {t : TypeLayout} {f : Field} {locale : UInt8} {id : NodeId} {n : StoredNode}

/-- The field of the main block holds one value, whose key is that of its bytes. -/
theorem sortValue_main {p : PropDef EdgeLayout} (hm : p.Measured) {offset : Nat} (hl : p.location = .main offset)
    (hin : offset + p.len ≤ n.main.length) (hnumber : p.type ≠ .number) :
    ∃ h, (Field.prop p).sortValue schema locale id n = some h ∧ (Field.prop p).sortKind.Of h ∧
      mainKey p.type ((n.main.drop offset).take p.len) = Held.key (some h) := by
  have hmain : p.isMain = true := by simp [PropDef.isMain, hl]
  have hlen : ((n.main.drop offset).take p.len).length = p.len := by
    rw [List.length_take, List.length_drop]
    omega
  have hwidth : p.type.fixedWidth = none → p.type = .string ∨ p.type = .binary := fun h => (hm.short hmain h).1
  have hfixed := hm.fixed
  simp only [Field.sortValue, Field.held, hl, Field.sortKind, Field.type]
  cases hty : p.type <;> rw [hty] at hfixed hwidth
  case text | cardinality | reference | references | «alias» | vector | colvec => exact absurd (hwidth rfl) (by simp)
  case string | binary => exact ⟨_, rfl, trivial, rfl⟩
  case number => exact absurd hty hnumber
  case boolean | enum =>
    obtain ⟨b, hb⟩ := List.length_eq_one_iff.1 (hlen.trans (hfixed 1 rfl).2)
    rw [hb]
    exact ⟨_, rfl, trivial, rfl⟩
  all_goals exact ⟨_, rfl, trivial, rfl⟩

/-- The field of a slot of its own holds a content, if it holds anything. -/
theorem sortValue_separate {p : PropDef EdgeLayout} (hm : p.Measured) (hord : unordered p.type = false) {slot : UInt8}
    (hl : p.location = .separate slot) (hfits : ∀ c, n.field? slot = some c → c.Fits EdgeFits p) :
    (∀ h ∈ (Field.prop p).sortValue schema locale id n, (Field.prop p).sortKind.Of h) ∧
      Held.key ((Field.prop p).sortValue schema locale id n) =
        match n.field? slot with
        | some (.bytes bs) => .bytes bs
        | some (.text entries) =>
          match sortText schema locale entries with
          | some s => .bytes (Utf8.encode s)
          | none => .missing
        | _ => .missing := by
  have hslot : (Field.prop p).slot = slot := by simp [Field.slot, PropDef.slot?, hl]
  have hwidth : p.type.fixedWidth = none := by
    cases hw : p.type.fixedWidth with
    | none => rfl
    | some w =>
      have := (hm.fixed w hw).1
      simp [PropDef.isMain, hl] at this
  have hnone : sortText schema locale [] = none := by simp [sortText, Assoc.find?]
  unfold Field.sortValue
  rw [hslot, Field.type]
  simp only [Field.held, hl]
  cases hf : n.field? slot with
  | none => split <;> simp [Engine.textsIn, heldIn, hnone, Held.key]
  | some c =>
    have hc := hfits c hf
    cases c with
    | bytes bs =>
      have hne : p.type ≠ .text := fun ht => by simp [Content.Fits, ht] at hc
      have hkind : (Field.prop p).sortKind = .content := by
        rcases hc with ht | ht | ht | ⟨ht | ht, -⟩ <;> simp [Field.sortKind, Field.type, ht, unordered] at hord ⊢
      rw [if_neg hne, hkind]
      simp [heldIn, SortKind.Of, Held.key]
    | text entries =>
      have ht : p.type = .text := hc
      have hkind : (Field.prop p).sortKind = .content := by simp [Field.sortKind, Field.type, ht]
      rw [if_pos ht, hkind, Engine.textsIn]
      dsimp only
      cases sortText schema locale entries <;> simp [SortKind.Of, Held.key]
    | sketch hashes => simp [show p.type = .cardinality from hc, unordered] at hord
    | ref l => simp [hc.1, unordered] at hord
    | refs ls => simp [hc.1, unordered] at hord

/-- The values of a field are of one kind. -/
theorem sortValue_kind (schema : SchemaLayout) (locale : UInt8) (id : NodeId) (ht : t.Placed) (hf : f.Of t)
    (hord : unordered f.type = false) (hnumber : f.type ≠ .number)
    (hn : n.Fits EdgeFits t) : ∀ h ∈ f.sortValue schema locale id n, f.sortKind.Of h := by
  cases f with
  | id =>
    intro h hh
    cases hh
    trivial
  | prop p =>
    have hm := ht.measured p hf
    cases hl : p.location with
    | main offset =>
      have hin := ht.inside p hf offset (by simp [PropDef.offset?, hl])
      obtain ⟨h, hvalue, hkind, -⟩ := sortValue_main hm hl (hn.main ▸ hin) hnumber
      intro h' hh
      rw [hvalue] at hh
      cases hh
      exact hkind
    | separate slot =>
      exact (sortValue_separate hm hord hl fun c hc => hn.content ht hf (by simp [PropDef.slot?, hl]) hc).1

/-- The key by a property is that of its value. -/
theorem sortKey_prop (ht : t.Placed) {p : PropDef EdgeLayout} (hp : p ∈ t.props) (hord : unordered p.type = false)
    (hnumber : p.type ≠ .number) (hn : n.Fits EdgeFits t) (descending : Bool) :
    sortKey schema ⟨descending, p.slot?.getD Limits.mainSlot, p.type, p.offset?.getD 0, if p.isMain then p.len else 0,
        if p.type = .text then locale else 0⟩ id n =
      Held.key ((Field.prop p).sortValue schema locale id n) := by
  have hm := ht.measured p hp
  cases hl : p.location with
  | main offset =>
    have hin := ht.inside p hp offset (by simp [PropDef.offset?, hl])
    obtain ⟨h, hvalue, -, hkey⟩ := sortValue_main hm hl (hn.main ▸ hin) hnumber
    rw [hvalue, ← hkey]
    simp only [sortKey, PropDef.slot?, PropDef.offset?, PropDef.isMain, hl, Option.getD_none, Option.getD_some, if_true]
    rw [if_neg (by decide), if_neg (by rw [hn.main]; omega)]
  | separate slot =>
    have hslot : p.slot? = some slot := by simp [PropDef.slot?, hl]
    obtain ⟨hid, hmain⟩ := slot_separate ht hp hslot
    rw [(sortValue_separate hm hord hl fun c hc => hn.content ht hp hslot hc).2]
    simp only [sortKey, hslot, Option.getD_some]
    rw [if_neg hid, if_neg hmain]
    cases hf : n.field? slot with
    | none => rfl
    | some c =>
      cases c with
      | text entries =>
        rewrite [if_pos (show p.type = .text from hn.content ht hp hslot hf)]
        rfl
      | bytes | sketch | ref | refs => rfl

/-- The key of a node is that of its value. -/
theorem sortKey_eq (schema : SchemaLayout) (ht : t.Placed) {s : SortBy} {spec : SortSpec} (hspec : s.spec t locale = .ok spec) :
    spec.descending = s.descending ∧ ∃ f, s.field? t = some f ∧ f.Of t ∧ unordered f.type = false ∧
      (f.type ≠ .number → ∀ id n, n.Fits EdgeFits t →
        sortKey schema spec id n = Held.key (f.sortValue schema locale id n)) := by
  unfold SortBy.spec at hspec
  unfold SortBy.field?
  split at hspec
  · rename_i hid
    cases hspec
    rw [if_pos hid]
    exact ⟨rfl, .id, rfl, trivial, rfl, fun _ id n _ => rfl⟩
  · rename_i hid
    rw [if_neg hid]
    split at hspec
    · cases hspec
    · rename_i p hp
      split at hspec
      · cases hspec
      · rename_i hord
        cases hspec
        have hmem := (Layout.mem_of_prop? hp).1
        have hord := Bool.not_eq_true _ ▸ hord
        exact ⟨rfl, .prop p, by rw [hp]; rfl, hmem, hord, fun hnumber id n hn => sortKey_prop ht hmem hord hnumber hn _⟩

end

/-! ## Nodes in order -/

/-- One node stands before another: by the values of the field that is sorted by, turned around if the order descends, and
by the ids where the values are equal or no order is asked for. -/
def Precedes (schema : SchemaLayout) (t : TypeLayout) (locale : UInt8) (sort : Option SortBy) (a b : Subject) : Prop :=
  match sort with
  | none => a.id < b.id
  | some s =>
    ∃ f, s.field? t = some f ∧
      let x := f.sortValue schema locale a.id a.node
      let y := f.sortValue schema locale b.id b.node
      (if s.descending then Less y x else Less x y) ∨ x = y ∧ a.id < b.id

section

variable {α : Type} {less : α → α → Bool}

theorem insertDown_perm (less : α → α → Bool) (a : α) (as : List α) : (insertDown less a as).Perm (a :: as) := by
  induction as with
  | nil => exact .refl _
  | cons b bs ih =>
    rw [insertDown]
    split
    · exact (ih.cons b).trans (.swap a b bs)
    · exact .refl _

/-- Sorting keeps the entries. -/
theorem insertionSort_perm (less : α → α → Bool) (as : List α) : (insertionSort less as).Perm as := by
  suffices hgo : ∀ sorted, (as.foldl (fun sorted a => insertDown less a sorted) sorted).Perm (as ++ sorted) by
    have := (List.reverse_perm _).trans (hgo [])
    rwa [List.append_nil] at this
  induction as with
  | nil => exact fun _ => .refl _
  | cons a as ih => exact fun sorted => (ih _).trans (((insertDown_perm less a sorted).append_left as).trans List.perm_middle)

/-- Sorting puts the entries in an order, if all of them have a place in it and `less` tells which is less. -/
theorem insertionSort_pairwise {R : α → α → Prop} (htrans : ∀ a b c, R a b → R b c → R a c) {as : List α}
    (hless : ∀ a ∈ as, ∀ b ∈ as, less a b = true ↔ R a b) (htotal : as.Pairwise fun a b => R a b ∨ R b a) :
    (insertionSort less as).Pairwise R := by
  have hinsert : ∀ a bs, (∀ b ∈ bs, (less a b = true ↔ R a b) ∧ (R a b ∨ R b a)) → bs.Pairwise (fun x y => R y x) →
      (insertDown less a bs).Pairwise fun x y => R y x := by
    intro a bs hbs hsorted
    induction bs with
    | nil => exact List.pairwise_singleton ..
    | cons b bs ih =>
      obtain ⟨hb, hrest⟩ := List.pairwise_cons.1 hsorted
      obtain ⟨hiff, hor⟩ := hbs b List.mem_cons_self
      rw [insertDown]
      split
      · rename_i hlt
        refine List.pairwise_cons.2 ⟨fun y hy => ?_, ih (fun c hc => hbs c (List.mem_cons_of_mem _ hc)) hrest⟩
        rcases List.mem_cons.1 ((insertDown_perm less a bs).mem_iff.1 hy) with rfl | hy
        exacts [hiff.1 hlt, hb y hy]
      · rename_i hlt
        have hba : R b a := hor.resolve_left fun h => hlt (hiff.2 h)
        refine List.pairwise_cons.2 ⟨fun y hy => ?_, hsorted⟩
        rcases List.mem_cons.1 hy with rfl | hy
        exacts [hba, htrans _ _ _ (hb y hy) hba]
  suffices hgo : ∀ front rest sorted, front ++ rest = as → sorted.Perm front → sorted.Pairwise (fun x y => R y x) →
      (rest.foldl (fun sorted a => insertDown less a sorted) sorted).Pairwise fun x y => R y x by
    exact List.pairwise_reverse.2 (hgo [] as [] rfl (.refl _) .nil)
  intro front rest
  induction rest generalizing front with
  | nil => exact fun _ _ _ h => h
  | cons a rest ih =>
    intro sorted has hperm hsorted
    refine ih (front ++ [a]) _ (by simpa using has) ?_ (hinsert a sorted (fun b hb => ?_) hsorted)
    · exact (insertDown_perm less a sorted).trans ((hperm.cons a).trans (List.perm_append_singleton a front).symm)
    · have hb := hperm.mem_iff.1 hb
      subst has
      obtain ⟨-, -, hcross⟩ := List.pairwise_append.1 htotal
      exact ⟨hless a (by simp) b (by simp [hb]), (hcross b hb a List.mem_cons_self).symm⟩

end

section

variable {schema : SchemaLayout} {t : TypeLayout} {locale : UInt8}

theorem sortSubjects_perm (schema : SchemaLayout) (spec : SortSpec) (ss : List Subject) :
    (sortSubjects schema spec ss).Perm ss := by
  simpa [sortSubjects, Function.comp_def] using
    (insertionSort_perm (before spec.descending) (ss.map fun s => (sortKey schema spec s.id s.node, s))).map (·.2)

/-- A result is a part of what was found, in some order. -/
theorem arrange_subperm (schema : SchemaLayout) (spec : Option SortSpec) (range : Range) (ss : List Subject) :
    (arrange schema spec (some range) ss).Subperm ss := by
  have hslice : ∀ sorted : List Subject, (range.slice sorted).Sublist sorted := fun _ =>
    (List.take_sublist _ _).trans (List.drop_sublist _ _)
  cases spec with
  | none => exact (hslice ss).subperm
  | some spec => exact (hslice _).subperm.trans (sortSubjects_perm schema spec ss).subperm

theorem arrange_subset (schema : SchemaLayout) (spec : Option SortSpec) (range : Range) (ss : List Subject) :
    arrange schema spec (some range) ss ⊆ ss := (arrange_subperm schema spec range ss).subset

theorem Precedes.trans {sort : Option SortBy} {a b c : Subject} (hab : Precedes schema t locale sort a b)
    (hbc : Precedes schema t locale sort b c) : Precedes schema t locale sort a c := by
  cases sort with
  | none => exact UInt32.lt_trans hab hbc
  | some s =>
    obtain ⟨f, hf, hab⟩ := hab
    obtain ⟨f', hf', hbc⟩ := hbc
    obtain rfl : f = f' := Option.some.inj (hf.symm.trans hf')
    refine ⟨f, hf, ?_⟩
    dsimp only at hab hbc ⊢
    rcases hab with hab | ⟨hab, hid⟩ <;> rcases hbc with hbc | ⟨hbc, hid'⟩
    · left
      split at hab <;> rename_i hdesc <;> simp only [hdesc, if_true, if_false, Bool.false_eq_true] at hab hbc ⊢
      exacts [hbc.trans hab, hab.trans hbc]
    · exact .inl (hbc ▸ hab)
    · exact .inl (hab ▸ hbc)
    · exact .inr ⟨hab.trans hbc, UInt32.lt_trans hid hid'⟩

/-- The engine's test is that of the order. -/
theorem before_iff {k : SortKind} {x y : Option Held} (hx : ∀ h ∈ x, k.Of h) (hy : ∀ h ∈ y, k.Of h) (descending : Bool)
    (a b : Subject) : before descending (Held.key x, a) (Held.key y, b) = true ↔
      (if descending then Less y x else Less x y) ∨ x = y ∧ a.id < b.id := by
  have hirrefl : ∀ z : Option Held, ¬ Less z z := fun z h => by
    obtain ⟨hlt, hgt⟩ := compare_key h
    rw [hlt] at hgt
    cases hgt
  have hne : ∀ {x y : Option Held}, Less x y → x ≠ y ∧ ¬ Less y x := fun h =>
    ⟨fun he => hirrefl _ (he ▸ h), fun h' => hirrefl _ (h.trans h')⟩
  unfold before
  rcases less_total hx hy with rfl | h | h
  · cases descending <;> simp [compare_key_self hx, hirrefl]
  · obtain ⟨heq, hgt⟩ := hne h
    cases descending <;> simp [(compare_key h).1, heq, hgt, h]
  · obtain ⟨heq, hlt⟩ := hne h
    cases descending <;> simp [(compare_key h).2, heq.symm, hlt, h]

theorem precedes_total {s : SortBy} {f : Field} (hf : s.field? t = some f) {a b : Subject}
    (h : f.sortValue schema locale a.id a.node = f.sortValue schema locale b.id b.node ∨
      Less (f.sortValue schema locale a.id a.node) (f.sortValue schema locale b.id b.node) ∨
        Less (f.sortValue schema locale b.id b.node) (f.sortValue schema locale a.id a.node)) (hid : a.id < b.id) :
    Precedes schema t locale (some s) a b ∨ Precedes schema t locale (some s) b a := by
  rcases h with h | h | h
  · exact .inl ⟨f, hf, .inr ⟨h, hid⟩⟩
  · cases hdesc : s.descending
    · exact .inl ⟨f, hf, .inl (by simpa [hdesc] using h)⟩
    · exact .inr ⟨f, hf, .inl (by simpa [hdesc] using h)⟩
  · cases hdesc : s.descending
    · exact .inr ⟨f, hf, .inl (by simpa [hdesc] using h)⟩
    · exact .inl ⟨f, hf, .inl (by simpa [hdesc] using h)⟩

/-- A result is sorted, whatever part of it is asked for. -/
theorem arrange_sorted (ht : t.Placed) {sort : Option SortBy} {spec : Option SortSpec}
    (hspec : sortSpec? sort t locale = .ok spec) (hnumber : ∀ s ∈ sort, ∀ f, s.field? t = some f → f.type ≠ .number)
    {ss : List Subject} (hfits : ∀ x ∈ ss, x.node.Fits EdgeFits t) (hids : ss.Pairwise fun a b => a.id < b.id) :
    ∃ sorted : List Subject, sorted.Perm ss ∧ sorted.Pairwise (Precedes schema t locale sort) ∧
      ∀ range, arrange schema spec (some range) ss = range.slice sorted := by
  cases sort with
  | none =>
    cases hspec
    exact ⟨ss, .refl _, hids, fun _ => rfl⟩
  | some s =>
    obtain ⟨spec, hs, rfl⟩ := Except.map_eq_ok.1 hspec
    obtain ⟨hdesc, f, hf, hof, hord, hkey⟩ := sortKey_eq schema ht hs
    have hkey := hkey (hnumber s rfl f hf)
    have hkind := fun x hx => sortValue_kind schema locale x.id ht hof hord (hnumber s rfl f hf) (hfits x hx)
    have hless : ∀ a ∈ ss, ∀ b ∈ ss,
        before spec.descending (sortKey schema spec a.id a.node, a) (sortKey schema spec b.id b.node, b) = true ↔
          Precedes schema t locale (some s) a b := fun a ha b hb => by
      rw [hkey _ _ (hfits a ha), hkey _ _ (hfits b hb), before_iff (hkind a ha) (hkind b hb), hdesc, Precedes]
      exact ⟨fun h => ⟨f, hf, h⟩, fun ⟨f', hf', h⟩ => Option.some.inj (hf.symm.trans hf') ▸ h⟩
    refine ⟨sortSubjects schema spec ss, ?_, ?_, fun _ => rfl⟩
    · exact sortSubjects_perm schema spec ss
    · refine List.pairwise_map.2 (insertionSort_pairwise
        (R := fun (a b : SortKey × Subject) => Precedes schema t locale (some s) a.2 b.2) (fun _ _ _ => Precedes.trans) (fun a ha b hb => ?_) ?_)
      · obtain ⟨x, hx, rfl⟩ := List.mem_map.1 ha
        obtain ⟨y, hy, rfl⟩ := List.mem_map.1 hb
        exact hless x hx y hy
      · refine List.pairwise_map.2 (hids.imp_of_mem fun {a b} ha hb hlt => ?_)
        exact precedes_total hf (less_total (hkind a ha) (hkind b hb)) hlt

end

end NodeStore.Query
