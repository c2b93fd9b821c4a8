import NodeStore.Proofs.Codec.MainBlock
import NodeStore.Proofs.Schema.WellFormed

/-!
# Reading descriptions of schemas back

A description puts its parts one behind the other, and most of them say nothing of where they end. What a part can be
followed by tells its end all the same, once its strings are short.

* `Layout.outline`: what the description of a layout is made from.
* `Follows`: what can stand behind a separate property; `FollowsMain` is the same for a main one.
* `labels_unique`, `main_unique`, `separate_unique`: a run of parts ends where what follows it starts.
* `describe_unique`: the description of a layout gives its outline, whatever follows it.
-/

namespace NodeStore

/-! ### Outlines -/

/-- What the description of a property is made from, over the outlines `L` of what its links store. -/
structure PropOutline (L : Type) where
  name : String
  type : PropType
  location : Location
  len : Nat
  labels : List String
  target : Option TypeId
  edges : Option L

/-- What the description of a layout is made from. -/
structure LayoutOutline (L : Type) where
  id : TypeId
  name : String
  mainLen : Nat
  props : List (PropOutline L)

variable {E L : Type}

def PropDef.outline (f : E → L) (p : PropDef E) : PropOutline L :=
  ⟨p.name, p.type, p.location, p.len, p.enumValues, p.target.map (·.id), p.edges.map f⟩

def Layout.outline (f : E → L) (t : Layout E) : LayoutOutline L := ⟨t.id, t.name, t.mainLen, t.props.map (PropDef.outline f)⟩

/-- The outline of what links store. -/
def EdgeLayout.outline (t : EdgeLayout) : LayoutOutline Empty := Layout.outline id t

/-- The outline of a type with all that its links store. -/
def TypeLayout.outline (t : TypeLayout) : LayoutOutline (LayoutOutline Empty) := Layout.outline EdgeLayout.outline t

/-! ### Numbers and strings -/

theorem leBytes_append_inj {w m n : Nat} {X Y : Bytes} (hm : m < 256 ^ w) (hn : n < 256 ^ w)
    (h : leBytes w m ++ X = leBytes w n ++ Y) : m = n ∧ X = Y := by
  obtain ⟨hbytes, hrest⟩ := List.append_inj h (by simp)
  exact ⟨by rw [← leNat_leBytes_of_lt hm, hbytes, leNat_leBytes_of_lt hn], hrest⟩

/-- Is the string shorter than 64 KiB? Two bytes of its length are zero then. -/
def IsShort (s : String) : Prop := Utf8.size s < 256 ^ 2

instance (s : String) : Decidable (IsShort s) := inferInstanceAs (Decidable (_ < _))

variable {s s' : String} {X Y : Bytes}

theorem describeString_append_inj (hs : IsShort s) (hs' : IsShort s') (h : describeString s ++ X = describeString s' ++ Y) :
    s = s' ∧ X = Y := by
  have hwide : (256 : Nat) ^ 2 ≤ 256 ^ 4 := by decide
  rw [describeString, describeString, List.append_assoc, List.append_assoc] at h
  obtain ⟨hlen, h⟩ := leBytes_append_inj (Nat.lt_of_lt_of_le hs hwide) (Nat.lt_of_lt_of_le hs' hwide) h
  obtain ⟨hbytes, hrest⟩ := List.append_inj h (by rw [Utf8.length_encode, Utf8.length_encode, hlen])
  exact ⟨Option.some.inj (by rw [← Utf8.decode?_encode, hbytes, Utf8.decode?_encode]), hrest⟩

/-- Two bytes show that a number of two bytes is not zero. -/
theorem ofNat_ne_zero {n : Nat} (h : n < 256 ^ 2) (hn : n ≠ 0) : UInt8.ofNat n ≠ 0 ∨ UInt8.ofNat (n / 256) ≠ 0 := by
  by_contra hzero
  rw [not_or, not_not, not_not] at hzero
  have hlow := congrArg UInt8.toNat hzero.1
  have hhigh := congrArg UInt8.toNat hzero.2
  rw [UInt8.toNat_ofNat'] at hlow hhigh
  simp only [UInt8.toNat_zero] at hlow hhigh
  omega

theorem leBytes_short {n : Nat} (h : n < 256 ^ 2) :
    ∃ a b : UInt8, leBytes 4 n = [a, b, 0, 0] ∧ (n ≠ 0 → a ≠ 0 ∨ b ≠ 0) := by
  refine ⟨UInt8.ofNat n, UInt8.ofNat (n / 256), ?_, ofNat_ne_zero h⟩
  have hhigh : n / 256 / 256 = 0 := by omega
  simp only [leBytes, hhigh, Nat.zero_div]
  rfl

theorem describeString_short (hs : IsShort s) : ∃ a b, describeString s = a :: b :: 0 :: 0 :: Utf8.encode s ∧
    (s ≠ "" → a ≠ 0 ∨ b ≠ 0) := by
  obtain ⟨a, b, hbytes, hne⟩ := leBytes_short hs
  refine ⟨a, b, by rw [describeString, hbytes]; rfl, fun h => hne fun hsize => h ?_⟩
  exact String.utf8ByteSize_eq_zero_iff.1 hsize

/-- Bytes that can start with a short string. -/
def StartsShort (X : Bytes) : Prop := ∃ a b Y, X = a :: b :: 0 :: 0 :: Y

theorem startsShort_describeString (hs : IsShort s) : StartsShort (describeString s ++ X) := by
  obtain ⟨a, b, heq, -⟩ := describeString_short hs
  exact ⟨a, b, Utf8.encode s ++ X, by rw [heq]; rfl⟩

/-! ### What follows a property -/

/-- What can stand behind a separate property: nothing, a type, or a property in one of the slots of `next`. The number in the
bytes behind the slot is less than 2²⁴. -/
inductive Follows (next : Nat → Prop) : Bytes → Prop where
  | done : Follows next []
  | type {c d a b : UInt8} {X : Bytes} (hid : c ≠ 0 ∨ d ≠ 0) (hname : a ≠ 0 ∨ b ≠ 0) (hhead : X.head? ≠ some 0) :
      Follows next (c :: d :: a :: b :: 0 :: 0 :: X)
  | prop {s : String} {tag slot x y z : UInt8} {X : Bytes} (hs : IsShort s) (hslot : slot ≠ 0) (hnext : next slot.toNat) :
      Follows next (describeString s ++ tag :: 1 :: slot :: x :: y :: z :: 0 :: X)

/-- What can stand behind a main property that is not the last one: a main property whose offset is not zero. -/
inductive FollowsMain : Bytes → Prop where
  | prop {s : String} {tag x y : UInt8} {X : Bytes} (hs : IsShort s) (hoffset : x ≠ 0 ∨ y ≠ 0) :
      FollowsMain (describeString s ++ tag :: 0 :: x :: y :: X)

variable {next : Nat → Prop}

theorem Follows.mono {next' : Nat → Prop} (h : Follows next X) (himp : ∀ n, next n → next' n) : Follows next' X := by
  cases h with
  | done => exact .done
  | type hid hname hhead => exact .type hid hname hhead
  | prop hs hslot hnext => exact .prop hs hslot (himp _ hnext)

/-- Where a string starts what follows, it is the name of a property in one of the slots. -/
theorem Follows.of_string (hs : IsShort s) (h : Follows next (describeString s ++ Y)) :
    ∃ tag slot x y z X, Y = tag :: 1 :: slot :: x :: y :: z :: 0 :: X ∧ slot ≠ 0 ∧ next slot.toNat := by
  generalize hZ : describeString s ++ Y = Z at h
  cases h with
  | done =>
    obtain ⟨a, b, heq, -⟩ := describeString_short hs
    rw [heq] at hZ
    cases hZ
  | type hid hname hhead =>
    obtain ⟨a, b, heq, -⟩ := describeString_short hs
    rw [heq] at hZ
    simp only [List.cons_append, List.cons.injEq] at hZ
    obtain ⟨-, -, rfl, rfl, -⟩ := hZ
    simp at hname
  | prop hs' hslot hnext => exact ⟨_, _, _, _, _, _, (describeString_append_inj hs hs' hZ).2, hslot, hnext⟩

/-- Nothing that follows starts with the id of links. -/
theorem Follows.not_edges {c d : UInt8} (hname : c ≠ 0 ∨ d ≠ 0) : ¬Follows next (0 :: 0 :: c :: d :: Y) := fun h => by
  generalize hZ : 0 :: 0 :: c :: d :: Y = Z at h
  cases h with
  | done => cases hZ
  | type hid =>
    cases hZ
    simp at hid
  | prop hs =>
    obtain ⟨a, b, heq, -⟩ := describeString_short hs
    rw [heq] at hZ
    cases hZ
    simp at hname

/-- What follows a property has no more than one reading as a string and something that follows. -/
structure Ends (P : Bytes → Prop) : Prop where
  /-- No string stands behind the name of a property. -/
  short : ∀ {s Y}, IsShort s → P (describeString s ++ Y) → ¬StartsShort Y
  /-- No property stands there either. -/
  again : ∀ {s Y}, IsShort s → P (describeString s ++ Y) → ¬P Y

theorem follows_ends : Ends (Follows next) := by
  have hshort : ∀ {s Y}, IsShort s → Follows next (describeString s ++ Y) → ¬StartsShort Y := by
    rintro s Y hs h ⟨a, b, Y', rfl⟩
    obtain ⟨tag, slot, x, y, z, X, heq, hslot, -⟩ := h.of_string hs
    cases heq
    exact hslot rfl
  refine ⟨hshort, fun {s Y} hs h h' => ?_⟩
  obtain ⟨tag, slot, x, y, z, X, rfl, hslot, -⟩ := h.of_string hs
  generalize hZ : tag :: 1 :: slot :: x :: y :: z :: 0 :: X = Z at h'
  cases h' with
  | done => cases hZ
  | type hid hname hhead =>
    -- The high byte of a length is zero, and the name of a type does not start with such a byte.
    cases hZ
    exact hhead rfl
  | prop hs' => exact hshort hs h (hZ ▸ startsShort_describeString hs')

theorem followsMain_ends : Ends FollowsMain := by
  have hshort : ∀ {s Y}, IsShort s → FollowsMain (describeString s ++ Y) → ¬StartsShort Y := by
    rintro s Y hs h ⟨a, b, Y', rfl⟩
    generalize hZ : describeString s ++ a :: b :: 0 :: 0 :: Y' = Z at h
    obtain ⟨hs', hoffset⟩ := h
    cases (describeString_append_inj hs hs' hZ).2
    simp at hoffset
  refine ⟨hshort, fun {s Y} hs h h' => hshort hs h ?_⟩
  cases h' with
  | prop hs' => exact startsShort_describeString hs'

/-- Labels end where what follows the property starts. -/
theorem labels_unique {P : Bytes → Prop} (hends : Ends P) {ls ms : List String} (hls : ∀ l ∈ ls, IsShort l)
    (hms : ∀ m ∈ ms, IsShort m) (hX : P X) (hY : P Y)
    (h : ls.flatMap describeString ++ X = ms.flatMap describeString ++ Y) : ls = ms ∧ X = Y := by
  have hone : ∀ {l : String} {ls : List String} {X : Bytes}, (∀ m ∈ l :: ls, IsShort m) →
      P ((l :: ls).flatMap describeString ++ X) → ¬P X := fun {l ls X} hls h hX => by
    rw [List.flatMap_cons, List.append_assoc] at h
    cases ls with
    | nil => exact hends.again (hls l List.mem_cons_self) h hX
    | cons m ls =>
      refine hends.short (hls l List.mem_cons_self) h ?_
      rw [List.flatMap_cons, List.append_assoc]
      exact startsShort_describeString (hls m (List.mem_cons_of_mem _ List.mem_cons_self))
  induction ls generalizing ms with
  | nil =>
    cases ms with
    | nil => exact ⟨rfl, h⟩
    | cons m ms => exact absurd hY (hone hms (h ▸ hX))
  | cons l ls ih =>
    cases ms with
    | nil => exact absurd hX (hone hls (h ▸ hY))
    | cons m ms =>
      rw [List.flatMap_cons, List.flatMap_cons, List.append_assoc, List.append_assoc] at h
      obtain ⟨hl, hrest⟩ := describeString_append_inj (hls l List.mem_cons_self) (hms m List.mem_cons_self) h
      obtain ⟨hls', hX'⟩ := ih (fun a ha => hls a (List.mem_cons_of_mem _ ha)) (fun a ha => hms a (List.mem_cons_of_mem _ ha)) hrest
      exact ⟨by rw [hl, hls'], hX'⟩

/-! ### Properties -/

/-- The strings of a property can be told from what stands behind them. -/
structure PropDef.Legible (p : PropDef E) : Prop where
  name : IsShort p.name
  labels : ∀ l ∈ p.enumValues, IsShort l
  /-- A reference has no labels; they would stand where its target does. -/
  plain : p.type.isReference = true → p.enumValues = []

/-- What a description needs of a property to be read back; `Ok` is what it needs of what the links of a property in a slot
store. -/
structure PropDef.Readable (Ok : Nat → E → Prop) (p : PropDef E) : Prop extends p.Legible where
  measured : p.Measured
  len : p.len < 256 ^ 3
  stored : ∀ slot e, p.location = .separate slot → p.edges = some e → Ok slot.toNat e

/-- The part of the description of a property that says how long it is in no other way than by what follows. -/
def PropDef.details (edges : E → Bytes) (p : PropDef E) : Bytes :=
  p.enumValues.flatMap describeString ++ (p.target.elim [] fun t => leBytes 2 t.id.toNat) ++ p.edges.elim [] edges

variable {edges : E → Bytes} {f : E → L} {Ok : Nat → E → Prop} {p q : PropDef E}

theorem describe_append (edges : E → Bytes) (p : PropDef E) (X : Bytes) : p.describe edges ++ X =
    describeString p.name ++ p.type.tag :: (p.location.describe ++ (leBytes 4 p.len ++ (p.details edges ++ X))) := by
  rw [PropDef.describe, PropDef.details]
  cases p.target <;> cases p.edges <;> simp

theorem PropType.tag_inj {t u : PropType} (h : t.tag = u.tag) : t = u := by
  have hof := PropType.ofTag?_tag t
  rw [h, PropType.ofTag?_tag] at hof
  exact (Option.some.inj hof).symm

theorem PropDef.Readable.len_lt (h : p.Readable Ok) : p.len < 256 ^ 4 := Nat.lt_trans h.len (by decide)

/-- The fields of fixed width are read back, and what stands behind them is left. -/
theorem header_unique (hp : p.Readable Ok) (hq : q.Readable Ok)
    (h : p.describe edges ++ X = q.describe edges ++ Y) (hpl : p.location.describe.length = q.location.describe.length) :
    p.name = q.name ∧ p.type = q.type ∧ p.location.describe = q.location.describe ∧ p.len = q.len ∧
      p.details edges ++ X = q.details edges ++ Y := by
  rw [describe_append, describe_append] at h
  obtain ⟨hname, h⟩ := describeString_append_inj hp.name hq.name h
  obtain ⟨htag, h⟩ := List.cons.inj h
  obtain ⟨hplace, h⟩ := List.append_inj h hpl
  obtain ⟨hlen, h⟩ := leBytes_append_inj hp.len_lt hq.len_lt h
  exact ⟨hname, PropType.tag_inj htag, hplace, hlen, h⟩

theorem PropDef.location_of_offset? {offset : Nat} (h : p.offset? = some offset) : p.location = .main offset := by
  cases hl : p.location <;> simp [PropDef.offset?, hl] at h
  rw [h]

theorem details_of_value (edges : E → Bytes) (hp : p.Readable Ok) (h : p.type.isReference = false) :
    p.details edges = p.enumValues.flatMap describeString ∧ p.target = none ∧ p.edges = none := by
  have htarget : p.target = none := by simpa [h] using hp.measured.target
  have hedges : p.edges = none := Option.not_isSome_iff_eq_none.1 fun he => by simp [hp.measured.edges he] at h
  exact ⟨by rw [PropDef.details, htarget, hedges, Option.elim_none, Option.elim_none, List.append_nil, List.append_nil], htarget,
    hedges⟩

theorem not_isReference_of_isMain (hp : p.Readable Ok) (h : p.isMain = true) : p.type.isReference = false := by
  rw [← Bool.not_eq_true]
  intro hr
  obtain ⟨slot, hslot⟩ := hp.measured.slot_of_reference hr
  rw [PropDef.slot?_of_isMain h] at hslot
  cases hslot

/-! ### Main properties -/

theorem Tiles.lt {offset stop : Nat} {ps : List (PropDef E)} (hps : ∀ p ∈ ps, p.Measured) (h : Tiles offset stop ps)
    (hne : ps ≠ []) : offset < stop := by
  induction ps generalizing offset with
  | nil => exact absurd rfl hne
  | cons p ps ih =>
    have hmain : p.isMain = true := by rw [PropDef.isMain, PropDef.location_of_offset? h.1]
    have hpos := (hps p List.mem_cons_self).len_pos hmain
    cases ps with
    | nil => exact Nat.lt_of_lt_of_eq (by omega) h.2
    | cons q qs => exact Nat.lt_trans (by omega) (ih (fun r hr => hps r (List.mem_cons_of_mem _ hr)) h.2 (List.cons_ne_nil _ _))

theorem followsMain_of_tiles {offset stop : Nat} {ps : List (PropDef E)} (hps : ∀ p ∈ ps, p.Readable Ok)
    (h : Tiles offset stop ps) (hne : ps ≠ []) (hpos : 0 < offset) (hlt : stop ≤ Limits.maxMainLength) :
    FollowsMain (ps.flatMap (PropDef.describe edges) ++ X) := by
  have hstop := h.lt (fun p hp => (hps p hp).measured) hne
  cases ps with
  | nil => exact absurd rfl hne
  | cons p ps =>
    obtain ⟨a, b, hbytes, hzero⟩ := leBytes_short (n := offset) (Nat.lt_trans hstop (Nat.lt_of_le_of_lt hlt (by decide)))
    rw [List.flatMap_cons, List.append_assoc, describe_append, PropDef.location_of_offset? h.1, Location.describe, hbytes]
    exact .prop (hps p List.mem_cons_self).name (hzero (by omega))

/-- Main properties end where the main block does. -/
theorem main_unique {next : Nat → Prop} {ps qs : List (PropDef E)} {offset stop : Nat} (hps : ∀ p ∈ ps, p.Readable Ok)
    (hqs : ∀ q ∈ qs, q.Readable Ok) (hp : Tiles offset stop ps) (hq : Tiles offset stop qs) (hstop : stop ≤ Limits.maxMainLength)
    (hX : Follows next X) (hY : Follows next Y)
    (h : ps.flatMap (PropDef.describe edges) ++ X = qs.flatMap (PropDef.describe edges) ++ Y) :
    ps.map (PropDef.outline f) = qs.map (PropDef.outline f) ∧ X = Y := by
  induction ps generalizing offset qs with
  | nil =>
    cases qs with
    | nil => exact ⟨rfl, h⟩
    | cons q qs =>
      have hlt := hq.lt (fun r hr => (hqs r hr).measured) nofun
      exact absurd hp (Nat.ne_of_lt hlt)
  | cons p ps ih =>
    cases qs with
    | nil =>
      have hlt := hp.lt (fun r hr => (hps r hr).measured) nofun
      exact absurd hq (Nat.ne_of_lt hlt)
    | cons q qs =>
      obtain ⟨hps0, hps'⟩ := List.forall_mem_cons.1 hps
      obtain ⟨hqs0, hqs'⟩ := List.forall_mem_cons.1 hqs
      have hpl := PropDef.location_of_offset? hp.1
      have hql := PropDef.location_of_offset? hq.1
      have hpm : p.isMain = true := by rw [PropDef.isMain, hpl]
      have hqm : q.isMain = true := by rw [PropDef.isMain, hql]
      rw [List.flatMap_cons, List.flatMap_cons, List.append_assoc, List.append_assoc] at h
      obtain ⟨hname, htype, -, hlen, h⟩ := header_unique hps0 hqs0 h (by rw [hpl, hql])
      obtain ⟨hpd, hpt, hpe⟩ := details_of_value edges hps0 (not_isReference_of_isMain hps0 hpm)
      obtain ⟨hqd, hqt, hqe⟩ := details_of_value edges hqs0 (not_isReference_of_isMain hqs0 hqm)
      rw [hpd, hqd] at h
      have hq2 : Tiles (offset + p.len) stop qs := hlen ▸ hq.2
      -- Either both are the last main property, or none of them is.
      have hrest : p.enumValues = q.enumValues ∧
          ps.flatMap (PropDef.describe edges) ++ X = qs.flatMap (PropDef.describe edges) ++ Y := by
        by_cases hend : offset + p.len = stop
        · have hnil : ∀ {rs : List (PropDef E)}, (∀ r ∈ rs, r.Readable Ok) → Tiles (offset + p.len) stop rs → rs = [] :=
            fun {rs} hrs ht => by
              by_contra hne
              exact absurd hend (Nat.ne_of_lt (ht.lt (fun r hr => (hrs r hr).measured) hne))
          obtain rfl := hnil hps' hp.2
          obtain rfl := hnil hqs' hq2
          exact labels_unique follows_ends hps0.labels hqs0.labels hX hY h
        · have hpos := hps0.measured.len_pos hpm
          have hmore : ∀ {rs : List (PropDef E)} {Z : Bytes}, (∀ r ∈ rs, r.Readable Ok) → Tiles (offset + p.len) stop rs →
              FollowsMain (rs.flatMap (PropDef.describe edges) ++ Z) := fun {rs Z} hrs ht =>
            followsMain_of_tiles hrs ht (fun hnil => hend (by rw [hnil] at ht; exact ht)) (by omega) hstop
          exact labels_unique followsMain_ends hps0.labels hqs0.labels (hmore hps' hp.2) (hmore hqs' hq2) h
      obtain ⟨hmap, hXY⟩ := ih hps' hqs' hp.2 hq2 hrest.2
      refine ⟨?_, hXY⟩
      rw [List.map_cons, List.map_cons, hmap, PropDef.outline, PropDef.outline, hname, htype, hpl, hql, hlen, hrest.1, hpt, hqt,
        hpe, hqe]

/-! ### Separate properties -/

/-- Separate properties with consecutive slots from `slot` on. -/
def Numbered : Nat → List (PropDef E) → Prop
  | _, [] => True
  | slot, p :: ps => (∃ s, p.location = .separate s ∧ s.toNat = slot) ∧ Numbered (slot + 1) ps

/-- Descriptions of what links store can be read back: they do not start like anything that follows a property, and they end
where the next property of its slot or what follows the last one starts. -/
structure ReadsBack (edges : E → Bytes) (f : E → L) (Ok : Nat → E → Prop) (next : Nat → Prop) : Prop where
  start : ∀ {slot e}, Ok slot e → ∃ c d Y, edges e = 0 :: 0 :: c :: d :: Y ∧ (c ≠ 0 ∨ d ≠ 0)
  unique : ∀ {slot e e' X Y}, Ok slot e → Ok slot e' → Follows (fun n => n = slot + 1 ∨ next n) X →
    Follows (fun n => n = slot + 1 ∨ next n) Y → edges e ++ X = edges e' ++ Y → f e = f e' ∧ X = Y

variable {next : Nat → Prop}

theorem follows_numbered {ps : List (PropDef E)} {slot : Nat} (hslot : 0 < slot) (hps : ∀ p ∈ ps, p.Readable Ok)
    (hn : Numbered slot ps) (hX : Follows next X) :
    Follows (fun n => n = slot ∨ next n) (ps.flatMap (PropDef.describe edges) ++ X) := by
  cases ps with
  | nil => exact hX.mono fun _ h => .inr h
  | cons p ps =>
    obtain ⟨hps0, -⟩ := List.forall_mem_cons.1 hps
    obtain ⟨s, hs, hnat⟩ := hn.1
    have hlen : leBytes 4 p.len = [UInt8.ofNat p.len, UInt8.ofNat (p.len / 256), UInt8.ofNat (p.len / 256 / 256), 0] := by
      have hhigh : p.len / 256 / 256 / 256 = 0 := by
        have := hps0.len
        omega
      simp only [leBytes, hhigh]
      rfl
    have hne : s ≠ 0 := fun hzero => by
      rw [hzero] at hnat
      exact absurd hnat (Nat.ne_of_lt hslot)
    rw [List.flatMap_cons, List.append_assoc, describe_append, hs, Location.describe, hlen]
    exact .prop hps0.name hne (.inl hnat)

/-- The ends of what links store, and those of what references lead to, are where the next part starts. -/
theorem details_unique (hr : ReadsBack edges f Ok next) (hp : p.Readable Ok) (hq : q.Readable Ok) (htype : p.type = q.type)
    {slot : UInt8} (hps : p.location = .separate slot) (hqs : q.location = .separate slot)
    (hX : Follows (fun n => n = slot.toNat + 1 ∨ next n) X) (hY : Follows (fun n => n = slot.toNat + 1 ∨ next n) Y)
    (h : p.details edges ++ X = q.details edges ++ Y) :
    p.enumValues = q.enumValues ∧ p.target.map (·.id) = q.target.map (·.id) ∧ p.edges.map f = q.edges.map f ∧ X = Y := by
  cases href : p.type.isReference with
  | false =>
    obtain ⟨hpd, hpt, hpe⟩ := details_of_value edges hp href
    obtain ⟨hqd, hqt, hqe⟩ := details_of_value edges hq (htype ▸ href)
    rw [hpd, hqd] at h
    obtain ⟨hlabels, hXY⟩ := labels_unique follows_ends hp.labels hq.labels hX hY h
    exact ⟨hlabels, by rw [hpt, hqt], by rw [hpe, hqe], hXY⟩
  | true =>
    have href' : q.type.isReference = true := htype ▸ href
    obtain ⟨r, hpt⟩ := Option.isSome_iff_exists.1 (hp.measured.target.trans href)
    obtain ⟨r', hqt⟩ := Option.isSome_iff_exists.1 (hq.measured.target.trans href')
    rw [PropDef.details, PropDef.details, hp.plain href, hq.plain href', hpt, hqt] at h
    simp only [List.flatMap_nil, List.nil_append, List.append_assoc] at h
    obtain ⟨hid, h⟩ := leBytes_append_inj r.id.toNat_lt r'.id.toNat_lt h
    refine ⟨by rw [hp.plain href, hq.plain href'], by rw [hpt, hqt]; exact congrArg some (UInt16.toNat.inj hid), ?_⟩
    cases hpe : p.edges <;> cases hqe : q.edges <;> rw [hpe, hqe] at h <;> simp only [Option.elim_none, Option.elim_some] at h
    case none.none => exact ⟨rfl, h⟩
    case none.some e =>
      obtain ⟨c, d, Z, heq, hname⟩ := hr.start (hq.stored _ e hqs hqe)
      rw [heq] at h
      change X = _ at h
      exact absurd (h ▸ hX) (Follows.not_edges hname)
    case some.none e =>
      obtain ⟨c, d, Z, heq, hname⟩ := hr.start (hp.stored _ e hps hpe)
      rw [heq] at h
      change _ = Y at h
      exact absurd (h ▸ hY) (Follows.not_edges hname)
    case some.some e e' =>
      obtain ⟨hedges, hXY⟩ := hr.unique (hp.stored _ e hps hpe) (hq.stored _ e' hqs hqe) hX hY h
      exact ⟨congrArg some hedges, hXY⟩

/-- Separate properties end where no slot goes on from theirs. -/
theorem separate_unique (hr : ReadsBack edges f Ok next) {ps qs : List (PropDef E)} {slot : Nat} (hslot : 0 < slot)
    (hps : ∀ p ∈ ps, p.Readable Ok) (hqs : ∀ q ∈ qs, q.Readable Ok) (hp : Numbered slot ps) (hq : Numbered slot qs)
    (hX : Follows next X) (hY : Follows next Y) (hnp : ¬next (slot + ps.length)) (hnq : ¬next (slot + qs.length))
    (h : ps.flatMap (PropDef.describe edges) ++ X = qs.flatMap (PropDef.describe edges) ++ Y) :
    ps.map (PropDef.outline f) = qs.map (PropDef.outline f) ∧ X = Y := by
  have hone : ∀ {p : PropDef E} {ps : List (PropDef E)} {slot : Nat} {X Y : Bytes}, p.Readable Ok → Numbered slot (p :: ps) →
      Follows next Y → Y = (p :: ps).flatMap (PropDef.describe edges) ++ X → next slot := by
    intro p ps slot X Y hp hn hY heq
    obtain ⟨s, hs, hnat⟩ := hn.1
    rw [heq, List.flatMap_cons, List.append_assoc, describe_append, hs] at hY
    obtain ⟨_, _, _, _, _, _, heq, -, hnext⟩ := hY.of_string hp.name
    simp only [Location.describe, List.cons_append, List.cons.injEq] at heq
    obtain ⟨-, -, rfl, -⟩ := heq
    exact hnat ▸ hnext
  induction ps generalizing slot qs with
  | nil =>
    cases qs with
    | nil => exact ⟨rfl, h⟩
    | cons q qs => exact absurd (hone (hqs q List.mem_cons_self) hq hX h) hnp
  | cons p ps ih =>
    cases qs with
    | nil => exact absurd (hone (hps p List.mem_cons_self) hp hY h.symm) hnq
    | cons q qs =>
      obtain ⟨hps0, hps'⟩ := List.forall_mem_cons.1 hps
      obtain ⟨hqs0, hqs'⟩ := List.forall_mem_cons.1 hqs
      obtain ⟨⟨s, hs, hsn⟩, hp⟩ := hp
      obtain ⟨⟨s', hs', hsn'⟩, hq⟩ := hq
      obtain rfl : s = s' := UInt8.toNat.inj (hsn.trans hsn'.symm)
      rw [List.flatMap_cons, List.flatMap_cons, List.append_assoc, List.append_assoc] at h
      obtain ⟨hname, htype, -, hlen, h⟩ := header_unique hps0 hqs0 h (by rw [hs, hs'])
      obtain ⟨hlabels, htarget, hedges, h⟩ := details_unique hr hps0 hqs0 htype hs hs'
        (hsn ▸ follows_numbered (Nat.succ_pos _) hps' hp hX) (hsn ▸ follows_numbered (Nat.succ_pos _) hqs' hq hY) h
      rw [List.length_cons, ← Nat.succ_add_eq_add_succ] at hnp hnq
      obtain ⟨hmap, hXY⟩ := ih (Nat.succ_pos _) hps' hqs' hp hq hnp hnq h
      refine ⟨?_, hXY⟩
      rw [List.map_cons, List.map_cons, hmap, PropDef.outline, PropDef.outline, hname, htype, hs, hs', hlen, hlabels, htarget, hedges]

/-! ### Layouts -/

/-- What a description needs of a layout to be read back. -/
structure Layout.Readable (Ok : Nat → E → Prop) (t : Layout E) : Prop where
  wellFormed : t.WellFormed
  name : IsShort t.name
  props : ∀ p ∈ t.props, p.Readable Ok

theorem numbered_of_slots {ps : List (PropDef E)} {slot : Nat} (hlimit : slot + ps.length ≤ 256)
    (h : ps.map (·.slot?) = (List.range' slot ps.length).map fun n => some (UInt8.ofNat n)) : Numbered slot ps := by
  induction ps generalizing slot with
  | nil => trivial
  | cons p ps ih =>
    rw [List.length_cons] at hlimit h
    rw [List.range'_succ, List.map_cons, List.map_cons] at h
    obtain ⟨hslot, h⟩ := List.cons.inj h
    refine ⟨⟨UInt8.ofNat slot, ?_, ?_⟩, ih (by omega) h⟩
    · cases hl : p.location <;> simp [PropDef.slot?, hl] at hslot
      rw [hslot]
    · rw [UInt8.toNat_ofNat']
      omega

theorem Layout.WellFormed.numbered {t : Layout E} (h : t.WellFormed) : Numbered 1 t.separateProps := by
  have hlimit : Limits.maxSeparateSlot = 250 := rfl
  have hcount := h.count
  exact numbered_of_slots (by omega) h.slots

/-- The description of a layout gives its outline, unless a property that follows goes on from its slots. -/
theorem Layout.describe_unique (hr : ReadsBack edges f Ok next) {t u : Layout E} (ht : t.Readable Ok) (hu : u.Readable Ok)
    (hX : Follows next X) (hY : Follows next Y) (hnt : ¬next (1 + t.separateProps.length))
    (hnu : ¬next (1 + u.separateProps.length)) (h : t.describe edges ++ X = u.describe edges ++ Y) :
    t.outline f = u.outline f ∧ X = Y := by
  have hroom : ∀ {t : Layout E}, t.Readable Ok → t.mainLen < 256 ^ 4 := fun ht =>
    Nat.lt_of_le_of_lt ht.wellFormed.room (by decide)
  have hparts : ∀ {t : Layout E}, t.Readable Ok →
      (∀ p ∈ t.mainProps, p.Readable Ok) ∧ ∀ p ∈ t.separateProps, p.Readable Ok := fun ht =>
    ⟨fun p hp => ht.props p (List.mem_of_mem_filter hp), fun p hp => ht.props p (List.mem_of_mem_filter hp)⟩
  have hseparate : ∀ {t : Layout E} {Z : Bytes}, t.Readable Ok → Follows next Z →
      Follows (fun n => n = 1 ∨ next n) (t.separateProps.flatMap (PropDef.describe edges) ++ Z) := fun ht hZ =>
    follows_numbered Nat.one_pos (hparts ht).2 ht.wellFormed.numbered hZ
  simp only [Layout.describe, List.append_assoc] at h
  obtain ⟨hid, h⟩ := leBytes_append_inj t.id.toNat_lt u.id.toNat_lt h
  obtain ⟨hname, h⟩ := describeString_append_inj ht.name hu.name h
  obtain ⟨hlen, h⟩ := leBytes_append_inj (hroom ht) (hroom hu) h
  rw [ht.wellFormed.props, hu.wellFormed.props, List.flatMap_append, List.flatMap_append, List.append_assoc,
    List.append_assoc] at h
  have htiles : Tiles 0 t.mainLen u.mainProps := hlen ▸ hu.wellFormed.tiles
  obtain ⟨hmain, h⟩ := main_unique (f := f) (hparts ht).1 (hparts hu).1 ht.wellFormed.tiles htiles ht.wellFormed.room
    (hseparate ht hX) (hseparate hu hY) h
  obtain ⟨hsep, hXY⟩ := separate_unique hr Nat.one_pos (hparts ht).2 (hparts hu).2 ht.wellFormed.numbered hu.wellFormed.numbered
    hX hY hnt hnu h
  refine ⟨?_, hXY⟩
  rw [Layout.outline, Layout.outline, UInt16.toNat.inj hid, hname, hlen, ht.wellFormed.props, hu.wellFormed.props, List.map_append,
    List.map_append, hmain, hsep]

/-! ### What links store -/

/-- What a description needs of what the links of a property in a slot store: the slots of its properties do not end where the
next property of the type stands. -/
structure EdgeLayout.Readable (slot : Nat) (e : EdgeLayout) : Prop where
  layout : Layout.Readable (fun _ _ => True) e
  id : e.id = 0
  name : e.name ≠ ""
  count : e.separateProps.length ≠ slot

/-- Nothing is stored on links of links. -/
theorem readsBack_nothing (edges : Empty → Bytes) (f : Empty → L) : ReadsBack edges f (fun _ _ => True) next where
  start {_ e} := e.elim
  unique {_ e} := e.elim

theorem readsBack_edges : ReadsBack EdgeLayout.describe EdgeLayout.outline EdgeLayout.Readable fun _ => False where
  start {slot e} h := by
    obtain ⟨c, d, hbytes, hne⟩ := describeString_short h.layout.name
    obtain ⟨Y, heq⟩ : ∃ Y, e.describe = 0 :: 0 :: c :: d :: Y := by
      rw [EdgeLayout.describe, Layout.describe, h.id, hbytes]
      exact ⟨_, rfl⟩
    exact ⟨c, d, Y, heq, hne h.name⟩
  unique {slot e e' X Y} h h' hX hY heq := by
    refine Layout.describe_unique (readsBack_nothing _ _) h.layout h'.layout hX hY ?_ ?_ heq
    · rintro (hslot | hnever)
      · exact h.count (by omega)
      · exact hnever
    · rintro (hslot | hnever)
      · exact h'.count (by omega)
      · exact hnever

/-! ### Types -/

/-- What a type needs to stand behind another one. -/
structure TypeLayout.Behind (t : TypeLayout) : Prop where
  id : t.id ≠ 0
  name : t.name ≠ ""
  head : (Utf8.encode t.name).head? ≠ some 0

variable {t : TypeLayout} {ts us : List TypeLayout}

theorem follows_type (hshort : IsShort t.name) (ht : TypeLayout.Behind t) : Follows next (t.describe ++ X) := by
  obtain ⟨a, b, hbytes, hne⟩ := describeString_short hshort
  have hencoded : Utf8.encode t.name ≠ [] := fun hnil => by
    have hsize := Utf8.length_encode t.name
    rw [hnil] at hsize
    exact ht.name (String.utf8ByteSize_eq_zero_iff.1 hsize.symm)
  obtain ⟨Z, heq⟩ : ∃ Z, t.describe ++ X =
      UInt8.ofNat t.id.toNat :: UInt8.ofNat (t.id.toNat / 256) :: a :: b :: 0 :: 0 :: (Utf8.encode t.name ++ Z) := by
    rw [TypeLayout.describe, Layout.describe, hbytes, List.append_assoc, List.append_assoc, List.append_assoc]
    exact ⟨_, rfl⟩
  rw [heq]
  refine .type (ofNat_ne_zero t.id.toNat_lt fun hzero => ht.id (UInt16.toNat.inj hzero)) (hne ht.name) ?_
  rw [List.head?_append_of_ne_nil _ hencoded]
  exact ht.head

theorem follows_types (hts : ∀ t ∈ ts, IsShort t.name ∧ TypeLayout.Behind t) : Follows next (ts.flatMap TypeLayout.describe) := by
  cases ts with
  | nil => exact .done
  | cons t ts => exact follows_type (hts t List.mem_cons_self).1 (hts t List.mem_cons_self).2

/-- The descriptions of types give their outlines. -/
theorem types_unique (hts : ∀ t ∈ ts, Layout.Readable EdgeLayout.Readable t)
    (hus : ∀ u ∈ us, Layout.Readable EdgeLayout.Readable u)
    (htail : ∀ t ∈ ts.tail, TypeLayout.Behind t) (hutail : ∀ u ∈ us.tail, TypeLayout.Behind u)
    (h : ts.flatMap TypeLayout.describe = us.flatMap TypeLayout.describe) :
    ts.map TypeLayout.outline = us.map TypeLayout.outline := by
  have hne : ∀ {t : TypeLayout} {ts : List TypeLayout}, [] ≠ (t :: ts).flatMap TypeLayout.describe := nofun
  induction ts generalizing us with
  | nil =>
    cases us with
    | nil => rfl
    | cons u us => exact absurd h hne
  | cons t ts ih =>
    cases us with
    | nil => exact absurd h.symm hne
    | cons u us =>
      obtain ⟨ht, hts⟩ := List.forall_mem_cons.1 hts
      obtain ⟨hu, hus⟩ := List.forall_mem_cons.1 hus
      rw [List.flatMap_cons, List.flatMap_cons] at h
      have hfollows : ∀ {vs : List TypeLayout}, (∀ v ∈ vs, Layout.Readable EdgeLayout.Readable v) →
          (∀ v ∈ vs, TypeLayout.Behind v) → Follows (fun _ => False) (vs.flatMap TypeLayout.describe) := fun hvs hbehind =>
        follows_types fun v hv => ⟨(hvs v hv).name, hbehind v hv⟩
      obtain ⟨hout, hrest⟩ := Layout.describe_unique readsBack_edges ht hu (hfollows hts htail) (hfollows hus hutail) id id h
      rw [List.map_cons, List.map_cons, TypeLayout.outline, TypeLayout.outline, hout]
      exact congrArg _ (ih hts hus (fun v hv => htail v (List.mem_of_mem_tail hv))
        (fun v hv => hutail v (List.mem_of_mem_tail hv)) hrest)

end NodeStore
