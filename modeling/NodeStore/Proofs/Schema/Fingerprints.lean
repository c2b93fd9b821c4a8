import Mathlib.Data.List.Induction
import NodeStore.Proofs.Schema.Descriptions
import NodeStore.Proofs.Schema.LayoutOrder
import NodeStore.Proofs.SortedLists

/-!
# What a fingerprint tells of a schema

The bytes that a fingerprint digests are the descriptions of the locales and of the types, one behind the other. They give
both back, as long as no part of them can be read in two ways.

* `SchemaLayout.outline`: what the bytes are made from.
* `SchemaLayout.Legible`: the schemas of which no part can be read in two ways.
* `locales_unique`: the bytes of the locales give their ids and what each of them falls back to.
* `compile_describe_unique`: two schemas that compile and give the same bytes have the same outline.
-/

namespace NodeStore

/-- What the bytes that a fingerprint digests are made from. -/
structure SchemaOutline where
  locales : List (UInt8 × List UInt8)
  types : List (LayoutOutline (LayoutOutline Empty))

def SchemaLayout.outline (s : SchemaLayout) : SchemaOutline :=
  ⟨s.locales.map fun l => (l.id, l.fallback), s.types.map TypeLayout.outline⟩

/-- No part of what the fingerprint of the schema digests can be read in two ways. The bytes hold no number of fallbacks,
labels, properties or types, so that each condition keeps a part from running on into the next one. -/
structure SchemaLayout.Legible (s : SchemaLayout) : Prop where
  /-- No locale falls back to itself; the next locale might start there. -/
  locales : ∀ l ∈ s.locales, l.id ∉ l.fallback
  names : ∀ {E : Type} {t : Layout E}, s.HasLayout t → IsShort t.name
  props : ∀ {E : Type} {t : Layout E}, s.HasLayout t → ∀ p ∈ t.props, p.Legible
  /-- The name of a type does not start with the byte that ends the length of a property. -/
  heads : ∀ t ∈ s.types.tail, (Utf8.encode t.name).head? ≠ some 0
  /-- The next property of the type is not in the slot behind those of the links. -/
  links : ∀ t ∈ s.types, ∀ p ∈ t.props, ∀ slot e, p.location = .separate slot → p.edges = some e →
    e.separateProps.length ≠ slot.toNat

variable {E : Type} {decl decl' : SchemaDecl} {priority priority' : Priority} {schema schema' : SchemaLayout}

/-! ### Compiled layouts -/

namespace Schema

theorem measure_len {type : String} {p : FlatProp} {len : Nat} {main : Bool} (h : measure type p = .ok (len, main)) :
    len ≤ Limits.maxVectorBytes := by
  have hlimit : Limits.maxVectorBytes = 65536 := rfl
  have hshort : Limits.maxFixedString = 60 := rfl
  cases hw : p.type.fixedWidth with
  | some w =>
    rw [((measure_spec h).1 w hw).2]
    cases ht : p.type <;> rw [ht] at hw <;> cases hw <;> decide
  | none =>
    unfold measure at h
    cases ht : p.type <;> rw [ht] at hw <;> cases hw <;> simp only [ht] at h <;> repeat' split at h
    all_goals simp_all
    all_goals omega

/-- No property is as long as 16 MiB. -/
theorem compileProp_len {c : Context} {inverses : Bool} {edgesOf : EdgeCompiler E} {type : String} {p : FlatProp}
    {cache cache' : EdgeCache} {d : PropDef E} (h : compileProp c inverses edgesOf type p cache = .ok (d, cache')) :
    d.len < 256 ^ 3 := by
  obtain ⟨_, _, _, hsize, -, -, -, rfl, -⟩ := compileProp_eq_ok.1 h
  exact Nat.lt_of_le_of_lt (measure_len hsize) (by decide)

theorem layoutOf_len {priority : Priority} {name : String} {id : TypeId} {defs : List (PropDef E)} {t : Layout E}
    (h : layoutOf priority name id defs = .ok t) (hdefs : ∀ d ∈ defs, d.len < 256 ^ 3) :
    ∀ p ∈ t.props, p.len < 256 ^ 3 := by
  obtain ⟨-, -, bss, -, rfl⟩ := layoutOf_eq_ok.1 h
  intro p hp
  obtain ⟨d, hd, place, rfl⟩ := mem_placeAll hp
  exact hdefs d hd

theorem typeLayout_len {c : Context} {name : String} {id : TypeId} {flat : List FlatProp} {cache cache' : EdgeCache}
    {t : TypeLayout} (h : typeLayout c name id flat cache = .ok (t, cache')) : ∀ p ∈ t.props, p.len < 256 ^ 3 := by
  obtain ⟨-, defs, hdefs, hl⟩ := typeLayout_eq_ok.1 h
  obtain ⟨-, hall⟩ := mapM_invariant (P := fun _ => True) (Q := fun _ (d : PropDef EdgeLayout) _ => d.len < 256 ^ 3)
    hdefs trivial
    (fun _ _ _ _ _ _ hx => ⟨trivial, compileProp_len hx⟩) fun _ _ _ _ _ _ _ hq _ => hq
  exact layoutOf_len hl fun d hd => (hall d hd).choose_spec.2

theorem Made.len {c : Context} {key : RelationKey} {edges : List (String × PropDecl)} {e : EdgeLayout} (h : Made c key edges e) :
    ∀ p ∈ e.props, p.len < 256 ^ 3 := by
  obtain ⟨flat, defs, -, -, hdefs, hl⟩ := h
  refine layoutOf_len hl fun d hd => ?_
  obtain ⟨p, -, hp⟩ := exists_of_forall₂_left hdefs.flip hd
  exact compileProp_len hp

/-- What links store has no id, and its name is not empty. -/
theorem Made.name {c : Context} {key : RelationKey} {edges : List (String × PropDecl)} {e : EdgeLayout} (h : Made c key edges e) :
    e.id = 0 ∧ e.name ≠ "" := by
  obtain ⟨flat, defs, -, -, -, hl⟩ := h
  obtain ⟨-, -, bss, -, rfl⟩ := layoutOf_eq_ok.1 hl
  refine ⟨rfl, fun hempty => ?_⟩
  have hchars := congrArg String.toList hempty
  simp at hchars

end Schema

theorem compile_len (h : decl.compile priority = .ok schema) {t : Layout E} (ht : schema.HasLayout t) :
    ∀ p ∈ t.props, p.len < 256 ^ 3 := by
  cases ht with
  | ofType ht =>
    exact compile_all h (P := fun t => ∀ p ∈ t.props, p.len < 256 ^ 3)
      (fun _ _ _ _ _ _ _ _ => Schema.typeLayout_len) _ ht
  | ofLinks ht hp he =>
    exact compile_edges_all h (P := fun e => ∀ p ∈ e.props, p.len < 256 ^ 3) (fun _ _ _ _ => Schema.Made.len) ht hp he

/-- What the links of a legible schema store can be read back. -/
theorem readable_edges (h : decl.compile priority = .ok schema) (hl : schema.Legible) {t : TypeLayout} (ht : t ∈ schema.types)
    {p : PropDef EdgeLayout} (hp : p ∈ t.props) {slot : UInt8} (hslot : p.location = .separate slot) {e : EdgeLayout}
    (he : p.edges = some e) : EdgeLayout.Readable slot.toNat e := by
  have hlinks : schema.HasLayout e := .ofLinks ht hp he
  obtain ⟨hid, hname⟩ :=
    compile_edges_all h (P := fun e => e.id = 0 ∧ e.name ≠ "") (fun _ _ _ _ => Schema.Made.name) ht hp he
  exact
    { layout :=
        { wellFormed := (compile_wellFormed h).edges t ht p hp e he
          name := hl.names hlinks
          props := fun q hq =>
            { hl.props hlinks q hq with
              measured := (compile_hasLayout h hlinks).1.measured q hq
              len := compile_len h hlinks q hq
              stored := fun _ _ _ _ => trivial } }
      id := hid
      name := hname
      count := hl.links t ht p hp slot e hslot he }

/-- The types of a legible schema can be read back. -/
theorem readable_type (h : decl.compile priority = .ok schema) (hl : schema.Legible) {t : TypeLayout} (ht : t ∈ schema.types) :
    Layout.Readable EdgeLayout.Readable t where
  wellFormed := (compile_wellFormed h).types t ht
  name := hl.names (.ofType ht)
  props p hp :=
    { hl.props (.ofType ht) p hp with
      measured := (compile_placed h).types t ht |>.measured p hp
      len := compile_len h (.ofType ht) p hp
      stored := fun _ _ hslot he => readable_edges h hl ht hp hslot he }

/-- All types but the first one can stand behind another one. -/
theorem behind_of_legible (h : decl.compile priority = .ok schema) (hl : schema.Legible) :
    ∀ t ∈ schema.types.tail, TypeLayout.Behind t := by
  intro t ht
  have hwell := compile_wellFormed h
  have hids := hwell.ids
  have hnames := hwell.names
  refine ⟨fun hid => ?_, fun hname => ?_, hl.heads t ht⟩
  · have hmem : t.id.toNat ∈ schema.types.map (·.id.toNat) := List.mem_map_of_mem (List.mem_of_mem_tail ht)
    rw [hids, hid, List.mem_range'_1] at hmem
    exact absurd hmem.1 (by decide)
  · cases htypes : schema.types with
    | nil =>
      rw [htypes] at ht
      cases ht
    | cons u us =>
      rw [htypes] at ht hnames
      have hlt := (List.pairwise_cons.1 hnames).1 t ht
      rw [hname] at hlt
      exact absurd hlt (List.not_lt_nil _)

/-! ### Locales -/

namespace Schema

theorem ids_dropRepeated {l : Locale} {ls : List Locale} (h : l ∈ ls) : ∃ m ∈ dropRepeated ls, m.id = l.id := by
  induction ls using dropRepeated.induct generalizing l with
  | case1 => cases h
  | case2 l' =>
    rw [List.mem_singleton] at h
    exact ⟨l', by rw [dropRepeated]; exact List.mem_singleton_self _, congrArg _ h.symm⟩
  | case3 l' m rest heq ih =>
    rw [dropRepeated, if_pos heq]
    -- The first one stays for both.
    have hfirst := ih List.mem_cons_self
    simp only [List.mem_cons] at h
    rcases h with rfl | rfl | h
    · exact hfirst
    · exact heq ▸ hfirst
    · exact ih (List.mem_cons_of_mem _ h)
  | case4 l' m rest hne ih =>
    rw [dropRepeated, if_neg hne]
    rcases List.mem_cons.1 h with rfl | h
    · exact ⟨_, List.mem_cons_self, rfl⟩
    · obtain ⟨k, hk, hid⟩ := ih h
      exact ⟨k, List.mem_cons_of_mem _ hk, hid⟩

theorem dropRepeated_sorted {ls : List Locale} (h : ls.Pairwise fun l m => l.id ≤ m.id) :
    (dropRepeated ls).Pairwise fun l m => l.id < m.id := by
  induction ls using dropRepeated.induct with
  | case1 => rw [dropRepeated]; exact .nil
  | case2 => rw [dropRepeated]; exact List.pairwise_singleton ..
  | case3 l m rest heq ih =>
    rw [dropRepeated, if_pos heq]
    exact ih (h.sublist (.cons_cons _ (List.sublist_cons_self _ _)))
  | case4 l m rest hne ih =>
    rw [dropRepeated, if_neg hne]
    obtain ⟨hl, h⟩ := List.pairwise_cons.1 h
    refine List.pairwise_cons.2 ⟨fun k hk => ?_, ih h⟩
    have hlm := Std.lt_of_le_of_ne (hl m List.mem_cons_self) hne
    rcases List.mem_cons.1 (mem_dropRepeated hk) with rfl | hk
    · exact hlm
    · exact Std.lt_of_lt_of_le hlm ((List.pairwise_cons.1 h).1 k hk)

/-- Compiled locales have different ids in their order, and what they fall back to is among them. -/
theorem compileLocales_sorted {ds : List LocaleDecl} {ls : List Locale} (h : compileLocales ds = .ok ls) :
    (ls.Pairwise fun l m => l.id < m.id) ∧ ∀ l ∈ ls, ∀ i ∈ l.fallback, ∃ m ∈ ls, m.id = i := by
  unfold compileLocales at h
  obtain ⟨compiled, hc, h⟩ := Except.bind_eq_ok.1 h
  cases h
  obtain ⟨-, hfrom, hto⟩ := mapM_eq_ok hc
  constructor
  · refine dropRepeated_sorted ((List.pairwise_mergeSort (fun a b c hab hbc => ?_) (fun a b => ?_) compiled).imp fun hab => ?_)
    · simp only [decide_eq_true_eq] at *
      exact Std.le_trans hab hbc
    · simpa using Std.le_total (a := a.id) (b := b.id)
    · simpa using hab
  · intro l hl i hi
    obtain ⟨d, -, hd⟩ := hfrom l (List.mem_mergeSort.1 (mem_dropRepeated hl))
    unfold compileLocale at hd
    obtain ⟨id, -, hd⟩ := Except.bind_eq_ok.1 hd
    obtain ⟨fallback, hfallback, hd⟩ := Except.bind_eq_ok.1 hd
    cases hd
    obtain ⟨code, -, hcode⟩ := (mapM_eq_ok hfallback).2.1 i hi
    split at hcode
    · cases hcode
    rename_i hdeclared
    have hmem : code ∈ ds.map (·.code) := by simpa using hdeclared
    obtain ⟨d', hd', rfl⟩ := List.mem_map.1 hmem
    obtain ⟨m, hm, hcompiled⟩ := hto d' hd'
    have hid : m.id = i := by
      unfold compileLocale at hcompiled
      obtain ⟨id', hid', hcompiled⟩ := Except.bind_eq_ok.1 hcompiled
      obtain ⟨_, -, hcompiled⟩ := Except.bind_eq_ok.1 hcompiled
      cases hcompiled
      exact Except.ok.inj (hid'.symm.trans hcode)
    obtain ⟨k, hk, hkid⟩ := ids_dropRepeated (List.mem_mergeSort.2 hm)
    exact ⟨k, hk, hkid.trans hid⟩

end Schema

theorem compile_locales_sorted (h : decl.compile priority = .ok schema) :
    (schema.locales.Pairwise fun l m => l.id < m.id) ∧
      ∀ l ∈ schema.locales, ∀ i ∈ l.fallback, ∃ m ∈ schema.locales, m.id = i := by
  obtain ⟨locales, _, _, _, _, hlocales, -, -, -, -, rfl⟩ := SchemaDecl.compile_eq_ok.1 h
  exact Schema.compileLocales_sorted hlocales

/-- No locale has the id 0. -/
theorem zero_notMem_describeLocales (h : decl.compile priority = .ok schema) :
    0 ∉ describeLocales schema.locales := fun hmem => by
  have hid : ∀ l ∈ schema.locales, l.id ≠ 0 := fun l hl => Locale.ne_none_of_idOf? (compile_locales h l hl)
  obtain ⟨l, hl, hzero⟩ := List.mem_flatMap.1 hmem
  rcases List.mem_cons.1 hzero with hzero | hzero
  · exact hid l hl hzero.symm
  · obtain ⟨m, hm, hmid⟩ := (compile_locales_sorted h).2 l hl 0 hzero
    exact hid m hm hmid

/-- A list is cut at the last place of an element. -/
theorem append_cons_inj {α : Type} {a : α} {as bs as' bs' : List α} (h : a ∉ bs) (h' : a ∉ bs')
    (heq : as ++ a :: bs = as' ++ a :: bs') : as = as' ∧ bs = bs' := by
  have hone : ∀ {es bs bs' : List α}, a ∉ bs → a :: bs = es ++ a :: bs' → es = [] := fun {es bs bs'} h heq => by
    cases es with
    | nil => rfl
    | cons e es =>
      obtain ⟨-, rfl⟩ := List.cons.inj heq
      exact absurd (List.mem_append_right _ List.mem_cons_self) h
  rcases List.append_eq_append_iff.1 heq with ⟨es, rfl, hrest⟩ | ⟨es, rfl, hrest⟩
  · obtain rfl := hone h hrest
    exact ⟨(List.append_nil _).symm, (List.cons.inj hrest).2⟩
  · obtain rfl := hone h' hrest
    exact ⟨List.append_nil _, (List.cons.inj hrest).2.symm⟩

/-- Where the ids of locales are known, what each of them falls back to ends where the next id stands for the last time. -/
theorem fallbacks_unique {ls ls' : List Locale} (hl : ∀ l ∈ ls, l.id ∉ l.fallback) (hl' : ∀ l ∈ ls', l.id ∉ l.fallback)
    (hids : ls.map (·.id) = ls'.map (·.id)) (h : describeLocales ls = describeLocales ls') :
    ls.map (fun l => (l.id, l.fallback)) = ls'.map fun l => (l.id, l.fallback) := by
  induction ls using List.reverseRecOn generalizing ls' with
  | nil =>
    rw [List.map_nil, eq_comm, List.map_eq_nil_iff] at hids
    rw [hids]
  | append_singleton ls l ih =>
    cases ls' using List.reverseRecOn with
    | nil => simp at hids
    | append_singleton ls' l' =>
      simp only [List.map_append, List.map_cons, List.map_nil] at hids ⊢
      obtain ⟨hids, hid⟩ := List.append_inj' hids rfl
      have hid : l.id = l'.id := List.head_eq_of_cons_eq hid
      simp only [describeLocales, List.flatMap_append, List.flatMap_cons, List.flatMap_nil, List.append_nil, ← hid] at h
      obtain ⟨h, hfallback⟩ := append_cons_inj (hl l (by simp)) (hid ▸ hl' l' (by simp)) h
      rw [ih (fun m hm => hl m (List.mem_append_left _ hm)) (fun m hm => hl' m (List.mem_append_left _ hm)) hids h, hid, hfallback]

theorem locales_unique {ls ls' : List Locale} (hs : ls.Pairwise fun l m => l.id < m.id) (hs' : ls'.Pairwise fun l m => l.id < m.id)
    (hf : ∀ l ∈ ls, ∀ i ∈ l.fallback, ∃ m ∈ ls, m.id = i)
    (hf' : ∀ l ∈ ls', ∀ i ∈ l.fallback, ∃ m ∈ ls', m.id = i) (hl : ∀ l ∈ ls, l.id ∉ l.fallback)
    (hl' : ∀ l ∈ ls', l.id ∉ l.fallback) (h : describeLocales ls = describeLocales ls') :
    ls.map (fun l => (l.id, l.fallback)) = ls'.map fun l => (l.id, l.fallback) := by
  have hmem : ∀ {ls : List Locale}, (∀ l ∈ ls, ∀ i ∈ l.fallback, ∃ m ∈ ls, m.id = i) →
      ∀ i, i ∈ describeLocales ls ↔ i ∈ ls.map (·.id) := fun {ls} hf i => by
    simp only [describeLocales, List.mem_flatMap, List.mem_cons, List.mem_map]
    constructor
    · rintro ⟨l, hl, rfl | hi⟩
      · exact ⟨l, hl, rfl⟩
      · exact hf l hl i hi
    · rintro ⟨l, hl, rfl⟩
      exact ⟨l, hl, .inl rfl⟩
  refine fallbacks_unique hl hl' ?_ h
  have hsorted : ∀ {ls : List Locale}, (ls.Pairwise fun l m => l.id < m.id) → (ls.map (·.id)).Pairwise (· < ·) := fun hs =>
    List.pairwise_map.2 hs
  have hnodup : ∀ {ls : List Locale}, (ls.Pairwise fun l m => l.id < m.id) → (ls.map (·.id)).Nodup := fun hs =>
    (hsorted hs).imp fun {a b} (hlt : a < b) (heq : a = b) => Std.lt_irrefl (heq ▸ hlt)
  have hperm : (ls.map (·.id)).Perm (ls'.map (·.id)) := (List.perm_ext_iff_of_nodup (hnodup hs) (hnodup hs')).2 fun i => by
    rw [← hmem hf, ← hmem hf', h]
  exact hperm.eq_of_pairwise (fun a b _ _ hab hba => absurd hab (Std.not_lt.2 (Std.le_of_lt hba))) (hsorted hs) (hsorted hs')

/-- The locales end in front of the id of the first type, whose second byte is the first zero. -/
theorem describe_split {L L' T T' : Bytes} (hL : 0 ∉ L) (hL' : 0 ∉ L') (hT : T = [] ∨ ∃ X, T = 1 :: 0 :: X)
    (hT' : T' = [] ∨ ∃ X, T' = 1 :: 0 :: X) (h : L ++ T = L' ++ T') : L = L' ∧ T = T' := by
  have hone : ∀ {es T T' : Bytes}, 0 ∉ es → (T = [] ∨ ∃ X, T = 1 :: 0 :: X) → (T' = [] ∨ ∃ X, T' = 1 :: 0 :: X) →
      T = es ++ T' → es = [] := fun {es T T'} hes hT hT' heq => by
    rcases hT with rfl | ⟨X, rfl⟩
    · exact (List.append_eq_nil_iff.1 heq.symm).1
    · cases es with
      | nil => rfl
      | cons e es =>
        obtain ⟨-, heq⟩ := List.cons.inj heq
        cases es with
        | nil => rcases hT' with rfl | ⟨X', rfl⟩ <;> cases heq
        | cons e' es =>
          obtain ⟨rfl, -⟩ := List.cons.inj heq
          simp at hes
  rcases List.append_eq_append_iff.1 h with ⟨es, rfl, hrest⟩ | ⟨es, rfl, hrest⟩
  · obtain rfl := hone (fun hmem => hL' (List.mem_append_right _ hmem)) hT hT' hrest
    exact ⟨(List.append_nil _).symm, hrest⟩
  · obtain rfl := hone (fun hmem => hL (List.mem_append_right _ hmem)) hT' hT hrest
    exact ⟨List.append_nil _, hrest.symm⟩

/-- The ids of the types of a schema that compiles start at 1. -/
theorem describe_types (h : decl.compile priority = .ok schema) :
    schema.types.flatMap TypeLayout.describe = [] ∨ ∃ X, schema.types.flatMap TypeLayout.describe = 1 :: 0 :: X := by
  have hids := (compile_wellFormed h).ids
  cases htypes : schema.types with
  | nil => exact .inl rfl
  | cons t ts =>
    rw [htypes, List.map_cons, List.length_cons, List.range'_succ] at hids
    refine .inr ?_
    rw [List.flatMap_cons, TypeLayout.describe, Layout.describe, (List.cons.inj hids).1]
    exact ⟨_, rfl⟩

/-- Two schemas that compile have the same outline when their fingerprints digest the same bytes, as long as no part of the bytes
can be read in two ways. -/
theorem compile_describe_unique (h : decl.compile priority = .ok schema) (h' : decl'.compile priority' = .ok schema')
    (hl : schema.Legible) (hl' : schema'.Legible)
    (heq : describeSchema schema.types schema.locales = describeSchema schema'.types schema'.locales) :
    schema.outline = schema'.outline := by
  obtain ⟨hs, hf⟩ := compile_locales_sorted h
  obtain ⟨hs', hf'⟩ := compile_locales_sorted h'
  obtain ⟨hlocales, htypes⟩ :=
    describe_split (zero_notMem_describeLocales h) (zero_notMem_describeLocales h') (describe_types h)
    (describe_types h') heq
  have hids := locales_unique hs hs' hf hf' hl.locales hl'.locales hlocales
  have houtlines := types_unique (fun t ht => readable_type h hl ht) (fun t ht => readable_type h' hl' ht)
    (behind_of_legible h hl) (behind_of_legible h' hl') htypes
  rw [SchemaLayout.outline, SchemaLayout.outline, hids, houtlines]

namespace People

open Schema

/-- People who are older unless they say so. -/
def grown : SchemaDecl where
  locales := []
  types := [("person", [
    ("friends", .leaf .references { reference := some "person", inverse := some "friends" } edges),
    ("home", .object [("number", .leaf .uint16 {} []), ("street", .leaf .string {} [])]),
    ("age", .leaf .uint8 { default := some (.int 21) } [])])]

def flatGrown : FlatTypes :=
  [("person", [flatFriends, flatNumber, flatStreet, ⟨["age"], .uint8, { default := some (.int 21) }, []⟩])]

def grownAge : PropDef EdgeLayout := { age with default := some (.int 21) }

def grownPerson : TypeLayout :=
  { person with
    props := [{ number with location := .main 0 }, { grownAge with location := .main 2 },
      { friends with location := .separate 1 }, { street with location := .separate 2 }]
    mainDefaults := [0, 0, 21] }

def grownLayout : SchemaLayout := ⟨[grownPerson], [], Sha256.digest (describeSchema [grownPerson] [])⟩

theorem layoutOf_grownPerson :
    layoutOf context.priority "person" 1 [friends, number, street, grownAge] = .ok grownPerson := by
  have hmain : mainOf [friends, number, street, grownAge] = [number, grownAge] := List.mergeSort_of_pairwise (by decide +kernel)
  have hseparate : separateOf context.priority [friends, number, street, grownAge] = [friends, street] :=
    List.mergeSort_of_pairwise (by decide +kernel)
  refine layoutOf_eq_ok.2 ?_
  rw [placeAll, hmain, hseparate]
  exact ⟨by decide, by decide, [[0, 0], [21]], rfl, rfl⟩

theorem compile_grown : grown.compile = .ok grownLayout := by
  have hlocales : compileLocales grown.locales = .ok [] := by
    simp [compileLocales, grown, dropRepeated]
    rfl
  have hflat : flattenTypes ∅ grown.types = .ok flatGrown := by
    rw [grown, flattenTypes, if_neg (by simp)]
    rfl
  have hresolved : resolveInverses (sortTypes flatGrown) = .ok flatGrown := by
    rw [show sortTypes flatGrown = flatGrown from List.mergeSort_singleton _]
    rfl
  have htypes : typeLayouts context 1 flatGrown [] = .ok ([grownPerson], cache) :=
    typeLayouts_cons_eq_ok.2 ⟨grownPerson, cache, [], typeLayout_eq_ok.2 ⟨rfl, _,
      mapM_cons_eq_ok.2 ⟨friends, cache, [number, street, grownAge], compileProp_friends, rfl, rfl⟩,
      layoutOf_grownPerson⟩, rfl, rfl⟩
  exact SchemaDecl.compile_eq_ok.2 ⟨_, _, _, _, _, hlocales, by decide, hflat, hresolved, htypes, rfl⟩

/-- Nothing in the schemas of people can be read in two ways, whatever is declared for their age. -/
theorem legible_of_age {t : TypeLayout} {fingerprint : Bytes} {a : PropDef EdgeLayout} (hname : t.name = "person")
    (ha : a.name = "age" ∧ a.enumValues = [] ∧ a.edges = none)
    (hprops : t.props = [{ number with location := .main 0 }, a, { friends with location := .separate 1 },
      { street with location := .separate 2 }]) : SchemaLayout.Legible ⟨[t], [], fingerprint⟩ := by
  have hlegible : ∀ {E : Type} {p : PropDef E}, IsShort p.name → p.enumValues = [] → p.Legible := fun hshort hnone =>
    ⟨hshort, by rw [hnone]; nofun, fun _ => hnone⟩
  have hlinks : ∀ p ∈ t.props, ∀ e, p.edges = some e → p.location = .separate 1 ∧ e = friendship := by
    intro p hp e he
    rw [hprops] at hp
    simp only [List.mem_cons, List.not_mem_nil, or_false] at hp
    rcases hp with rfl | rfl | rfl | rfl
    · cases he
    · cases ha.2.2.symm.trans he
    · exact ⟨rfl, (Option.some.inj he).symm⟩
    · cases he
  refine {
    locales := nofun
    names := fun ht => ?_
    props := fun ht => ?_
    heads := nofun
    links := fun u hu p hp slot e hslot he => ?_ }
  · cases ht with
    | ofType ht =>
      rw [List.mem_singleton.1 ht, hname]
      decide +kernel
    | ofLinks ht hp he =>
      rw [(hlinks _ (List.mem_singleton.1 ht ▸ hp) _ he).2]
      decide +kernel
  · cases ht with
    | ofType ht =>
      rw [List.mem_singleton.1 ht, hprops]
      simp only [List.forall_mem_cons, List.not_mem_nil, false_imp_iff, implies_true, and_true]
      exact ⟨hlegible (by decide +kernel) rfl, hlegible (by rw [ha.1]; decide +kernel) ha.2.1, hlegible (by decide +kernel) rfl,
        hlegible (by decide +kernel) rfl⟩
    | ofLinks ht hp he =>
      rw [(hlinks _ (List.mem_singleton.1 ht ▸ hp) _ he).2]
      exact fun q hq => List.mem_singleton.1 hq ▸ hlegible (by decide +kernel) rfl
  · obtain ⟨hone, rfl⟩ := hlinks p (List.mem_singleton.1 hu ▸ hp) e he
    cases hone.symm.trans hslot
    decide

end People

open People in
/-- The fingerprint of a schema of people does not show how old they are unless they say so. -/
theorem compile_describe_unique_people : People.decl.compile = .ok layout ∧ grown.compile = .ok grownLayout ∧
    layout.outline = grownLayout.outline :=
  ⟨compile_decl, compile_grown, compile_describe_unique compile_decl compile_grown (legible_of_age rfl ⟨rfl, rfl, rfl⟩ rfl)
    (legible_of_age rfl ⟨rfl, rfl, rfl⟩ rfl) rfl⟩

end NodeStore
