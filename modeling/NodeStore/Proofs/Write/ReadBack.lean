import NodeStore.Proofs.Result.Reading

/-!
# What was written is read back

A node is created and updated, the session is flushed, and the node is read with all its fields: every property other than
a reference has the value that follows from what was written to it.

* `Holds.shows`: the stored node holds these values.
* `writeAll_recalled`: the way from the calls to the record.
-/

namespace NodeStore.Write

open Engine

/-- The locale of a session is one of its schema, or none. -/
theorem Session.start_locale_mem {schema : SchemaLayout} {options : Options} {s : Session}
    (h : start schema options = .ok s) : s.locale = Locale.none ∨ s.locale ∈ schema.locales.map (·.id) := by
  unfold start at h
  dsimp only at h
  split at h
  · split at h
    · rename_i l hl
      cases h
      exact .inr (List.mem_map_of_mem (List.mem_of_find?_eq_some hl))
    · cases h
  · cases h
    change (schema.locales.head?.map (·.id)).getD Locale.none = Locale.none ∨ _ ∈ schema.locales.map (·.id)
    cases hhead : schema.locales.head? with
    | none => exact .inl rfl
    | some l => exact .inr (List.mem_map_of_mem (List.mem_of_head? hhead))

/-- It is one of a known code, or none. -/
theorem Session.start_locale {decl : SchemaDecl} {priority : Priority} {schema : SchemaLayout}
    (hschema : decl.compile priority = .ok schema) {options : Options} {s : Session} (h : start schema options = .ok s) :
    s.locale = Locale.none ∨ ∃ code, Locale.codeOf? s.locale = some code := by
  refine (start_locale_mem h).imp_right fun hmem => ?_
  obtain ⟨l, hl, hid⟩ := List.mem_map.1 hmem
  exact ⟨l.code, hid ▸ Locale.codeOf?_of_idOf? (compile_locales hschema l hl)⟩

/-- What a property reads as after a node was created with a record and updated with others. -/
def recalled (locale : UInt8) (record : Record) (updates : List Record) (p : PropDef EdgeLayout) : Value :=
  p.valueAfter (Locale.codeOf? locale) (givenTo true record p) (updates.flatMap fun update => givenTo false update p)

/-- A node that holds what was written to its properties shows it. -/
theorem shows_of_holds (schema : SchemaLayout) {t : TypeLayout} {n : StoredNode} {locale : UInt8} {record : Record}
    {updates : List Record} (ht : t.Placed) (hk : t.Packed) (hlocale : locale = Locale.none ∨ ∃ code, Locale.codeOf? locale = some code)
    (hsorted : Assoc.Sorted n.fields) (hsize : n.size < 2 ^ 32)
    (h : ∀ (i : Nat) p, t.props[i]? = some p →
      Holds t locale n p (givenTo true record p) (updates.flatMap fun update => givenTo false update p)) :
    Result.Shows schema t n (recalled locale record updates) := by
  have hholds : ∀ p ∈ t.props,
      Holds t locale n p (givenTo true record p) (updates.flatMap fun update => givenTo false update p) := fun p hp => by
    obtain ⟨i, hi⟩ := List.getElem?_of_mem hp
    exact h i p hi
  refine ⟨fun p hp hmain => ?_, fun p hp slot hslot => ?_⟩
  · have hmem := (List.mem_filter.1 hp).1
    exact (hholds p hmem).decodeFixed ht hk hmem hmain _
  · obtain ⟨hmem, href⟩ := List.mem_filter.1 hp
    have hfield := n.sum_contentSize_le hsorted (List.nodup_singleton slot)
    rw [List.map_singleton, List.sum_singleton] at hfield
    exact (hholds p hmem).tells (ht.measured p hmem) hslot (by simpa using href) hlocale (Nat.lt_of_le_of_lt hfield hsize)

namespace Session

/-- A node reads as what was written to it, if the writes fit into one batch. Its bytes have to leave room for the
lengths in the answer, which have four bytes. -/
theorem writeAll_recalled {decl : SchemaDecl} {priority : Priority} {schema : SchemaLayout}
    (hcompile : decl.compile priority = .ok schema) {type : String} {t : TypeLayout}
    (htype : schema.typeByName? type = some t) {record : Record} {updates : List Record} (hrecord : PlainRecord t record)
    (hupdates : ∀ update ∈ updates, PlainRecord t update) {options : Options} {s₀ s : Session} {p : PendingId}
    (hstart : start schema options = .ok s₀) (hwrite : writeAll type record updates s₀ = .ok p s) (hout : s.outbox = [])
    (hsize : s.bufferedLength < 2 ^ 31 - 2 ^ 16) {m : Memory} (hschema : m.schema = schema) (hnext : m.failNext = none)
    (hroom : m.store.exhausted t.id = false) :
    ∃ m' s' id q bytes r, flush Memory.apply m s = (.ok (), m', s') ∧ s'.resolved? p = .ok (some id) ∧
      (Query.everything type id).compile schema = .ok q ∧ m'.query q.bytes = .ok bytes ∧
      q.decode bytes = .ok ⟨1, [.ok r]⟩ ∧
      ∀ prop ∈ t.plainProps, r.lookup prop.path = some (recalled s₀.locale record updates prop) := by
  subst hschema
  have hmem : t ∈ m.schema.types := List.mem_of_find?_eq_some htype
  have hplaced := compile_placed hcompile
  have ht := hplaced.types t hmem
  have hk := compile_packed hcompile t hmem
  have ha := compile_addressed hcompile t hmem
  have hfound := hplaced.ids t hmem
  obtain ⟨store, s', n, hflush, hresolved, hnode, hfits, hn, hholds⟩ := writeAll_flush ⟨hfound, ht, hk, ha⟩ htype hroom rfl
    hnext hrecord hupdates hstart hwrite hout (by omega)
  have hshows := shows_of_holds m.schema ht hk (start_locale hcompile hstart) hfits.sorted (by omega) hholds
  have hid : t.id ≠ 0 := fun hzero => by
    rw [hzero] at hfound
    cases hfound
  -- The record is no longer than what was buffered, twice.
  have hlen := Result.length_recordInstrs_le_of_shows ht hk hfits.main hfits.sorted hshows
  have hmax : Limits.maxMainLength = 65535 := rfl
  have hmain := ht.room
  obtain ⟨r, hdecode, hlookup⟩ := Result.decodeBody_everything ht ha hfits.main hshows (by omega)
  have hanswer := query_everything (m := { m with store }) hfound ht hk hnode hfits.main rfl
  have hread := Result.decodeResult_frame m.schema (Query.everythingPlan t) (m.store.create t).1
    ((recordInstrs m.schema t n).flatMap Result.Instr.encode ++ Result.Instr.stop.encode)
    (by rw [List.length_append]; change _ + 1 < _; omega)
  refine ⟨_, _, _, _, _, r.insert "id" (.int (.ofInt (m.store.create t).1.toNat)), hflush, hresolved,
    Query.compile_everything htype hid _, hanswer, ?_, fun prop hprop => ?_⟩
  · refine hread.trans ?_
    rw [Result.decodeNode, hdecode]
    rfl
  · obtain ⟨hmem, href⟩ := List.mem_filter.1 hprop
    have hhead : prop.path.head? ≠ some "id" := fun hhead => by
      have hfree := ha.unreserved prop hmem (by simpa using href) "id" (List.mem_of_head? hhead)
      exact absurd hfree (by decide)
    rw [Record.lookup_insert_of_ne hhead, hlookup prop hprop]

/-! ### Articles -/

namespace Articles

/-- Articles with a number of stars, three unless another one is given, and a title. -/
def decl : SchemaDecl where
  locales := [{ code := "en" }]
  types := [("article", [("stars", .leaf .uint8 { default := some (.int 3) } []), ("title", .leaf .text {} [])])]

def en : Locale := ⟨"en", 20, [], false⟩

def flatStars : Schema.FlatProp := ⟨["stars"], .uint8, { default := some (.int 3) }, []⟩

def flatTitle : Schema.FlatProp := ⟨["title"], .text, {}, []⟩

def context : Schema.Context where
  typeNames := ["article"]
  localeIds := [20]
  priority := fun _ => PropDef.defaultPriority

def stars : PropDef EdgeLayout := Schema.unplaced context flatStars 1 true none none

def title : PropDef EdgeLayout := Schema.unplaced context flatTitle 0 false none none

def article : TypeLayout where
  name := "article"
  id := 1
  mainLen := 1
  props := [stars, { title with location := .separate 1 }]
  tree := [("stars", .leaf 0), ("title", .leaf 1)]
  mainDefaults := [3]

def layout : SchemaLayout := ⟨[article], [en], Sha256.digest (describeSchema [article] [en])⟩

theorem layoutOf_article : Schema.layoutOf context.priority "article" 1 [stars, title] = .ok article := by
  unfold Schema.layoutOf
  rw [show [stars, title].filter (·.isMain) = [stars] from rfl, List.mergeSort_singleton,
    show ([stars, title].filter fun p => !p.isMain) = [title] from rfl, List.mergeSort_singleton]
  rfl

theorem typeLayouts_article : Schema.typeLayouts context 1 [("article", [flatStars, flatTitle])] [] = .ok ([article], []) := by
  have htype : Schema.typeLayout context "article" 1 [flatStars, flatTitle] [] = .ok (article, []) := by
    unfold Schema.typeLayout
    rw [StateT.bind_eq_ok]
    refine ⟨(), [], rfl, StateT.bind_eq_ok.2 ⟨[stars, title], [], rfl, ?_⟩⟩
    exact StateT.lift_eq_ok.2 ⟨layoutOf_article, rfl⟩
  exact StateT.bind_eq_ok.2 ⟨article, [], htype, rfl⟩

theorem flattenTypes_decl : Schema.flattenTypes ∅ decl.types = .ok [("article", [flatStars, flatTitle])] := by
  rw [decl, Schema.flattenTypes, if_neg (by simp)]
  rfl

theorem compile_decl : decl.compile = .ok layout := by
  have hsort : Schema.sortTypes [("article", [flatStars, flatTitle])] = [("article", [flatStars, flatTitle])] :=
    List.mergeSort_singleton _
  have hlocales : Schema.compileLocales decl.locales = .ok [en] := by
    unfold Schema.compileLocales
    refine Except.bind_eq_ok.2 ⟨[en], rfl, ?_⟩
    rw [List.mergeSort_singleton, Schema.dropRepeated]
    rfl
  unfold SchemaDecl.compile
  rw [hlocales, flattenTypes_decl]
  refine Except.bind_eq_ok.2 ⟨[en], rfl, ?_⟩
  rw [if_neg (by decide)]
  refine Except.bind_eq_ok.2 ⟨_, rfl, Except.bind_eq_ok.2 ⟨[("article", [flatStars, flatTitle])], by rw [hsort]; rfl, ?_⟩⟩
  exact Except.bind_eq_ok.2 ⟨([article], []), typeLayouts_article, rfl⟩

/-- A session that writes plain strings as English texts. -/
def fresh : Session where
  schema := layout
  maxBuffer := Limits.defaultMaxBuffer
  lenient := false
  locale := 20
  encoder := .new Limits.defaultMaxBuffer
  registry := .empty
  outbox := []
  nextSeq := 1

def firstVersion : Record := [("stars", .int 5)]

def edits : List Record := [[("title", .string "draft")], [("stars", .null)], [("title", .text [("en", "final")])]]

end Articles

open Articles in
/-- An article with five stars; it gets a title, its stars are unset, and it gets another title. -/
theorem writeAll_recalled_article :
    ∃ p s m' s' id q bytes r, decl.compile = .ok layout ∧ start layout {} = .ok fresh ∧
      writeAll "article" firstVersion edits fresh = .ok p s ∧ flush Memory.apply (.new layout) s = (.ok (), m', s') ∧
      s'.resolved? p = .ok (some id) ∧ (Query.everything "article" id).compile layout = .ok q ∧ m'.query q.bytes = .ok bytes ∧
      q.decode bytes = .ok ⟨1, [.ok r]⟩ ∧ r.lookup ["stars"] = some (.int 3) ∧
      r.lookup ["title"] = some (.text [("en", "final")]) := by
  have hrun : (match writeAll "article" firstVersion edits fresh with
      | .ok _ s => s.outbox.isEmpty && decide (s.bufferedLength < 2 ^ 31 - 2 ^ 16)
      | .error .. => false) = true := by decide +kernel
  have hdraft : PlainRecord article firstVersion := ⟨by decide +kernel, by decide +kernel⟩
  have hedits : ∀ edit ∈ edits, PlainRecord article edit := by
    have honce : ∀ edit ∈ edits, ∀ p ∈ article.props, (Record.writesAt p.path edit).length ≤ 1 := by decide +kernel
    have hplain : ∀ p ∈ article.props, p.type.isReference = false := by decide +kernel
    exact fun edit hedit => ⟨honce edit hedit, fun p hp href => absurd href (by simp [hplain p hp])⟩
  cases hwrite : writeAll "article" firstVersion edits fresh with
  | error =>
    rw [hwrite] at hrun
    cases hrun
  | ok p s =>
    rw [hwrite] at hrun
    obtain ⟨hout, hsize⟩ : s.outbox = [] ∧ s.bufferedLength < 2 ^ 31 - 2 ^ 16 := by simpa using hrun
    have hstart : start layout {} = .ok fresh := rfl
    obtain ⟨m', s', id, q, bytes, r, hflush, hresolved, hquery, hanswer, hdecode, hlookup⟩ :=
      writeAll_recalled compile_decl rfl hdraft hedits hstart hwrite hout hsize (m := .new layout) rfl rfl rfl
    have hplain : article.plainProps = [stars, { title with location := .separate 1 }] := rfl
    rw [hplain] at hlookup
    refine ⟨p, s, m', s', id, q, bytes, r, compile_decl, hstart, rfl, hflush, hresolved, hquery, hanswer, hdecode, ?_, ?_⟩
    · exact hlookup stars List.mem_cons_self
    · exact hlookup _ (List.mem_cons_of_mem _ List.mem_cons_self)

end Session

end NodeStore.Write
