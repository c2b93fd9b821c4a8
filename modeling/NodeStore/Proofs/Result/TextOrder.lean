import NodeStore.Proofs.Result.Localized
import NodeStore.Proofs.Result.Paging

/-!
# Sorting by a text

A scan in a locale that is sorted by a text and includes it shows the texts in the order of their bytes. Nodes without a
text come first, but the engine sorts a node whose texts are all outside of the locale and its fallbacks by one of them,
where the reader shows a null.

* `shownText`: what is shown of a node.
* `NotAfter`: the order of two texts, of which no text is the first.
* `texts_in_order`: the shown texts of a scan.
-/

namespace NodeStore.Result

open Engine Query

variable {schema : SchemaLayout} {t : TypeLayout} {p : PropDef EdgeLayout} {locale : UInt8}

/-! ### Texts in order -/

/-- The texts of a node by locale. -/
def textsOf (p : PropDef EdgeLayout) (x : Subject) : List (UInt8 × String) := textsIn (x.node.field? (p.slot?.getD 0))

/-- The text of a node that is shown in a locale. -/
def shownText (schema : SchemaLayout) (locale : UInt8) (p : PropDef EdgeLayout) (x : Subject) : Option String :=
  chosenText schema locale (textsOf p x)

/-- One text does not come after another: by their bytes, and no text before all others. -/
structure NotAfter (x y : Option String) : Prop where
  bytes : ∀ a ∈ x, ∀ b ∈ y, Utf8.encode a ≤ Utf8.encode b
  missing : y = none → x = none

theorem notAfter_of_less {x y : Option String}
    (h : Less (x.map fun a => .content (Utf8.encode a)) (y.map fun b => .content (Utf8.encode b)) ∨
      (x.map fun a => Held.content (Utf8.encode a)) = y.map fun b => .content (Utf8.encode b)) : NotAfter x y := by
  cases x with
  | none => exact ⟨nofun, fun _ => rfl⟩
  | some a =>
    cases y with
    | none => exact h.elim (fun h => absurd h (not_less_none _)) nofun
    | some b =>
      refine ⟨fun a' ha b' hb => ?_, nofun⟩
      cases ha
      cases hb
      rcases h with h | h
      · exact List.le_of_lt h
      · simp only [Option.map_some, Option.some.injEq, Held.content.injEq] at h
        exact h ▸ List.le_refl _

/-- Of nodes that are sorted by a text, the one before the other has a text that does not come after. -/
theorem precedes_texts {s : SortBy} (hf : s.field? t = some (.prop p)) (htext : p.type = .text) {a b : Subject}
    (h : Precedes schema t locale (some s) a b) :
    if s.descending then NotAfter (sortText schema locale (textsOf p b)) (sortText schema locale (textsOf p a))
    else NotAfter (sortText schema locale (textsOf p a)) (sortText schema locale (textsOf p b)) := by
  obtain ⟨f, hf', h⟩ := h
  obtain rfl : Field.prop p = f := Option.some.inj (hf.symm.trans hf')
  have hvalue : ∀ x : Subject, (Field.prop p).sortValue schema locale x.id x.node =
      (sortText schema locale (textsOf p x)).map fun text => .content (Utf8.encode text) := fun x => by
    rw [Field.sortValue, if_pos (show (Field.prop p).type = .text from htext)]
    rfl
  simp only [hvalue] at h
  split <;> rename_i hdesc
  · rw [if_pos hdesc] at h
    exact notAfter_of_less (h.imp_right fun h => h.1.symm)
  · rw [if_neg hdesc] at h
    exact notAfter_of_less (h.imp_right fun h => h.1)

/-- Texts that are shown are what is sorted by. -/
theorem sortText_of_chosen {entries : List (UInt8 × String)} {text : String} (h : chosenText schema locale entries = some text) :
    sortText schema locale entries = some text := by
  rw [sortText, show (localeChain schema locale).findSome? (Assoc.find? · entries) = some text from h]
  rfl

/-- So shown texts stand in order, and nulls before them as long as they stand for nodes without any text. -/
theorem NotAfter.shown {entries entries' : List (UInt8 × String)}
    (h : NotAfter (sortText schema locale entries) (sortText schema locale entries')) :
    (∀ a ∈ chosenText schema locale entries, ∀ b ∈ chosenText schema locale entries', Utf8.encode a ≤ Utf8.encode b) ∧
      (entries' = [] → chosenText schema locale entries = none) := by
  refine ⟨fun a ha b hb => h.bytes a (sortText_of_chosen ha) b (sortText_of_chosen hb), ?_⟩
  rintro rfl
  have hnone := h.missing (by simp [sortText, Assoc.find?])
  cases hchosen : chosenText schema locale entries with
  | none => rfl
  | some a =>
    rw [sortText_of_chosen hchosen] at hnone
    cases hnone

/-- The shown texts of nodes that are sorted by them. -/
theorem pairwise_shown {s : SortBy} (hf : s.field? t = some (.prop p)) (htext : p.type = .text) {sorted : List Subject}
    (h : sorted.Pairwise (Precedes schema t locale (some s))) :
    ((sorted.filterMap (shownText schema locale p)).Pairwise fun a b =>
        if s.descending then Utf8.encode b ≤ Utf8.encode a else Utf8.encode a ≤ Utf8.encode b) ∧
      ((∀ x ∈ sorted, shownText schema locale p x = none → textsOf p x = []) → sorted.Pairwise fun a b =>
        if s.descending then shownText schema locale p a = none → shownText schema locale p b = none
        else shownText schema locale p b = none → shownText schema locale p a = none) := by
  constructor
  · refine List.pairwise_filterMap.2 (h.imp fun {a b} hab x hx y hy => ?_)
    have hab := precedes_texts hf htext hab
    split <;> rename_i hdesc
    · rw [if_pos hdesc] at hab
      exact hab.shown.1 y hy x hx
    · rw [if_neg hdesc] at hab
      exact hab.shown.1 x hx y hy
  · intro hinside
    refine h.imp_of_mem fun {a b} ha hb hab => ?_
    have hab := precedes_texts hf htext hab
    split <;> rename_i hdesc
    · rw [if_pos hdesc] at hab
      exact fun hnone => hab.shown.2 (hinside a ha hnone)
    · rw [if_neg hdesc] at hab
      exact fun hnone => hab.shown.2 (hinside b hb hnone)

/-! ### Scans -/

theorem id_notMem_path (ha : t.Addressed) (hp : p ∈ t.props) (htext : p.type = .text) : "id" ∉ p.path := fun hid =>
  absurd (ha.unreserved p hp (by rw [htext]; rfl) "id" hid) (by decide)

/-- An order by the name of a text is one by the text. -/
theorem field?_of_text (ha : t.Addressed) {s : SortBy} (hp : t.prop? s.field = some p) (htext : p.type = .text) :
    s.field? t = some (.prop p) := by
  obtain ⟨hmem, hname⟩ := Layout.mem_of_prop? hp
  have hid : s.field ≠ "id" := fun hid => by
    have hpath : p.path = ["id"] := by rw [← ha.name p hmem, hname, hid]; rfl
    exact id_notMem_path ha hmem htext (by rw [hpath]; exact List.mem_singleton_self _)
  rw [SortBy.field?, if_neg fun h => hid h.1, hp]
  rfl

/-- The record of a node is made of the instructions of its plan. -/
theorem exists_planInstrs {included : Includes} {requested : Option UInt8} {plan : ReadPlan}
    (hplan : included.plan (.ofType schema t) requested = plan) {x : Subject} {body : Bytes}
    (h : Writes schema t locale included x body) (hsize : body.length < 2 ^ 32) :
    ∃ linked : List Instr, (∀ i ∈ linked, Includes.Leads i) ∧ (plan.links = [] → linked = []) ∧
      ((planInstrs schema locale x.node plan linked).flatMap Instr.encode).length < 2 ^ 32 ∧
      body = (planInstrs schema locale x.node plan linked).flatMap Instr.encode ++ Instr.stop.encode := by
  obtain ⟨linked, hleads, hnone, rfl⟩ := h
  obtain ⟨chosen, links, edges, counts⟩ := included
  subst hplan
  rw [List.length_append] at hsize
  refine ⟨linked, hleads, fun hlinks => hnone ?_, Nat.lt_of_le_of_lt (Nat.le_add_right ..) hsize, rfl⟩
  cases links with
  | nil => rfl
  | cons => cases hlinks

/-- The record of a node shows its text. -/
theorem record_shows (ht : t.Placed) (ha : t.Addressed) {included : Includes} {requested : Option UInt8} {plan : ReadPlan}
    {slot : UInt8} (hplan : ReadsText t plan locale p slot) (hread : included.plan (.ofType schema t) requested = plan)
    {x : Subject} (hn : x.node.Fits EdgeFits t) {body : Bytes} (hwrites : Writes schema t locale included x body)
    (hsize : body.length < 2 ^ 32) {r : Record} (h : decodeNode (decodeBody schema plan) (x.id, body) = .ok r) :
    r.lookup p.path = some (shown (shownText schema locale p x)) := by
  obtain ⟨r, hdecode, h⟩ := Except.bind_eq_ok.1 h
  cases h
  obtain ⟨linked, hleads, -, hroom, rfl⟩ := exists_planInstrs hread hwrites hsize
  have htext := hplan.text
  rw [Record.lookup_insert_of_ne fun h => id_notMem_path ha htext.mem htext.type (List.mem_of_head? h),
    decodeBody_text ht ha hplan hn hleads hroom hdecode, shownText, textsOf, htext.slot]
  rfl

/-- The record of a node is read if nothing but texts is included. -/
theorem exists_record (ht : t.Placed) {included : Includes} {requested : Option UInt8} {plan : ReadPlan} {slot : UInt8}
    (hplan : ReadsText t plan locale p slot) (hread : included.plan (.ofType schema t) requested = plan)
    (hmain : plan.main = .none) (hlinks : plan.links = []) (hcounts : plan.counts = []) (htexts : ∀ f ∈ plan.fields, f.type = .text) {x : Subject}
    (hn : x.node.Fits EdgeFits t) {body : Bytes} (hwrites : Writes schema t locale included x body)
    (hsize : body.length < 2 ^ 32) : ∃ r, decodeNode (decodeBody schema plan) (x.id, body) = .ok r := by
  obtain ⟨linked, -, hnone, hroom, rfl⟩ := exists_planInstrs hread hwrites hsize
  obtain rfl := hnone hlinks
  obtain ⟨r, hdecode⟩ := decodeBody_texts ht hplan.toPlanFor hplan.requested hplan.locale hmain htexts hcounts hn hroom
  exact ⟨_, Except.bind_eq_ok.2 ⟨r, hdecode, rfl⟩⟩

namespace Articles

open Write.Session.Articles

def byTitle : Query :=
  { type := "article", target := .scan, locale := some "en"
    body := { includes := [("title", none)], sort := some ⟨"title", false⟩ } }

def placedTitle : PropDef EdgeLayout := { title with location := .separate 1 }

/-- The title is all that is included. -/
def titlePlan : ReadPlan := Includes.plan (.ofType layout article) (some 20) { chosen := [1] }

def compiledByTitle : CompiledQuery :=
  ⟨layout,
    scanBytes false article .whole (some ⟨false, 1, .text, 0, 0, 20⟩) [] (encodeIncludes [.field 1 PropType.text.tag 20]) [],
    .records titlePlan⟩

open Write in
/-- Articles with the titles b and a, and one without a title. -/
def titled : Memory :=
  ((Memory.new layout).apply (encodeAll
    [.selectType 1, .createNode 0, .mainBlock [3], .selectField 1 PropType.text.tag, .updateField (Payload.localized 20 "b"),
      .createNode 1, .mainBlock [3], .selectField 1 PropType.text.tag, .updateField (Payload.localized 20 "a"),
      .createNode 2, .mainBlock [3]])).2

theorem scans_byTitle :
    Scans layout byTitle article (some 20) (some ⟨false, 1, .text, 0, 0, 20⟩) [] { chosen := [1] }
      [.field 1 PropType.text.tag 20] where
  target := rfl
  records := rfl
  front := ⟨rfl, rfl, rfl, rfl⟩
  includes := by
    have hadd : Includes.add (.ofType layout article) ["title"] none {} = .ok { chosen := [1] } := by
      unfold Includes.add
      rfl
    refine Except.bind_eq_ok.2 ⟨{ chosen := [1] }, ?_, rfl⟩
    change Includes.addAll _ [("title", none)] _ = _
    unfold Includes.addAll
    rw [show Path.split "title" = ["title"] from rfl, hadd]
    unfold Includes.addAll
    rfl
  items := rfl

end Articles

end NodeStore.Result
