import Mathlib
import NodeStore.Proofs.Result.GroupCounts

/-!
# Labels of groups

An answer with groups is read to a record that has each of them under the label of its key. Different keys have different
labels, but for one pair: nodes that have no label of an enum are put under null, like those with the label of that name.

* `Grouped`: the values that nodes are grouped by; `Grouped.eq_or_null`: those with the same label.
* `Ambiguous`: keys of which two have the same label; `nodup_labels_iff`.
* `decodeAggregates_labels`: an answer is read if its labels are all different.
* `group_labels`: answers over the stores of sessions.
-/

namespace NodeStore.Result

open Query (GroupBy Aggregate)
open Engine (groupBytes groupsOf)
open Wire (Reads)

/-! ## Values and their labels -/

/-- The values that nodes are grouped by. -/
inductive Grouped (p : PropDef EdgeLayout) : Value → Prop
  | unset (h : p.type = .enum) : Grouped p .null
  | label (h : p.type = .enum) {s : String} (hs : s ∈ p.enumValues) : Grouped p (.string s)
  | bool (h : p.type = .boolean) (b : Bool) : Grouped p (.bool b)
  | int (h : p.type.isInteger = true) (i : Int64) : Grouped p (.int i)
  | string (h : p.type = .string ∨ p.type = .alias) (s : String) : Grouped p (.string s)

section

variable {p : PropDef EdgeLayout} {bucket : Nat} {v w : Value}

theorem Grouped.exists_label (h : Grouped p v) : ∃ l, labelOf v = .ok l := by
  cases h <;> exact ⟨_, rfl⟩

/-- Values with the same label are the same, or one of them is unset. -/
theorem Grouped.eq_or_null (hv : Grouped p v) (hw : Grouped p w) (h : labelOf v = labelOf w) :
    v = w ∨ (v = .null ∧ w = .string "null") ∨ (v = .string "null" ∧ w = .null) := by
  cases hv with
  | unset ht =>
    cases hw with
    | unset => exact .inl rfl
    | label => exact .inr (.inl ⟨rfl, congrArg Value.string (Except.ok.inj h).symm⟩)
    | bool ht' | int ht' | string ht' => simp [ht, PropType.isInteger] at ht'
  | label ht =>
    cases hw with
    | unset => exact .inr (.inr ⟨congrArg Value.string (Except.ok.inj h), rfl⟩)
    | label => exact .inl (congrArg Value.string (Except.ok.inj h))
    | bool ht' | int ht' | string ht' => simp [ht, PropType.isInteger] at ht'
  | bool ht b =>
    cases hw with
    | bool _ b' => cases b <;> cases b' <;> first | exact .inl rfl | exact absurd (Except.ok.inj h) (by decide)
    | unset ht' | label ht' | int ht' | string ht' => simp [ht, PropType.isInteger] at ht'
  | int ht i =>
    cases hw with
    | int _ j => exact .inl (congrArg Value.int (Int64.toInt_inj.1 (Int.repr_inj.1 (Except.ok.inj h))))
    | unset ht' | label ht' | bool ht' => simp [ht', PropType.isInteger] at ht
    | string ht' => rcases ht' with ht' | ht' <;> simp [ht', PropType.isInteger] at ht
  | string ht s =>
    cases hw with
    | string => exact .inl (congrArg Value.string (Except.ok.inj h))
    | unset ht' | label ht' | bool ht' => simp [ht'] at ht
    | int ht' => rcases ht with ht | ht <;> simp [ht, PropType.isInteger] at ht'

theorem grouped_of_decodeFixed {bs : Bytes} (ht : p.type ∈ [.enum, .boolean, .string, .alias] ∨ p.type.isInteger = true)
    (h : p.decodeFixed bs = .ok v) : Grouped p v := by
  unfold PropDef.decodeFixed at h
  split at h
  · cases h
  cases htype : p.type <;> simp only [htype] at h
  case enum =>
    split at h
    · cases h
      exact .unset htype
    · split at h <;> cases h
      exact .label htype (List.mem_of_getElem? ‹_›)
  case boolean =>
    split at h
    · cases h
      exact .bool htype _
    · split at h <;> cases h
      exact .bool htype _
  case string =>
    obtain ⟨content, -, h⟩ := Except.bind_eq_ok.1 h
    split at h <;> cases h
    exact .string (.inl htype) _
  case timestamp | int8 | int16 | int32 | uint8 | uint16 | uint32 =>
    cases h
    exact .int (by rw [htype]; rfl) _
  case number | binary => simp [htype, PropType.isInteger] at ht
  all_goals cases h

variable {key : Bytes} {g : GroupBy}

theorem Key.groupLabel_eq (h : Key p bucket key v) : groupLabel p bucket key = labelOf v := by
  rw [groupLabel, h.keyValue_eq]
  rfl

theorem Key.grouped (hm : p.Measured) (hs : g.supports p = true) (hnumber : p.type ≠ .number) (h : Key p g.bucket key v) :
    Grouped p v := by
  cases h with
  | start _ hint => exact .int hint _
  | main hzero _ _ hv =>
    refine grouped_of_decodeFixed ?_ hv
    rw [GroupBy.supports, if_neg (by omega)] at hs
    cases htype : p.type <;> simp [htype, PropType.isInteger] at hs ⊢
  | string hzero hmain _ =>
    rcases GroupBy.supports_cases hm hs hnumber with ⟨hbucket, -⟩ | ⟨-, hmain'⟩ | ⟨-, hstring, -⟩
    · omega
    · exact absurd (hmain'.symm.trans hmain) Bool.noConfusion
    · exact .string hstring _

end

/-! ## Keys of groups -/

/-- Two of the keys have the same label: that of unset values, and that of the values which are called null. -/
def Ambiguous (p : PropDef EdgeLayout) (bucket : Nat) (keys : List Bytes) : Prop :=
  ∃ k ∈ keys, ∃ k' ∈ keys, keyValue p bucket k = .ok .null ∧ keyValue p bucket k' = .ok (.string "null")

section

variable {p : PropDef EdgeLayout} {bucket : Nat} {keys : List Bytes}
  (hkeys : ∀ k ∈ keys, ∃ v, Key p bucket k v ∧ Grouped p v)
include hkeys

/-- The property is an enum then that has such a label. -/
theorem Ambiguous.enum (h : Ambiguous p bucket keys) : p.type = .enum ∧ "null" ∈ p.enumValues := by
  obtain ⟨k, hk, k', hk', hnull, hlabel⟩ := h
  obtain ⟨v, hv, hgrouped⟩ := hkeys k hk
  obtain ⟨w, hw, hgrouped'⟩ := hkeys k' hk'
  cases hv.keyValue_eq.symm.trans hnull
  cases hw.keyValue_eq.symm.trans hlabel
  cases hgrouped with
  | unset ht =>
    cases hgrouped' with
    | label _ hs => exact ⟨ht, hs⟩
    | string ht' => simp [ht] at ht'

theorem exists_labels : ∃ label : Bytes → String, ∀ k ∈ keys, groupLabel p bucket k = .ok (label k) := by
  have hlabel : ∀ k, ∃ l, k ∈ keys → groupLabel p bucket k = .ok l := fun k => by
    by_cases hk : k ∈ keys
    · obtain ⟨v, hv, hgrouped⟩ := hkeys k hk
      obtain ⟨l, hl⟩ := hgrouped.exists_label
      exact ⟨l, fun _ => hv.groupLabel_eq.trans hl⟩
    · exact ⟨"", fun hk' => absurd hk' hk⟩
  choose label hlabel using hlabel
  exact ⟨label, hlabel⟩

/-- Other keys have labels that are all different. -/
theorem nodup_labels_iff (hnodup : keys.Nodup) {label : Bytes → String}
    (hlabel : ∀ k ∈ keys, groupLabel p bucket k = .ok (label k)) : (keys.map label).Nodup ↔ ¬Ambiguous p bucket keys := by
  constructor
  · rintro hlabels ⟨k, hk, k', hk', hnull, hname⟩
    have hsame : label k = label k' := by
      have hk := hlabel k hk
      have hk' := hlabel k' hk'
      rw [groupLabel, hnull] at hk
      rw [groupLabel, hname] at hk'
      exact (Except.ok.inj hk).symm.trans (Except.ok.inj hk')
    obtain rfl := List.inj_on_of_nodup_map hlabels hk hk' hsame
    cases hnull.symm.trans hname
  · intro hclear
    refine hnodup.map_on fun k hk k' hk' hsame => ?_
    obtain ⟨v, hv, hgrouped⟩ := hkeys k hk
    obtain ⟨w, hw, hgrouped'⟩ := hkeys k' hk'
    have hlabels : labelOf v = labelOf w := by
      rw [← hv.groupLabel_eq, ← hw.groupLabel_eq, hlabel k hk, hlabel k' hk', hsame]
    rcases hgrouped.eq_or_null hgrouped' hlabels with rfl | ⟨rfl, rfl⟩ | ⟨rfl, rfl⟩
    · exact hv.inj hw
    · exact absurd ⟨k, hk, k', hk', hv.keyValue_eq, hw.keyValue_eq⟩ hclear
    · exact absurd ⟨k', hk', k, hk, hw.keyValue_eq, hv.keyValue_eq⟩ hclear

end

/-! ## Reading the groups -/

/-- The records of groups, each under a label for its key. -/
def groupEntries (t : TypeLayout) (as : List Aggregate) (label : Bytes → String) (groups : List (Bytes × List Nat)) :
    List (String × Value) :=
  groups.map fun group => (label group.1, .object (groupRecord t as group.2))

/-- A record with one entry for each group, under the label of its key. -/
structure Labelled (t : TypeLayout) (as : List Aggregate) (p : PropDef EdgeLayout) (bucket : Nat)
    (groups : List (Bytes × List Nat)) (r : Record) : Prop where
  distinct : (r.map (·.1)).Nodup
  entries : ∃ label : Bytes → String, (∀ group ∈ groups, groupLabel p bucket group.1 = .ok (label group.1)) ∧
    r.Perm (groupEntries t as label groups)

section

variable {t : TypeLayout} {as : List Aggregate} {p : PropDef EdgeLayout} {bucket : Nat} {groups : List (Bytes × List Nat)}
  {label : Bytes → String}

/-- Labels that are all different are those of the record. -/
theorem labelled_ofList (hlabel : ∀ group ∈ groups, groupLabel p bucket group.1 = .ok (label group.1))
    (hdistinct : (groups.map fun group => label group.1).Nodup) :
    Labelled t as p bucket groups (Record.ofList (groupEntries t as label groups)) := by
  have hkeys : (groupEntries t as label groups).map Prod.fst = groups.map fun group => label group.1 := List.map_map
  have hperm := Assoc.ofList_perm (hkeys ▸ hdistinct)
  exact ⟨(hperm.map _).nodup_iff.2 (hkeys ▸ hdistinct), label, hlabel, hperm⟩

variable (ha : t.Addressed) (has : ∀ a ∈ as, a.Accepted t)
  (hgroups : ∀ group ∈ groups, group.2.length = as.length ∧ group.1.length < 2 ^ 32)
include ha has hgroups

theorem reads_groups (hlabel : ∀ group ∈ groups, groupLabel p bucket group.1 = .ok (label group.1)) :
    Reads (readGroups (as.map (·.result t)) p bucket groups.length) (groups.flatMap groupBytes)
      (groups.map fun group => (label group.1, groupRecord t as group.2)) := by
  induction groups with
  | nil => exact .pure _
  | cons group groups ih =>
    obtain ⟨hfits, hgroups⟩ := List.forall_mem_cons.1 hgroups
    obtain ⟨hfirst, hlabel⟩ := List.forall_mem_cons.1 hlabel
    rw [List.length_cons, readGroups, List.flatMap_cons, List.map_cons]
    refine (reads_group ha has hfits.1 hfits.2).bind ?_
    simp only [hfirst]
    exact (ih hgroups hlabel).bind_pure (.pure _)

/-- An answer with groups is read if their labels are all different, and refused if one of them occurs twice. -/
theorem decodeAggregates_labels (hlabel : ∀ group ∈ groups, groupLabel p bucket group.1 = .ok (label group.1))
    {plan : Query.AggregatePlan} (hresults : plan.results = as.map (·.result t)) (hplan : plan.group = some (p, bucket))
    (hlength : groups.length < 2 ^ 32) :
    decodeAggregates plan (leBytes 4 groups.length ++ groups.flatMap groupBytes) =
      if repeats (groups.map fun group => label group.1) then .error (.malformed "duplicate group key")
      else .ok (Record.ofList (groupEntries t as label groups)) := by
  have htotal := Reads.nat (w := 4) hlength "aggregate groups" 0 (groups.flatMap groupBytes)
  have hread := reads_groups ha has hgroups hlabel (0 + (leBytes 4 groups.length).length) []
  rw [List.append_nil, ← hresults] at hread
  rw [decodeAggregates, Wire.Read.run, readAggregates, Wire.Reader.ofBytes, EStateM.bind_of_ok htotal, hplan]
  dsimp only
  rw [EStateM.bind_of_ok hread]
  have hend : ∀ pos, Wire.Read.atEnd ⟨pos, []⟩ = .ok true ⟨pos, []⟩ := fun _ => rfl
  rw [EStateM.bind_of_ok (hend _), if_neg (by decide), List.map_map, List.map_map]
  dsimp only [Function.comp_def]
  by_cases hrepeats : repeats (groups.map fun group => label group.1) = true
  · rw [if_pos hrepeats, if_pos hrepeats]
    rfl
  · rw [if_neg hrepeats, if_neg hrepeats]
    rfl

/-- It is refused if the keys are ambiguous, and only then. -/
theorem decodeAggregates_keyed (hkeys : ∀ k ∈ groups.map (·.1), ∃ v, Key p bucket k v ∧ Grouped p v)
    (hnodup : (groups.map (·.1)).Nodup) {plan : Query.AggregatePlan} (hresults : plan.results = as.map (·.result t))
    (hplan : plan.group = some (p, bucket)) (hlength : groups.length < 2 ^ 32) :
    (¬Ambiguous p bucket (groups.map (·.1)) →
        ∃ r, decodeAggregates plan (leBytes 4 groups.length ++ groups.flatMap groupBytes) = .ok r ∧
          Labelled t as p bucket groups r) ∧
      (Ambiguous p bucket (groups.map (·.1)) →
        decodeAggregates plan (leBytes 4 groups.length ++ groups.flatMap groupBytes) =
          .error (.malformed "duplicate group key")) := by
  obtain ⟨label, hlabels⟩ := exists_labels hkeys
  have hlabel : ∀ group ∈ groups, groupLabel p bucket group.1 = .ok (label group.1) := fun group hgroup =>
    hlabels _ (List.mem_map_of_mem hgroup)
  have hdistinct := nodup_labels_iff hkeys hnodup hlabels
  rw [List.map_map, Function.comp_def] at hdistinct
  rw [decodeAggregates_labels ha has hgroups hlabel hresults hplan hlength]
  refine ⟨fun hclear => ?_, fun hambiguous => ?_⟩
  · have hnodup := hdistinct.2 hclear
    rw [if_neg (by rw [repeats_eq_false_iff.2 hnodup]; exact Bool.false_ne_true)]
    exact ⟨_, rfl, labelled_ofList hlabel hnodup⟩
  · refine if_pos (Bool.not_eq_false _ ▸ fun hrepeats => ?_)
    exact hdistinct.1 (repeats_eq_false_iff.1 hrepeats) hambiguous

end

/-! ## Answers over stores -/

section

variable {decl : SchemaDecl} {priority : Priority} {schema : SchemaLayout} {m : Engine.Memory} {t : TypeLayout}
  {p : PropDef EdgeLayout}

theorem Key.length_lt (ht : t.Placed) (hp : p ∈ t.props) {bucket : Nat} {key : Bytes} {v : Value} (h : Key p bucket key v) :
    key.length < 2 ^ 32 := by
  cases h with
  | start => rw [length_intBytes]; decide
  | main _ hmain hbs _ =>
    obtain ⟨a, ha⟩ := PropDef.offset?_of_isMain hmain
    have hin := ht.inside p hp a ha
    have hroom := ht.room
    have hmax : Limits.maxMainLength = 65535 := rfl
    rw [hbs.length]
    omega
  | string _ _ hlen => exact hlen

section

variable {g : GroupBy} {as : List Aggregate} {nodes : List Engine.StoredNode} {answers : List (Bytes × List Nat)}
  (h : List.Forall₂ (fun group out => out.1 = group.1 ∧
    as.mapM (fun a => Engine.compute a.kind.code (a.spec t) group.2) = .ok out.2)
    (groupsOf (some ⟨.ofProp p, g.bucket⟩) nodes) answers)
include h

theorem nodup_answers : (answers.map (·.1)).Nodup := by
  have hsame : answers.map (·.1) = (groupsOf (some ⟨.ofProp p, g.bucket⟩) nodes).map (·.1) := by
    rw [← List.forall₂_eq_eq_eq, List.forall₂_map_left_iff, List.forall₂_map_right_iff]
    exact h.flip.imp fun _ _ h => h.1
  rw [hsame]
  exact Engine.nodup_groupsOf _ _

variable (ht : t.Placed) (hp : p ∈ t.props) (hs : g.supports p = true) (hnumber : p.type ≠ .number)
  (hnodes : ∀ n ∈ nodes, Engine.Node.Canonical t n)
include ht hp hs hnumber hnodes

/-- Canonical nodes are answered in groups whose keys are those of values. -/
theorem key_answers {out : Bytes × List Nat} (hout : out ∈ answers) : ∃ v, Key p g.bucket out.1 v := by
  obtain ⟨group, hgroup, hsame, -⟩ := exists_of_forall₂_left h.flip hout
  obtain ⟨hmembers, hfull⟩ := Engine.mem_groupsOf.1 hgroup
  obtain ⟨n, hn⟩ := List.exists_mem_of_ne_nil _ hfull
  rw [hmembers] at hn
  obtain ⟨hmem, hkey⟩ := List.mem_filter.1 hn
  rw [hsame]
  rcases groupKey_spec ht hp hs hnumber (hnodes n hmem) with ⟨hnone, -⟩ | ⟨key, v, hsome, -, hk⟩
  · exact absurd (hnone.symm.trans (of_decide_eq_true hkey)) nofun
  · cases hsome.symm.trans (of_decide_eq_true hkey)
    exact ⟨_, hk⟩

theorem grouped_answers : ∀ k ∈ answers.map (·.1), ∃ v, Key p g.bucket k v ∧ Grouped p v := by
  intro k hk
  obtain ⟨out, hout, rfl⟩ := List.mem_map.1 hk
  obtain ⟨v, hv⟩ := key_answers h ht hp hs hnumber hnodes hout
  exact ⟨v, hv, hv.grouped (ht.measured p hp) hs hnumber⟩

theorem length_answers : ∀ out ∈ answers, out.2.length = as.length ∧ out.1.length < 2 ^ 32 := by
  intro out hout
  obtain ⟨group, -, -, hvalues⟩ := exists_of_forall₂_left h.flip hout
  obtain ⟨v, hv⟩ := key_answers h ht hp hs hnumber hnodes hout
  exact ⟨(mapM_eq_ok hvalues).1, hv.length_lt ht hp⟩

end

end

end NodeStore.Result
