import NodeStore.Proofs.Query.Results
import NodeStore.Proofs.Result.Aggregates
import NodeStore.Proofs.Write.Stores

/-!
# Groups of nodes

Nodes are put into groups by the bytes of a key. For canonical nodes these say as much as the values that they hold, so the
groups are those of equal values, or those of the buckets that integers fall into.

* `groupsOf_sorted`, `mem_groupsOf`, `sum_length_groupsOf`: each group has all nodes with its key.
* `bucketOf`: the start of the bucket of a value; `bucketOf_eq_iff`.
* `Key`: what a key stands for; `Key.inj`, and `groupKey_spec` for the key of a node.
* `Partitions`: groups that put hits together by what they hold; `partitions_hitGroups`.
-/

namespace NodeStore

/-! ## Groups by their keys -/

namespace Engine

variable {g : Grouping} {nodes : List StoredNode}

theorem groupsOf_concat (g : Grouping) (nodes : List StoredNode) (n : StoredNode) :
    groupsOf (some g) (nodes ++ [n]) = addToGroup g (groupsOf (some g) nodes) n := by
  simp [groupsOf, List.foldl_append]

theorem addToGroup_of_key {n : StoredNode} {key : Bytes} (h : groupKey g n = some key)
    (groups : List (Bytes × List StoredNode)) :
    addToGroup g groups n = Assoc.insert key ((Assoc.find? key groups).getD [] ++ [n]) groups := by
  rw [addToGroup, h]

theorem addToGroup_of_none {n : StoredNode} (h : groupKey g n = none) (groups : List (Bytes × List StoredNode)) :
    addToGroup g groups n = groups := by
  rw [addToGroup, h]

/-- The groups stand in the order of their keys. -/
theorem groupsOf_sorted (g : Grouping) (nodes : List StoredNode) : Assoc.Sorted (groupsOf (some g) nodes) := by
  induction nodes using List.reverseRecOn with
  | nil => exact .nil
  | append_singleton nodes n ih =>
    rw [groupsOf_concat]
    cases h : groupKey g n with
    | none => rwa [addToGroup_of_none h]
    | some key =>
      rw [addToGroup_of_key h]
      exact ih.insert ..

/-- The nodes with a key. -/
def withKey (g : Grouping) (key : Bytes) (nodes : List StoredNode) : List StoredNode :=
  nodes.filter fun n => groupKey g n = some key

theorem withKey_concat (g : Grouping) (key : Bytes) (nodes : List StoredNode) (n : StoredNode) :
    withKey g key (nodes ++ [n]) = withKey g key nodes ++ if groupKey g n = some key then [n] else [] := by
  by_cases h : groupKey g n = some key <;> simp [withKey, List.filter_append, h]

/-- A group holds all nodes with its key. -/
theorem find?_groupsOf (g : Grouping) (key : Bytes) (nodes : List StoredNode) :
    (Assoc.find? key (groupsOf (some g) nodes)).getD [] = withKey g key nodes ∧
      ∀ ns, Assoc.find? key (groupsOf (some g) nodes) = some ns → ns ≠ [] := by
  induction nodes using List.reverseRecOn with
  | nil => exact ⟨rfl, nofun⟩
  | append_singleton nodes n ih =>
    rw [groupsOf_concat, withKey_concat]
    cases h : groupKey g n with
    | none => simpa [addToGroup_of_none h] using ih
    | some k =>
      rw [addToGroup_of_key h, Assoc.find?_insert]
      by_cases hk : key = k
      · subst hk
        simp [ih.1]
      · have hne : ¬k = key := fun he => hk he.symm
        simpa [hk, hne] using ih

theorem mem_groupsOf {x : Bytes × List StoredNode} :
    x ∈ groupsOf (some g) nodes ↔ x.2 = withKey g x.1 nodes ∧ x.2 ≠ [] := by
  obtain ⟨hmembers, hne⟩ := find?_groupsOf g x.1 nodes
  constructor
  · intro hx
    have hfind := (groupsOf_sorted g nodes).find?_of_mem hx
    rw [hfind] at hmembers
    exact ⟨hmembers, hne _ hfind⟩
  · rintro ⟨hx, hfull⟩
    cases hfind : Assoc.find? x.1 (groupsOf (some g) nodes) with
    | none =>
      rw [hfind] at hmembers
      exact absurd (hx.trans hmembers.symm) hfull
    | some ns =>
      rw [hfind] at hmembers
      obtain rfl : ns = x.2 := hmembers.trans hx.symm
      exact Assoc.mem_of_find? hfind

/-- Every node with a key is in one group. -/
theorem sum_length_groupsOf (g : Grouping) (nodes : List StoredNode) :
    ((groupsOf (some g) nodes).map (·.2.length)).sum = nodes.countP fun n => (groupKey g n).isSome := by
  induction nodes using List.reverseRecOn with
  | nil => rfl
  | append_singleton nodes n ih =>
    rw [groupsOf_concat, List.countP_append, ← ih]
    cases h : groupKey g n with
    | none => simp [addToGroup_of_none h, h]
    | some key =>
      have hsum := (groupsOf_sorted g nodes).sum_insert List.length key
        ((Assoc.find? key (groupsOf (some g) nodes)).getD [] ++ [n])
      rw [addToGroup_of_key h]
      simp only [List.countP_singleton, h, Option.isSome_some, if_true]
      cases hfind : Assoc.find? key (groupsOf (some g) nodes) <;> simp [hfind] at hsum ⊢ <;> omega

/-- There are no more groups than nodes. -/
theorem length_groupsOf_le (g : Grouping) (nodes : List StoredNode) : (groupsOf (some g) nodes).length ≤ nodes.length := by
  have hcount := List.length_le_sum_of_one_le ((groupsOf (some g) nodes).map (·.2.length)) fun k hk => by
    obtain ⟨group, hgroup, rfl⟩ := List.mem_map.1 hk
    exact List.length_pos_iff.2 (mem_groupsOf.1 hgroup).2
  rw [sum_length_groupsOf, List.length_map] at hcount
  exact hcount.trans List.countP_le_length

theorem nodup_groupsOf (g : Grouping) (nodes : List StoredNode) : ((groupsOf (some g) nodes).map (·.1)).Nodup :=
  (groupsOf_sorted g nodes).imp fun {a b} (h : a < b) (he : a = b) => Std.lt_irrefl (he ▸ h)

theorem mem_of_contentOf {slot : UInt8} {n : StoredNode} {bs : Bytes} (h : contentOf slot n = some bs) :
    (slot, .bytes bs) ∈ n.fields := by
  unfold contentOf at h
  split at h
  · rename_i hfield
    cases h
    exact Assoc.mem_of_find? hfield
  · cases h

end Engine

/-! ## What keys stand for -/

namespace Query

variable {p : PropDef EdgeLayout} {g : GroupBy}

/-- Nodes are grouped by the buckets of an integer, by a main value, or by a string of its own. -/
theorem GroupBy.supports_cases (hm : p.Measured) (hs : g.supports p = true) (hnumber : p.type ≠ .number) :
    (0 < g.bucket ∧ p.type.isInteger = true) ∨ (g.bucket = 0 ∧ p.isMain = true) ∨
      (g.bucket = 0 ∧ (p.type = .string ∨ p.type = .alias) ∧ ∃ slot, p.slot? = some slot) := by
  unfold GroupBy.supports at hs
  split at hs
  · rename_i hbucket
    obtain ⟨-, hnumeric⟩ := Bool.and_eq_true_iff.1 hs
    refine .inl ⟨hbucket, ?_⟩
    simpa [PropType.isNumeric, hnumber] using hnumeric
  · rename_i hbucket
    have hzero : g.bucket = 0 := by omega
    cases hmain : p.isMain with
    | true => exact .inr (.inl ⟨hzero, rfl⟩)
    | false =>
      have hfixed := hm.fixed
      refine .inr (.inr ⟨hzero, ?_, PropDef.isMain_eq_false_iff.1 hmain⟩)
      cases ht : p.type <;> simp only [ht, hmain] at hs hfixed ⊢ <;>
        first
          | exact .inl trivial
          | exact .inr trivial
          | cases hs; done
          | exact absurd (hfixed 1 rfl).1 Bool.false_ne_true

end Query

namespace Result

open Query (GroupBy)
open Engine (StoredNode FieldSpec Grouping groupKey contentOf clamp readInt bucketStart)

/-! ### Buckets -/

section

variable {bucket : Nat}

theorem leInt_intBytes_of_int64 {i : Int} (hlow : -2 ^ 63 ≤ i) (hhigh : i < 2 ^ 63) : leInt (intBytes 8 i) = i := by
  have hrange : PropType.timestamp.intRange? = some (-9223372036854775808, 9223372036854775807) := rfl
  have h := Engine.readInt_intBytes hrange rfl (i := i) (by omega) (by omega)
  rwa [PropType.isSigned, readInt, if_pos rfl, List.take_of_length_le (by rw [length_intBytes])] at h

theorem clamp_int64 (i : Int) : -2 ^ 63 ≤ clamp (-2 ^ 63) (2 ^ 63 - 1) i ∧ clamp (-2 ^ 63) (2 ^ 63 - 1) i < 2 ^ 63 := by
  unfold clamp
  omega

/-- Different buckets have different starts, although that of the least one may be out of range. -/
theorem clamp_lt_of_quotient_lt (hbucket : 0 < bucket) {i j : Int} (hi : -2 ^ 63 ≤ i) (hj : j < 2 ^ 63)
    (h : i / bucket < j / bucket) :
    clamp (-2 ^ 63) (2 ^ 63 - 1) (i / bucket * bucket) < clamp (-2 ^ 63) (2 ^ 63 - 1) (j / bucket * bucket) := by
  have hpos : (0 : Int) < bucket := by omega
  have hnext : (i / bucket + 1) * bucket ≤ j / bucket * bucket := Int.mul_le_mul_of_nonneg_right h hpos.le
  have hbelow := Int.lt_ediv_add_one_mul_self i hpos
  have habove := Int.ediv_mul_le j (Int.ne_of_gt hpos)
  have hsplit : (i / bucket + 1) * bucket = i / bucket * bucket + bucket := by rw [Int.add_mul, Int.one_mul]
  unfold clamp
  omega

/-- The start of the bucket of an integer, which is the value itself for the width 0. -/
def bucketOf (bucket : Nat) : Value → Value
  | .int i => if bucket = 0 then .int i else .int (.ofInt (clamp (-2 ^ 63) (2 ^ 63 - 1) (i.toInt / bucket * bucket)))
  | v => v

theorem bucketOf_zero (v : Value) : bucketOf 0 v = v := by cases v <;> rfl

theorem bucketOf_int (hbucket : 0 < bucket) (i : Int64) :
    bucketOf bucket (.int i) = .int (.ofInt (clamp (-2 ^ 63) (2 ^ 63 - 1) (i.toInt / bucket * bucket))) :=
  if_neg (Nat.ne_of_gt hbucket)

/-- Integers are in one bucket if their quotients are the same. -/
theorem bucketOf_eq_iff (hbucket : 0 < bucket) {i j : Int64} :
    bucketOf bucket (.int i) = bucketOf bucket (.int j) ↔ i.toInt / bucket = j.toInt / bucket := by
  rw [bucketOf_int hbucket, bucketOf_int hbucket]
  refine ⟨fun h => ?_, fun h => by rw [h]⟩
  have hstart := congrArg Int64.toInt (Value.int.inj h)
  rw [Int64.toInt_ofInt_of_le (clamp_int64 _).1 (clamp_int64 _).2, Int64.toInt_ofInt_of_le (clamp_int64 _).1 (clamp_int64 _).2]
    at hstart
  have hi := i.le_toInt
  have hj := j.le_toInt
  have hi' := i.toInt_lt
  have hj' := j.toInt_lt
  rcases Int.lt_trichotomy (i.toInt / bucket) (j.toInt / bucket) with hlt | heq | hlt
  · exact absurd hstart (Int.ne_of_lt (clamp_lt_of_quotient_lt hbucket (by omega) (by omega) hlt))
  · exact heq
  · exact absurd hstart.symm (Int.ne_of_lt (clamp_lt_of_quotient_lt hbucket (by omega) (by omega) hlt))

end

/-! ### Keys -/

/-- The keys of nodes, each with what it stands for: the start of a bucket, a main value, or a string. -/
inductive Key (p : PropDef EdgeLayout) (bucket : Nat) : Bytes → Value → Prop
  | start (hbucket : 0 < bucket) (hint : p.type.isInteger = true) {i : Int} (hlow : -2 ^ 63 ≤ i) (hhigh : i < 2 ^ 63) :
      Key p bucket (intBytes 8 i) (.int (.ofInt i))
  | main (hzero : bucket = 0) (hmain : p.isMain = true) {bs : Bytes} {v : Value} (hbs : p.Canonical bs)
      (hv : p.decodeFixed bs = .ok v) : Key p bucket bs v
  | string (hzero : bucket = 0) (hmain : p.isMain = false) {s : String} (hlen : (Utf8.encode s).length < 2 ^ 32) :
      Key p bucket (Utf8.encode s) (.string s)

namespace Key

variable {p : PropDef EdgeLayout} {bucket : Nat} {k k' : Bytes} {v : Value}

theorem keyValue_eq (h : Key p bucket k v) : keyValue p bucket k = .ok v := by
  unfold keyValue
  cases h with
  | start hbucket hint hlow hhigh =>
    have hnumber : p.type ≠ .number := by rintro he; rw [he] at hint; cases hint
    rw [if_pos hbucket, if_neg (by simp), if_neg hnumber, leInt_intBytes_of_int64 hlow hhigh]
  | main hzero hmain hbs hv => rw [if_neg (by omega), if_pos hmain, hv]
  | string hzero hmain hlen => rw [if_neg (by omega), if_neg (by rw [hmain]; exact Bool.false_ne_true), Utf8.decode?_encode]

/-- Keys of the same value are the same. -/
theorem inj (h : Key p bucket k v) (h' : Key p bucket k' v) : k = k' := by
  cases h with
  | start hbucket hint hlow hhigh =>
    generalize hv : Value.int _ = v at h'
    cases h' with
    | start _ _ hlow' hhigh' =>
      have hi := congrArg Int64.toInt (Value.int.inj hv)
      rw [Int64.toInt_ofInt_of_le hlow hhigh, Int64.toInt_ofInt_of_le hlow' hhigh'] at hi
      rw [hi]
    | main hzero | string hzero => omega
  | main hzero hmain hbs hv =>
    cases h' with
    | start hbucket => omega
    | main _ _ hbs' hv' => exact hbs.eq_of_decodeFixed hbs' hv hv'
    | string _ hmain' => exact absurd (hmain.symm.trans hmain') Bool.noConfusion
  | string hzero hmain hlen =>
    generalize hv : Value.string _ = v at h'
    cases h' with
    | start hbucket => omega
    | main _ hmain' => exact absurd (hmain.symm.trans hmain') Bool.noConfusion
    | string => rw [Value.string.inj hv]

end Key

/-! ### Keys of nodes -/

/-- The value that a node has in a property; a separate string may be unset. -/
def valueOf? (p : PropDef EdgeLayout) (n : StoredNode) : Option Value :=
  match p.slot? with
  | none => (p.decodeFixed (p.slice n.main)).toOption
  | some slot => (contentOf slot n).bind fun bs => (Utf8.decode? bs).map .string

section

variable {t : TypeLayout} {p : PropDef EdgeLayout} {n : StoredNode}

theorem main?_ofProp (ht : t.Placed) (hp : p ∈ t.props) (hmain : p.isMain = true) (hn : n.main.length = t.mainLen) :
    (FieldSpec.ofProp p).main? n = some (p.slice n.main) := by
  obtain ⟨a, ha⟩ := PropDef.offset?_of_isMain hmain
  have hin := ht.inside p hp a ha
  rw [FieldSpec.main?, FieldSpec.ofProp, PropDef.slice, ha, hmain, if_neg (by simp only [Option.getD_some, if_true]; omega)]
  rfl

theorem isMain_ofProp (ht : t.Placed) (hp : p ∈ t.props) : (FieldSpec.ofProp p).isMain = p.isMain := by
  rw [FieldSpec.isMain, FieldSpec.ofProp]
  cases hmain : p.isMain with
  | true => simp [PropDef.slot?_of_isMain hmain]
  | false =>
    obtain ⟨slot, hslot⟩ := PropDef.isMain_eq_false_iff.1 hmain
    rw [hslot]
    exact decide_eq_false (Query.slot_separate ht hp hslot).2

theorem groupKey_main (ht : t.Placed) (hp : p ∈ t.props) (hmain : p.isMain = true) (hn : n.main.length = t.mainLen) :
    groupKey ⟨.ofProp p, 0⟩ n = some (p.slice n.main) := by
  rw [groupKey, if_pos ((isMain_ofProp ht hp).trans hmain), if_pos rfl, main?_ofProp ht hp hmain hn]

theorem groupKey_separate (ht : t.Placed) (hp : p ∈ t.props) {slot : UInt8} (hslot : p.slot? = some slot) :
    groupKey ⟨.ofProp p, 0⟩ n = contentOf slot n := by
  have hmain := (isMain_ofProp ht hp).trans (PropDef.isMain_of_slot? hslot)
  have hspec : (FieldSpec.ofProp p).slot = slot := by rw [FieldSpec.ofProp, hslot, Option.getD_some]
  rw [groupKey, if_neg (by rw [hmain]; exact Bool.false_ne_true), hspec]
  rfl

theorem groupKey_bucket (ht : t.Placed) (hp : p ∈ t.props) (hint : p.type.isInteger = true) (hn : n.main.length = t.mainLen)
    {bucket : Nat} (hbucket : 0 < bucket) :
    groupKey ⟨.ofProp p, bucket⟩ n = some (bucketStart bucket (.int (readInt p.type.isSigned (p.slice n.main)))) := by
  obtain ⟨-, a, ha⟩ := (ht.measured p hp).number (by simp [PropType.isNumeric, hint])
  have hmain := PropDef.isMain_of_offset? ha
  have hnum : Engine.Num.ofBytes? p.type (p.slice n.main) = some (.int (readInt p.type.isSigned (p.slice n.main))) := by
    rw [Engine.Num.ofBytes?, if_neg (by rintro he; rw [he] at hint; cases hint),
      if_neg (by rintro he; rw [he] at hint; cases hint), if_pos hint]
  rw [groupKey, if_pos ((isMain_ofProp ht hp).trans hmain), if_neg (Nat.ne_of_gt hbucket), FieldSpec.num?,
    main?_ofProp ht hp hmain hn]
  change (Engine.Num.ofBytes? p.type (p.slice n.main)).map _ = _
  rw [hnum]
  rfl

theorem valueOf?_main (hmain : p.isMain = true) {v : Value} (h : p.decodeFixed (p.slice n.main) = .ok v) :
    valueOf? p n = some v := by
  rw [valueOf?, PropDef.slot?_of_isMain hmain]
  simp only [h]
  rfl

/-- The value of an integer property, as it is stored. -/
theorem valueOf?_integer (ht : t.Placed) (hp : p ∈ t.props) (hint : p.type.isInteger = true) (hn : n.main.length = t.mainLen) :
    ∃ i : Int64, valueOf? p n = some (.int i) ∧ i.toInt = readInt p.type.isSigned (p.slice n.main) := by
  have hm := ht.measured p hp
  obtain ⟨hw, a, ha⟩ := hm.number (by simp [PropType.isNumeric, hint])
  have hlen : (p.slice n.main).length = p.len := length_slice ha (hn ▸ ht.inside p hp a ha)
  refine ⟨.ofInt (readInt p.type.isSigned (p.slice n.main)), ?_, Engine.toInt_readInt hint hw hlen⟩
  exact valueOf?_main (PropDef.isMain_of_offset? ha) (decodeFixed_integer hint hw hlen)

variable {g : GroupBy} {key : Bytes}

/-- A node with a value is grouped by the start of its bucket, and one without is in no group. -/
theorem groupKey_spec (ht : t.Placed) (hp : p ∈ t.props) (hs : g.supports p = true) (hnumber : p.type ≠ .number)
    (hn : Engine.Node.Canonical t n) :
    (groupKey ⟨.ofProp p, g.bucket⟩ n = none ∧ valueOf? p n = none) ∨
      ∃ key v, groupKey ⟨.ofProp p, g.bucket⟩ n = some key ∧ valueOf? p n = some v ∧
        Key p g.bucket key (bucketOf g.bucket v) := by
  rcases Query.GroupBy.supports_cases (ht.measured p hp) hs hnumber with ⟨hbucket, hint⟩ | ⟨hzero, hmain⟩ |
    ⟨hzero, hstring, slot, hslot⟩
  · obtain ⟨i, hvalue, hi⟩ := valueOf?_integer ht hp hint hn.length
    refine .inr ⟨_, _, groupKey_bucket ht hp hint hn.length hbucket, hvalue, ?_⟩
    rw [bucketOf_int hbucket, hi]
    exact .start hbucket hint (clamp_int64 _).1 (clamp_int64 _).2
  · have hbytes := hn.main p hp hmain
    have ⟨v, hv, _⟩ := hbytes
    rw [hzero, groupKey_main ht hp hmain hn.length]
    refine .inr ⟨_, v, rfl, valueOf?_main hmain hv, ?_⟩
    rw [bucketOf_zero]
    exact .main rfl hmain hbytes hv
  · rw [hzero, groupKey_separate ht hp hslot, valueOf?, hslot]
    dsimp only
    cases hcontent : contentOf slot n with
    | none => exact .inl ⟨rfl, rfl⟩
    | some bs =>
      obtain ⟨hlen, s, rfl⟩ := hn.strings p hp hstring slot hslot bs (Engine.mem_of_contentOf hcontent)
      rw [Option.bind_some, Utf8.decode?_encode]
      exact .inr ⟨_, _, rfl, rfl, .string rfl (PropDef.isMain_of_slot? hslot) hlen⟩

end

/-! ### Groups of hits -/

open Engine (Subject groupsOf withKey)

/-- The groups of some hits, each with the hits that have its key. -/
def hitGroups (g : Grouping) (hits : List Subject) : List (Bytes × List Subject) :=
  (groupsOf (some g) (hits.map (·.node))).map fun group => (group.1, hits.filter fun x => groupKey g x.node = some group.1)

section

variable {g : Grouping} {hits : List Subject}

theorem withKey_map_node (key : Bytes) :
    withKey g key (hits.map (·.node)) = (hits.filter fun x => groupKey g x.node = some key).map (·.node) :=
  List.filter_map ..

theorem mem_hitGroups {group : Bytes × List Subject} :
    group ∈ hitGroups g hits ↔ (group.2 = hits.filter fun x => groupKey g x.node = some group.1) ∧ group.2 ≠ [] := by
  rw [hitGroups, List.mem_map]
  constructor
  · rintro ⟨x, hx, rfl⟩
    obtain ⟨hnodes, hfull⟩ := Engine.mem_groupsOf.1 hx
    rw [hnodes, withKey_map_node] at hfull
    exact ⟨rfl, fun h => hfull (List.map_eq_nil_iff.2 h)⟩
  · rintro ⟨hgroup, hfull⟩
    refine ⟨(group.1, withKey g group.1 (hits.map (·.node))), Engine.mem_groupsOf.2 ⟨rfl, ?_⟩, ?_⟩
    · rw [withKey_map_node, ← hgroup]
      simpa using hfull
    · rw [← hgroup]

theorem mem_of_mem_hitGroups {group : Bytes × List Subject} (h : group ∈ hitGroups g hits) {x : Subject} :
    x ∈ group.2 ↔ x ∈ hits ∧ groupKey g x.node = some group.1 := by
  rw [(mem_hitGroups.1 h).1, List.mem_filter, decide_eq_true_iff]

theorem exists_hitGroup {x : Subject} (hx : x ∈ hits) {key : Bytes} (hkey : groupKey g x.node = some key) :
    ∃ group ∈ hitGroups g hits, group.1 = key ∧ x ∈ group.2 := by
  have hmem : x ∈ hits.filter fun y => groupKey g y.node = some key := List.mem_filter.2 ⟨hx, decide_eq_true hkey⟩
  exact ⟨(key, _), mem_hitGroups.2 ⟨rfl, List.ne_nil_of_mem hmem⟩, rfl, hmem⟩

theorem keys_hitGroups : (hitGroups g hits).map (·.1) = (groupsOf (some g) (hits.map (·.node))).map (·.1) := by
  rw [hitGroups, List.map_map]
  rfl

theorem nodup_hitGroups : ((hitGroups g hits).map (·.1)).Nodup := by
  rw [keys_hitGroups]
  exact Engine.nodup_groupsOf g _

/-- The groups have as many hits as the engine counts in them. -/
theorem lengths_hitGroups (g : Grouping) (hits : List Subject) : (hitGroups g hits).map (fun group => (group.1, group.2.length)) =
    (groupsOf (some g) (hits.map (·.node))).map fun group => (group.1, group.2.length) := by
  rw [hitGroups, List.map_map]
  refine List.map_congr_left fun group hgroup => ?_
  rw [(Engine.mem_groupsOf.1 hgroup).1, withKey_map_node, List.length_map]
  rfl

theorem sum_length_hitGroups :
    ((hitGroups g hits).map (·.2.length)).sum = hits.countP fun x => (groupKey g x.node).isSome := by
  have hlengths := congrArg (List.map Prod.snd) (lengths_hitGroups g hits)
  rw [List.map_map, List.map_map] at hlengths
  have hsum := Engine.sum_length_groupsOf g (hits.map (·.node))
  rw [List.countP_map] at hsum
  exact (congrArg List.sum hlengths).trans hsum

end

/-- Two hits are in one group. -/
def Together (groups : List (Bytes × List Subject)) (x y : Subject) : Prop := ∃ group ∈ groups, x ∈ group.2 ∧ y ∈ group.2

/-- Groups that put hits together by what they hold in a property. -/
structure Partitions (p : PropDef EdgeLayout) (bucket : Nat) (hits : List Subject) (groups : List (Bytes × List Subject)) :
    Prop where
  distinct : (groups.map (·.1)).Nodup
  inside : ∀ group ∈ groups, group.2 ≠ [] ∧ group.2.Sublist hits
  /-- A hit with a value is in one group, and one without is in none. -/
  once : ∀ x ∈ hits, (valueOf? p x.node).isSome = true → ∃! group, group ∈ groups ∧ x ∈ group.2
  never : ∀ x ∈ hits, valueOf? p x.node = none → ∀ group ∈ groups, x ∉ group.2
  /-- Each hit has a value in a main property, so the groups count them all. -/
  total : p.isMain = true → (∀ x ∈ hits, (valueOf? p x.node).isSome = true) ∧ (groups.map (·.2.length)).sum = hits.length
  values : bucket = 0 → ∀ x ∈ hits, ∀ y ∈ hits,
    Together groups x y ↔ ∃ v, valueOf? p x.node = some v ∧ valueOf? p y.node = some v
  /-- Buckets are those of the quotients, rounded down, and keys are their starts as far as they are in range. -/
  buckets : 0 < bucket → ∀ x ∈ hits, ∃ i : Int64, valueOf? p x.node = some (.int i) ∧
    (∀ y ∈ hits, ∀ j : Int64, valueOf? p y.node = some (.int j) → (Together groups x y ↔ i.toInt / bucket = j.toInt / bucket)) ∧
    ∀ group ∈ groups, x ∈ group.2 → group.1 = intBytes 8 (clamp (-2 ^ 63) (2 ^ 63 - 1) (bucket * (i.toInt / bucket)))

section

variable {t : TypeLayout} {p : PropDef EdgeLayout} {g : GroupBy} {hits : List Subject}

theorem together_iff {g : Grouping} {x y : Subject} (hx : x ∈ hits) (hy : y ∈ hits) :
    Together (hitGroups g hits) x y ↔ ∃ key, groupKey g x.node = some key ∧ groupKey g y.node = some key := by
  constructor
  · rintro ⟨group, hgroup, hxg, hyg⟩
    exact ⟨group.1, ((mem_of_mem_hitGroups hgroup).1 hxg).2, ((mem_of_mem_hitGroups hgroup).1 hyg).2⟩
  · rintro ⟨key, hxkey, hykey⟩
    obtain ⟨group, hgroup, rfl, hxg⟩ := exists_hitGroup hx hxkey
    exact ⟨group, hgroup, hxg, (mem_of_mem_hitGroups hgroup).2 ⟨hy, hykey⟩⟩

variable (ht : t.Placed) (hp : p ∈ t.props) (hs : g.supports p = true) (hnumber : p.type ≠ .number)
include ht hp hs hnumber

/-- Two hits are together if their values have buckets with the same start. -/
theorem together_iff_bucketOf {x y : Subject} (hx : x ∈ hits) (hy : y ∈ hits) (hxn : Engine.Node.Canonical t x.node)
    (hyn : Engine.Node.Canonical t y.node) : Together (hitGroups ⟨.ofProp p, g.bucket⟩ hits) x y ↔
      ∃ v w, valueOf? p x.node = some v ∧ valueOf? p y.node = some w ∧ bucketOf g.bucket v = bucketOf g.bucket w := by
  rw [together_iff hx hy]
  rcases groupKey_spec ht hp hs hnumber hxn with ⟨hkey, hvalue⟩ | ⟨key, v, hkey, hvalue, hk⟩
  · simp [hkey, hvalue]
  rcases groupKey_spec ht hp hs hnumber hyn with ⟨hkey', hvalue'⟩ | ⟨key', w, hkey', hvalue', hk'⟩
  · simp [hkey', hvalue']
  constructor
  · rintro ⟨k, hxk, hyk⟩
    cases hxk.symm.trans hkey
    cases hyk.symm.trans hkey'
    exact ⟨v, w, hvalue, hvalue', Except.ok.inj (hk.keyValue_eq.symm.trans hk'.keyValue_eq)⟩
  · rintro ⟨v', w', hv, hw, heq⟩
    cases hv.symm.trans hvalue
    cases hw.symm.trans hvalue'
    exact ⟨key, hkey, (hk.inj (heq ▸ hk')) ▸ hkey'⟩

/-- Hits with canonical nodes are put together by their values. -/
theorem partitions_hitGroups (hcanonical : ∀ x ∈ hits, Engine.Node.Canonical t x.node) :
    Partitions p g.bucket hits (hitGroups ⟨.ofProp p, g.bucket⟩ hits) := by
  have hgrouped : ∀ x ∈ hits, (groupKey ⟨.ofProp p, g.bucket⟩ x.node).isSome = (valueOf? p x.node).isSome := by
    intro x hx
    rcases groupKey_spec ht hp hs hnumber (hcanonical x hx) with ⟨hkey, hvalue⟩ | ⟨key, v, hkey, hvalue, -⟩ <;>
      rw [hkey, hvalue] <;> rfl
  refine ⟨nodup_hitGroups, fun group hgroup => ?_, fun x hx hvalue => ?_, fun x hx hvalue group hgroup hmem => ?_,
    fun hmain => ?_, fun hzero x hx y hy => ?_, fun hbucket x hx => ?_⟩
  · obtain ⟨heq, hfull⟩ := mem_hitGroups.1 hgroup
    exact ⟨hfull, heq ▸ List.filter_sublist⟩
  · obtain ⟨key, hkey⟩ := Option.isSome_iff_exists.1 ((hgrouped x hx).trans hvalue)
    obtain ⟨group, hgroup, rfl, hmem⟩ := exists_hitGroup hx hkey
    refine ⟨group, ⟨hgroup, hmem⟩, fun group' ⟨hgroup', hmem'⟩ => ?_⟩
    have hsame := ((mem_of_mem_hitGroups hgroup').1 hmem').2.symm.trans hkey
    exact List.inj_on_of_nodup_map nodup_hitGroups hgroup' hgroup (Option.some.inj hsame)
  · have hkey := hgrouped x hx
    rw [((mem_of_mem_hitGroups hgroup).1 hmem).2, hvalue] at hkey
    cases hkey
  · have hsome : ∀ x ∈ hits, (valueOf? p x.node).isSome = true := fun x hx => by
      obtain ⟨v, hv, -⟩ := (hcanonical x hx).main p hp hmain
      rw [valueOf?_main hmain hv]
      rfl
    refine ⟨hsome, ?_⟩
    rw [sum_length_hitGroups, List.countP_eq_length]
    exact fun x hx => (hgrouped x hx).trans (hsome x hx)
  · rw [together_iff_bucketOf ht hp hs hnumber hx hy (hcanonical x hx) (hcanonical y hy), hzero]
    simp [bucketOf_zero]
  · rcases Query.GroupBy.supports_cases (ht.measured p hp) hs hnumber with ⟨-, hint⟩ | ⟨hzero, -⟩ | ⟨hzero, -⟩
    · obtain ⟨i, hvalue, hi⟩ := valueOf?_integer ht hp hint (hcanonical x hx).length
      refine ⟨i, hvalue, fun y hy j hj => ?_, fun group hgroup hmem => ?_⟩
      · rw [together_iff_bucketOf ht hp hs hnumber hx hy (hcanonical x hx) (hcanonical y hy), hvalue, hj,
          ← bucketOf_eq_iff hbucket]
        simp
      · have hkey := ((mem_of_mem_hitGroups hgroup).1 hmem).2
        rw [groupKey_bucket ht hp hint (hcanonical x hx).length hbucket, ← hi] at hkey
        rw [← Option.some.inj hkey, bucketStart, Int.mul_comm]
    all_goals omega

end

end Result

end NodeStore
