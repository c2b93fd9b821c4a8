import NodeStore.Proofs.Record.Paths
import NodeStore.Schema.Compile

/-!
# The tree of paths

The properties of a layout are the leaves of a tree of path segments.

* `PathNode.induction_children`: induction over the nodes.
* `PathNode.leafAt?`: the property that a path leads to.
* `PathNode.Ordered`: the children of every branch are in the order of their names, each name once.
* `Schema.leafAt?_pathTree`: the tree of some properties whose paths are apart leads to each of them, and nowhere else.
* `PathNode.count_leavesAll`: a property that one path leads to is one leaf.
-/

namespace NodeStore

namespace PathNode

mutual

/-- Induction over the nodes of a tree, where the children of a branch are those that are found by a name. -/
theorem induction_children {motive : PathNode → Prop} (leaf : ∀ i, motive (.leaf i))
    (branch : ∀ children, (∀ s node, Assoc.find? s children = some node → motive node) → motive (.branch children)) :
    ∀ node, motive node
  | .leaf i => leaf i
  | .branch children => branch children (induction_find? leaf branch children)

theorem induction_find? {motive : PathNode → Prop} (leaf : ∀ i, motive (.leaf i))
    (branch : ∀ children, (∀ s node, Assoc.find? s children = some node → motive node) → motive (.branch children)) :
    ∀ (children : List (String × PathNode)) (s : String) (node : PathNode), Assoc.find? s children = some node → motive node
  | (_, node) :: others, s, node', h => by
    rw [Assoc.find?] at h
    split at h
    · cases h
      exact induction_children leaf branch node
    · exact induction_find? leaf branch others s node' h

end

/-- The property that a path leads to. -/
def leafAt? (children : List (String × PathNode)) : List String → Option Nat
  | [] => none
  | [k] =>
    match Assoc.find? k children with
    | some (leaf i) => some i
    | _ => none
  | k :: k' :: ks =>
    match Assoc.find? k children with
    | some (branch inner) => leafAt? inner (k' :: ks)
    | _ => none

@[simp] theorem leafAt?_nil (ks : List String) : leafAt? [] ks = none := by
  unfold leafAt?
  split <;> rfl

variable {k q : String} {qs : List String} {tree inner : List (String × PathNode)}

theorem leafAt?_of_none (h : Assoc.find? k tree = none) : leafAt? tree (k :: qs) = none := by
  cases qs <;> simp [leafAt?, h]

theorem leafAt?_of_branch (h : Assoc.find? k tree = some (branch inner)) : leafAt? tree (k :: qs) = leafAt? inner qs := by
  cases qs <;> simp [leafAt?, h]

theorem leafAt?_of_leaf {i : Nat} (h : Assoc.find? k tree = some (leaf i)) :
    leafAt? tree (k :: qs) = if qs = [] then some i else none := by
  cases qs <;> simp [leafAt?, h]

theorem leafAt?_insert_of_ne (h : q ≠ k) (n : PathNode) : leafAt? (Assoc.insert k n tree) (q :: qs) = leafAt? tree (q :: qs) := by
  cases qs <;> simp [leafAt?, Assoc.find?_insert_of_ne h]

theorem leafAt?_root (tree : List (String × PathNode)) : leafAt? tree [] = none := by rw [leafAt?]

/-- The property that a path leads to from a node. -/
def leafIn? : PathNode → List String → Option Nat
  | leaf i, ks => if ks = [] then some i else none
  | branch children, ks => leafAt? children ks

/-- The first segment decides which child the rest of a path starts from. -/
theorem leafAt?_of_find? {n : PathNode} (h : Assoc.find? k tree = some n) : leafAt? tree (k :: qs) = leafIn? n qs := by
  cases n with
  | leaf i => exact leafAt?_of_leaf h
  | branch inner => exact leafAt?_of_branch h

/-! ### Leaves -/

/-- The children of every branch are in the order of their names. -/
inductive Ordered : PathNode → Prop
  | leaf (i : Nat) : Ordered (.leaf i)
  | branch {children : List (String × PathNode)} (sorted : Assoc.Sorted children)
      (below : ∀ k n, (k, n) ∈ children → Ordered n) : Ordered (.branch children)

theorem Ordered.sorted {children : List (String × PathNode)} (h : Ordered (.branch children)) : Assoc.Sorted children := by
  cases h
  assumption

theorem Ordered.child {children : List (String × PathNode)} (h : Ordered (.branch children)) {n : PathNode}
    (hk : (k, n) ∈ children) : Ordered n := by
  cases h with
  | branch _ below => exact below k n hk

theorem Ordered.empty : Ordered (.branch []) := .branch .nil nofun

theorem Ordered.insert {children : List (String × PathNode)} (h : Ordered (.branch children)) (k : String)
    {n : PathNode} (hn : Ordered n) : Ordered (.branch (Assoc.insert k n children)) := by
  refine .branch (h.sorted.insert k n) fun j m hm => ?_
  rcases Assoc.mem_insert hm with he | hm
  · cases he
    exact hn
  · exact h.child hm

mutual

/-- A property that at most one path leads to is at most one leaf. -/
theorem count_leaves (i : Nat) : ∀ (node : PathNode) (ks : List String), node.Ordered →
    (∀ qs, leafIn? node qs = some i → qs = ks) → (leaves node).count i = if leafIn? node ks = some i then 1 else 0
  | leaf j, ks, _, hunique => by
    rw [leaves, List.count_singleton]
    by_cases hj : j = i
    · have hks : ([] : List String) = ks := hunique [] (by simp [leafIn?, hj])
      simp [leafIn?, hj, ← hks]
    · simp [leafIn?, hj]
  | branch children, ks, h, hunique => by
    rw [leaves]
    exact count_leavesAll i children ks h.sorted (fun _ _ hm => h.child hm) hunique

/-- The same among the children of a node. -/
theorem count_leavesAll (i : Nat) : ∀ (children : List (String × PathNode)) (ks : List String), Assoc.Sorted children →
    (∀ k n, (k, n) ∈ children → Ordered n) → (∀ qs, leafAt? children qs = some i → qs = ks) →
    (leavesAll children).count i = if leafAt? children ks = some i then 1 else 0
  | [], ks, _, _, _ => by simp [leavesAll]
  | (k, n) :: rest, ks, hsorted, hord, hunique => by
    obtain ⟨hk, hrest⟩ := List.pairwise_cons.1 hsorted
    have hnew : k ∉ rest.map Prod.fst := fun hm => absurd (hk k hm) (String.lt_irrefl k)
    have hself : ∀ qs, leafAt? ((k, n) :: rest) (k :: qs) = leafIn? n qs := fun qs =>
      leafAt?_of_find? (by simp [Assoc.find?])
    have hother : ∀ j qs, j ≠ k → leafAt? ((k, n) :: rest) (j :: qs) = leafAt? rest (j :: qs) := by
      intro j qs hj
      have hfind : Assoc.find? j ((k, n) :: rest) = Assoc.find? j rest := by rw [Assoc.find?, if_neg hj]
      cases qs <;> simp [leafAt?, hfind]
    have hlost : ∀ qs, leafAt? rest (k :: qs) = none := fun qs => leafAt?_of_none (Assoc.find?_eq_none_of_notMem hnew)
    -- What `rest` leads to, the whole list leads to by the same path.
    have hwithin : ∀ qs, leafAt? rest qs = some i → leafAt? ((k, n) :: rest) qs = some i := by
      intro qs hqs
      cases qs with
      | nil => rw [leafAt?_root] at hqs; cases hqs
      | cons j qs =>
        have hj : j ≠ k := fun he => by rw [he, hlost] at hqs; cases hqs
        rwa [hother j qs hj]
    have hrestCount := count_leavesAll i rest ks hrest (fun k' n' hm => hord k' n' (List.mem_cons_of_mem _ hm))
      fun qs hqs => hunique qs (hwithin qs hqs)
    rw [leavesAll, List.count_append, hrestCount]
    by_cases hks : ∃ qs, ks = k :: qs
    · obtain ⟨qs, rfl⟩ := hks
      rw [count_leaves i n qs (hord k n List.mem_cons_self) fun qs' hqs' =>
        List.tail_eq_of_cons_eq (hunique (k :: qs') ((hself qs').trans hqs')), hself, hlost]
      simp
    · have hnone : ∀ qs, leafIn? n qs ≠ some i := fun qs hqs =>
        hks ⟨qs, (hunique (k :: qs) ((hself qs).trans hqs)).symm⟩
      rw [count_leaves i n [] (hord k n List.mem_cons_self) fun qs hqs => absurd hqs (hnone qs), if_neg (hnone []),
        Nat.zero_add]
      cases ks with
      | nil => rw [leafAt?_root, leafAt?_root]
      | cons j qs => rw [hother j qs fun he => hks ⟨qs, by rw [he]⟩]

end

end PathNode

namespace Schema

open Path (Apart)
open PathNode

/-- What is inserted is found, if no property is on the way. -/
theorem leafAt?_insertPath_self {path : List String} (hne : path ≠ []) {tree : List (String × PathNode)}
    (hfree : ∀ ks, ks <+: path → leafAt? tree ks = none) (i : Nat) : leafAt? (insertPath i path tree) path = some i := by
  induction path generalizing tree with
  | nil => exact absurd rfl hne
  | cons k ks ih =>
    cases ks with
    | nil => simp [insertPath, leafAt?]
    | cons k' ks =>
      rw [insertPath]
      cases hf : Assoc.find? k tree with
      | none =>
        rw [leafAt?_of_branch (Assoc.find?_insert_self ..)]
        exact ih (by simp) fun _ _ => leafAt?_nil _
      | some n =>
        cases n with
        | leaf j =>
          have hk := hfree [k] ⟨k' :: ks, rfl⟩
          rw [leafAt?_of_leaf hf] at hk
          cases hk
        | branch inner =>
          simp only
          rw [leafAt?_of_branch (Assoc.find?_insert_self ..)]
          refine ih (by simp) fun qs hqs => ?_
          rw [← leafAt?_of_branch hf]
          exact hfree (k :: qs) ((List.prefix_cons_inj k).2 hqs)

/-- Only what is inserted is new. -/
theorem leafAt?_of_insertPath {path ks : List String} {tree : List (String × PathNode)} {i j : Nat}
    (h : leafAt? (insertPath i path tree) ks = some j) : ks = path ∨ leafAt? tree ks = some j := by
  induction path generalizing tree ks with
  | nil => exact .inr h
  | cons k path ih =>
    cases ks with
    | nil => cases h
    | cons q qs =>
      by_cases hq : q = k
      · subst hq
        cases path with
        | nil =>
          rw [insertPath, leafAt?_of_leaf (Assoc.find?_insert_self ..)] at h
          split at h
          · rename_i hqs
            exact .inl (by rw [hqs])
          · cases h
        | cons k' path =>
          rw [insertPath] at h
          cases hf : Assoc.find? q tree with
          | none =>
            rw [hf] at h
            simp only at h
            rw [leafAt?_of_branch (Assoc.find?_insert_self ..)] at h
            rcases ih h with rfl | h
            · exact .inl rfl
            · rw [leafAt?_nil] at h
              cases h
          | some n =>
            rw [hf] at h
            cases n with
            | leaf j => exact .inr h
            | branch inner =>
              simp only at h
              rw [leafAt?_of_branch (Assoc.find?_insert_self ..)] at h
              rcases ih h with rfl | h
              · exact .inl rfl
              · exact .inr (by rwa [leafAt?_of_branch hf])
      · refine .inr ?_
        cases path with
        | nil => rwa [insertPath, leafAt?_insert_of_ne hq] at h
        | cons k' path =>
          rw [insertPath] at h
          split at h
          · rwa [leafAt?_insert_of_ne hq] at h
          · rwa [leafAt?_insert_of_ne hq] at h
          · exact h

/-- What leads elsewhere is found as before. -/
theorem leafAt?_insertPath {path ks : List String} {tree : List (String × PathNode)} {j : Nat} (i : Nat)
    (hpath : ¬path <+: ks) (hks : ¬ks <+: path) (h : leafAt? tree ks = some j) :
    leafAt? (insertPath i path tree) ks = some j := by
  induction path generalizing tree ks with
  | nil => exact h
  | cons k path ih =>
    cases ks with
    | nil => cases h
    | cons q qs =>
      by_cases hq : q = k
      · subst hq
        rw [List.prefix_cons_inj] at hpath hks
        cases path with
        | nil => exact absurd List.nil_prefix hpath
        | cons k' path =>
          rw [insertPath]
          cases hf : Assoc.find? q tree with
          | none =>
            rw [leafAt?_of_none hf] at h
            cases h
          | some n =>
            cases n with
            | leaf j => exact h
            | branch inner =>
              simp only
              rw [leafAt?_of_branch (Assoc.find?_insert_self ..)]
              exact ih hpath hks (by rwa [leafAt?_of_branch hf] at h)
      · cases path with
        | nil => rwa [insertPath, leafAt?_insert_of_ne hq]
        | cons k' path =>
          rw [insertPath]
          split
          · rwa [leafAt?_insert_of_ne hq]
          · rwa [leafAt?_insert_of_ne hq]
          · exact h

theorem insertPath_ordered (i : Nat) (path : List String) {tree : List (String × PathNode)}
    (h : Ordered (.branch tree)) : Ordered (.branch (insertPath i path tree)) := by
  induction path generalizing tree with
  | nil => exact h
  | cons k ks ih =>
    cases ks with
    | nil => exact h.insert k (.leaf i)
    | cons k' ks =>
      rw [insertPath]
      split
      · exact h.insert k (ih .empty)
      · rename_i children hf
        exact h.insert k (ih (h.child (Assoc.mem_of_find? hf)))
      · exact h

/-! ### The tree of a layout -/

section

variable {E : Type}

theorem pathTree_ordered (index : Nat) (ds : List (PropDef E)) {tree : List (String × PathNode)}
    (h : Ordered (.branch tree)) : Ordered (.branch (pathTree index tree ds)) := by
  induction ds generalizing index tree with
  | nil => exact h
  | cons d ds ih => exact ih (index + 1) (insertPath_ordered index d.path h)

/-- The tree with some properties added leads to each of them, to what it led to before, and nowhere else. -/
theorem leafAt?_pathTree {ds : List (PropDef E)} (index : Nat) (tree : List (String × PathNode))
    (hne : ∀ d ∈ ds, d.path ≠ []) (hapart : ds.Pairwise fun d e => Apart d.path e.path)
    (hfree : ∀ d ∈ ds, ∀ ks, ks <+: d.path → leafAt? tree ks = none) :
    (∀ ks j, (∀ d ∈ ds, Apart d.path ks) → leafAt? tree ks = some j → leafAt? (pathTree index tree ds) ks = some j) ∧
      (∀ j d, ds[j]? = some d → leafAt? (pathTree index tree ds) d.path = some (index + j)) ∧
      ∀ ks j, leafAt? (pathTree index tree ds) ks = some j →
        leafAt? tree ks = some j ∨ ∃ m d, ds[m]? = some d ∧ j = index + m ∧ d.path = ks := by
  induction ds generalizing index tree with
  | nil =>
    refine ⟨fun _ _ _ h => h, fun j d h => ?_, fun _ _ h => .inl h⟩
    rw [List.getElem?_nil] at h
    cases h
  | cons d ds ih =>
    obtain ⟨hd, hds⟩ := List.pairwise_cons.1 hapart
    have hself : leafAt? (insertPath index d.path tree) d.path = some index :=
      leafAt?_insertPath_self (hne d List.mem_cons_self) (hfree d List.mem_cons_self) index
    have hfree' : ∀ e ∈ ds, ∀ ks, ks <+: e.path → leafAt? (insertPath index d.path tree) ks = none := by
      intro e he ks hks
      cases hl : leafAt? (insertPath index d.path tree) ks with
      | none => rfl
      | some j =>
        rcases leafAt?_of_insertPath hl with rfl | hl
        · exact absurd hks (hd e he).1
        · rw [hfree e (List.mem_cons_of_mem _ he) ks hks] at hl
          cases hl
    obtain ⟨hold, hnew, honly⟩ :=
      ih (index + 1) (insertPath index d.path tree) (fun e he => hne e (List.mem_cons_of_mem _ he)) hds hfree'
    refine ⟨fun ks j hks h => ?_, fun j e he => ?_, fun ks j h => ?_⟩
    · have hdks := hks d List.mem_cons_self
      exact hold ks j (fun e he => hks e (List.mem_cons_of_mem _ he)) (leafAt?_insertPath index hdks.1 hdks.2 h)
    · cases j with
      | zero =>
        cases he
        exact hold _ _ (fun e he => (hd e he).symm) hself
      | succ j =>
        have := hnew j e he
        rwa [Nat.add_assoc, Nat.add_comm 1 j] at this
    · rcases honly ks j h with h | ⟨m, e, he, rfl, hpath⟩
      · rcases leafAt?_of_insertPath h with rfl | h
        · rw [hself] at h
          exact .inr ⟨0, d, rfl, (Option.some.inj h).symm, rfl⟩
        · exact .inl h
      · exact .inr ⟨m + 1, e, he, by omega, hpath⟩

end

end Schema

end NodeStore
