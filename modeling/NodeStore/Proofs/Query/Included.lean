import NodeStore.Proofs.Query.Everything
import NodeStore.Proofs.Query.Filters

/-!
# Included fields

The fields that a query includes belong to the scopes in which they are included, whatever paths name them.

* `Includes.Over`: fields of a scope; `add_over`, `addAll_over` and `addCount_over`: each path keeps them so.
* `Query.includes_over`: so it is for all fields of a query.
-/

namespace NodeStore.Query

namespace Includes

mutual

/-- The fields belong to a scope. -/
def Over (s : Scope) : Includes → Prop
  | ⟨chosen, links, edges, _⟩ => chosen.Pairwise (· < ·) ∧ LinksOver s links ∧ EdgesOver s edges

/-- The links are those of references of a scope, and what is included behind them belongs to the scopes there. -/
def LinksOver (s : Scope) : List (Nat × IncludedLink Includes) → Prop
  | [] => True
  | (_, ⟨p, target, _, body⟩) :: rest =>
    (p ∈ s.layout.props ∧ p.type.isReference = true ∧ s.through? p = some target ∧ Over target body) ∧ LinksOver s rest

/-- The included fields of the link belong to it. -/
def EdgesOver (s : Scope) : Option Includes → Prop
  | none => True
  | some t => ∀ edges, s.edges = some edges → Over (s.ofEdges edges) t

end

/-- The link is that of a reference of a scope, and what is included behind it belongs to the scope there. -/
structure LinkOver (s : Scope) (l : IncludedLink Includes) : Prop where
  mem : l.prop ∈ s.layout.props
  reference : l.prop.type.isReference = true
  scope : s.through? l.prop = some l.scope
  body : Over l.scope l.body

variable {s : Scope} {t t' : Includes}

theorem linksOver_iff {links : List (Nat × IncludedLink Includes)} : LinksOver s links ↔ ∀ e ∈ links, LinkOver s e.2 := by
  induction links with
  | nil => exact ⟨fun _ _ he => absurd he List.not_mem_nil, fun _ => trivial⟩
  | cons e links ih =>
    obtain ⟨i, ⟨p, target, sub, body⟩⟩ := e
    rw [List.forall_mem_cons, ← ih]
    exact ⟨fun ⟨⟨h1, h2, h3, h4⟩, hrest⟩ => ⟨⟨h1, h2, h3, h4⟩, hrest⟩, fun ⟨⟨h1, h2, h3, h4⟩, hrest⟩ => ⟨⟨h1, h2, h3, h4⟩, hrest⟩⟩

theorem over_iff : Over s t ↔ t.chosen.Pairwise (· < ·) ∧ (∀ e ∈ t.links, LinkOver s e.2) ∧
    ∀ inner, t.edges = some inner → ∀ edges, s.edges = some edges → Over (s.ofEdges edges) inner := by
  cases t with
  | mk chosen links edges counts =>
    refine and_congr_right' (and_congr linksOver_iff ?_)
    cases edges with
    | none => exact ⟨fun _ _ hinner => (Option.some_ne_none _ hinner.symm).elim, fun _ => trivial⟩
    | some inner => exact ⟨fun h _ hinner => Option.some.inj hinner ▸ h, fun h => h inner rfl⟩

theorem over_empty (s : Scope) : Over s {} := ⟨.nil, trivial, trivial⟩

theorem choose_over (h : Over s t) (index : Nat) : Over s (choose s t index) := by
  unfold choose
  split
  · split
    · exact h
    · obtain ⟨hchosen, hlinks, hedges⟩ := over_iff.1 h
      exact over_iff.2 ⟨KeySet.insert_sorted hchosen index, hlinks, hedges⟩
  · exact h

theorem setLink_over (h : Over s t) (index : Nat) {l : IncludedLink Includes} (hl : LinkOver s l) :
    Over s (t.setLink index l) := by
  obtain ⟨hchosen, hlinks, hedges⟩ := over_iff.1 h
  refine over_iff.2 ⟨hchosen, fun e he => ?_, hedges⟩
  rcases Assoc.mem_insert he with rfl | he
  exacts [hl, hlinks e he]

theorem link_over (h : Over s t) {index : Nat} {p : PropDef EdgeLayout} (hp : p ∈ s.layout.props)
    (hr : p.type.isReference = true) {l : IncludedLink Includes} (hl : t.link s index p = .ok l) : LinkOver s l := by
  unfold link at hl
  split at hl
  · rename_i hfound
    cases hl
    exact (over_iff.1 h).2.1 _ (Assoc.mem_of_find? hfound)
  · rename_i htarget
    cases hl
    exact ⟨hp, hr, htarget, over_empty _⟩
  · cases hl

theorem addLeaf_over (h : Over s t) {index : Nat} (ht : t.addLeaf s index = .ok t') : Over s t' := by
  unfold addLeaf at ht
  split at ht
  · cases ht
    exact h
  · rename_i p hp
    split at ht
    · rename_i hr
      obtain ⟨l, hl, ht⟩ := Except.bind_eq_ok.1 ht
      cases ht
      exact setLink_over h index (link_over h (List.mem_of_getElem? hp) hr hl)
    · cases ht
      exact choose_over h index

theorem addBranch_over (h : Over s t) {path : List String} (ht : t.addBranch s path = .ok t') : Over s t' := by
  unfold addBranch at ht
  split at ht
  · cases ht
  · exact foldlM_invariant ht h fun _ _ _ _ h' ht' => addLeaf_over h' ht'

theorem foldl_choose_over (h : Over s t) (indexes : List Nat) : Over s (indexes.foldl (choose s) t) := by
  induction indexes generalizing t with
  | nil => exact h
  | cons i is ih => exact ih (choose_over h i)

theorem getD_over {edges : EdgeLayout} (h : Over s t) (he : s.edges = some edges) : Over (s.ofEdges edges) (t.edges.getD {}) := by
  cases hinner : t.edges with
  | none => exact over_empty _
  | some inner => exact (over_iff.1 h).2.2 inner hinner edges he

theorem withEdges_over {edges : EdgeLayout} {inner : Includes} (h : Over s t) (he : s.edges = some edges)
    (hinner : Over (s.ofEdges edges) inner) : Over s { t with edges := some inner } := by
  obtain ⟨hchosen, hlinks, -⟩ := over_iff.1 h
  refine over_iff.2 ⟨hchosen, hlinks, fun inner' h' edges' he' => ?_⟩
  cases h'
  obtain rfl := Option.some.inj (he.symm.trans he')
  exact hinner

mutual

theorem add_over (s : Scope) (path : List String) (sub : Option SubQuery) :
    ∀ {t t' : Includes}, Over s t → add s path sub t = .ok t' → Over s t' := by
  intro t t' h ht
  cases hpath : path with
  | nil =>
    rw [hpath] at ht
    unfold add at ht
    cases ht
  | cons first more =>
    rw [hpath] at ht
    unfold add at ht
    split at ht
    · cases ht
      exact foldl_choose_over h _
    · split at ht
      · rename_i name hname
        split at ht
        · cases ht
        · rename_i edges hedges
          have hsome : s.edges.isSome = true := by rw [hedges]; rfl
          obtain ⟨inner, hinner, ht⟩ := Except.bind_eq_ok.1 ht
          cases ht
          exact withEdges_over h hedges (add_over (s.ofEdges edges) (name :: more) sub (getD_over h hedges) hinner)
      · split at ht
        · cases ht
          exact h
        · split at ht
          · exact addBranch_over h ht
          · rename_i p n hp
            have hpos := Layout.longestProp?_pos hp
            split at ht
            · cases ht
            · rename_i index hindex
              split at ht
              · rename_i hr
                obtain ⟨l, hl, ht⟩ := Except.bind_eq_ok.1 ht
                have hlink := link_over h (Layout.mem_of_longestProp? hp) hr hl
                split at ht
                · obtain ⟨body, hbody, ht⟩ := Except.bind_eq_ok.1 ht
                  cases ht
                  have hover := add_over l.scope ((first :: more).drop n) sub hlink.body hbody
                  exact setLink_over h index { hlink with body := hover }
                · cases hsub : sub with
                  | none =>
                    rw [hsub] at ht
                    cases ht
                    exact setLink_over h index hlink
                  | some q =>
                    rw [hsub] at ht
                    obtain ⟨body, hbody, ht⟩ := Except.bind_eq_ok.1 ht
                    cases ht
                    have hover := addAll_over l.scope q.includes hlink.body hbody
                    exact setLink_over h index { hlink with body := hover }
              · split at ht
                · cases ht
                · cases ht
                  exact choose_over h index
  termination_by (sizeOf sub, path.length, if s.edges.isSome then 1 else 0)
  decreasing_by
    · have hlen := congrArg List.length hpath
      simp [Scope.ofEdges, hsome, hlen, Prod.lex_def]
    · have hsize := congrArg sizeOf hsub
      cases q
      refine Prod.Lex.left _ _ ?_
      simp only [Option.some.sizeOf_spec, SubQuery.mk.sizeOf_spec] at hsize ⊢
      omega
    · have hlen := congrArg List.length hpath
      refine Prod.Lex.right _ (Prod.Lex.left _ _ ?_)
      rw [List.length_drop, hlen]
      exact Nat.sub_lt (Nat.succ_pos _) hpos

theorem addAll_over (s : Scope) (paths : List (String × Option SubQuery)) :
    ∀ {t t' : Includes}, Over s t → addAll s paths t = .ok t' → Over s t' := by
  intro t t' h ht
  cases hpaths : paths with
  | nil =>
    rw [hpaths] at ht
    unfold addAll at ht
    cases ht
    exact h
  | cons e rest =>
    obtain ⟨path, sub⟩ := e
    rw [hpaths] at ht
    unfold addAll at ht
    obtain ⟨inner, hinner, ht⟩ := Except.bind_eq_ok.1 ht
    have hover := add_over s (Path.split path) sub h hinner
    exact addAll_over s rest hover ht
  termination_by (sizeOf paths, 0, 0)
  decreasing_by
    all_goals
      have hsize := congrArg sizeOf hpaths
      refine Prod.Lex.left _ _ ?_
      simp only [List.cons.sizeOf_spec, Prod.mk.sizeOf_spec] at hsize ⊢
      omega

end

theorem addCount_over (s : Scope) (path : List String) :
    ∀ {t t' : Includes}, Over s t → addCount s path t = .ok t' → Over s t' := by
  intro t t' h ht
  unfold addCount at ht
  split at ht
  · cases ht
  · rename_i p n hp
    have hpos := Layout.longestProp?_pos hp
    split at ht
    · cases ht
    · rename_i index hindex
      split at ht
      · rename_i hr
        obtain ⟨l, hl, ht⟩ := Except.bind_eq_ok.1 ht
        have hlink := link_over h (Layout.mem_of_longestProp? hp) hr.2 hl
        obtain ⟨body, hbody, ht⟩ := Except.bind_eq_ok.1 ht
        cases ht
        have hlt := hr.1
        have hover := addCount_over l.scope (path.drop n) hlink.body hbody
        exact setLink_over h index { hlink with body := hover }
      · split at ht
        · cases ht
        · cases ht
          obtain ⟨hchosen, hlinks, hedges⟩ := over_iff.1 h
          exact over_iff.2 ⟨hchosen, hlinks, hedges⟩
  termination_by path.length
  decreasing_by
    rw [List.length_drop]
    omega

end Includes

/-- All fields of a query belong to its scope. -/
theorem includes_over {q : Query} {s : Scope} {t : Includes} (h : q.includes s = .ok t) : t.Over s := by
  obtain ⟨t', ht, h⟩ := Except.bind_eq_ok.1 h
  exact foldlM_invariant h (Includes.addAll_over s _ (Includes.over_empty s) ht) fun _ _ _ _ => Includes.addCount_over s _

end NodeStore.Query
