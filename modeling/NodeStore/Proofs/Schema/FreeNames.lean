import NodeStore.Proofs.Schema.Packing
import NodeStore.Proofs.Schema.SharedEdges

/-!
# Names without a meaning of their own

A declared name cannot be empty, be that of the id or start with the sign of links. The name of an added inverse can, as
nothing tests what a reference declares as its inverse, nor the name that is made for one.

* `Path.Free`: the segments of a path have no meaning of their own.
* `SchemaDecl.FreeInverses`: the names under which inverses may be added are free.
* `compile_free`: so are the paths of all properties then.
-/

namespace NodeStore

/-- No segment of a path is empty, is that of the id or starts with the sign of links. -/
def Path.Free (path : List String) : Prop := ∀ s ∈ path, s ≠ "" ∧ s ≠ "id" ∧ s.toList.head? ≠ some '$'

/-- The names under which inverses may be added have no meaning of their own. -/
def SchemaDecl.FreeInverses (decl : SchemaDecl) : Prop :=
  ∀ type props f l, (type, props) ∈ decl.types → PropDecl.Leaf props f → Schema.declaredLink type f = some l →
    Path.Free (Path.split (l.inverse.getD (Schema.inverseName l)))

namespace Schema

theorem reservedSegment_eq_false {s : String} :
    reservedSegment s = false ↔ s ≠ "" ∧ s ≠ "id" ∧ s.toList.head? ≠ some '$' := by
  simp only [reservedSegment, Bool.or_eq_false_iff, decide_eq_false_iff_not, String.isEmpty_eq_false_iff]
  tauto

/-- The paths of declared properties are free. -/
theorem flattenAll_free {type : String} {props : List (String × PropDecl)} {fs : List FlatProp}
    (h : flattenAll type [] props = .ok fs) : ∀ f ∈ fs, Path.Free f.path := fun f hf s hs =>
  reservedSegment_eq_false.1 ((flattenAll_segments (fun _ h => absurd h List.not_mem_nil) props fs h f hf).2 s hs).2

/-- So are those of added inverses, if their names are. -/
theorem resolveInverses_free {decl : SchemaDecl} {flat out : FlatTypes} (hfree : decl.FreeInverses)
    (hflat : flattenTypes ∅ decl.types = .ok flat) (h : resolveInverses (sortTypes flat) = .ok out) :
    ∀ x ∈ out, ∀ f ∈ x.2, Path.Free f.path := by
  obtain ⟨-, -, hall⟩ := flattenTypes_eq_ok.1 hflat
  refine resolveInverses_forall h (fun x hx f hf => ?_) (fun p q hpath _ hp => hpath ▸ hp) fun _ l hl => ?_
  · obtain ⟨d, -, -, hd⟩ := exists_of_forall₂_left hall.flip (List.mem_mergeSort.1 hx)
    exact flattenAll_free hd f hf
  · obtain ⟨ls, hls, -⟩ := Except.bind_eq_ok.1 h
    obtain ⟨-, rfl⟩ := links_eq_ok.1 hls
    obtain ⟨x, hx, f, hf, hlink⟩ := FlatTypes.mem_allLinks.1 (hl _ hls)
    obtain ⟨d, hd, hname, hprops⟩ := exists_of_forall₂_left hall.flip (List.mem_mergeSort.1 hx)
    exact hfree d.1 d.2 f l hd ((mem_flattenAll_nil hprops f).1 hf) (hname ▸ hlink)

theorem Made.free {c : Context} {key : RelationKey} {edges : List (String × PropDecl)} {e : EdgeLayout}
    (h : Made c key edges e) : ∀ p ∈ e.props, Path.Free p.path := by
  obtain ⟨flat, -, hflat, -⟩ := id h
  intro p hp
  obtain ⟨f, hf, hpf⟩ := h.holds.2 p hp
  rw [hpf.path]
  exact flattenAll_free hflat f ((mem_flattenAll_nil hflat f).2 hf)

end Schema

/-- In a schema that compiles, no segment of a property's path has a meaning of its own, as long as no inverse can be added under
such a name. -/
theorem compile_free {decl : SchemaDecl} {priority : Priority} {schema : SchemaLayout} (h : decl.compile priority = .ok schema)
    (hfree : decl.FreeInverses) {E : Type} {t : Layout E} (ht : schema.HasLayout t) : ∀ p ∈ t.props, Path.Free p.path := by
  cases ht with
  | ofLinks ht hp he => exact compile_edges_all h (fun _ _ _ _ => Schema.Made.free) ht hp he
  | ofType ht =>
    intro p hp
    obtain ⟨locales, flat, resolved, types, cache, -, -, hflat, hresolved, htypes, rfl⟩ := SchemaDecl.compile_eq_ok.1 h
    obtain ⟨f, hf⟩ := Schema.typeLayouts_becomes htypes _ ht p hp
    obtain ⟨ps, hps, hmem⟩ := hf.declared
    rw [hf.path]
    exact Schema.resolveInverses_free hfree hflat hresolved _ hps f hmem

end NodeStore
