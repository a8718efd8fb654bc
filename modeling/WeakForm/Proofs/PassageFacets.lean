import WeakForm.Proofs.PassageValues

/-!
# Values of facet quantities

What the names of geometry code stand for once its declarations hold, for the measures of a
facet: its determinant and its area. Code finds the vertices of a facet in rows of its own, by
the number of the facet, while the affine geometry is given them by the shape.

## Theorems

* `Passage.edgeVertices_get`, `Passage.faceVertices_get`: The rows of code are those of the shapes.
* `Passage.has_edge`, `Passage.has_face`: What is declared of a facet that is an edge, and of
  one that is a triangle.
* `Passage.has_facetDeterminant`, `Passage.has_facetArea`: The measures of a facet are declared.
-/

namespace WeakForm

open List Success WeakForm.Geometry Binding

theorem Geometry.coordinate_cross (a b : List ℝ) {k : Nat} (h : k < 3) : coordinate (cross a b) k =
      coordinate a (Passage.nextAxes k).1 * coordinate b (Passage.nextAxes k).2 -
        coordinate a (Passage.nextAxes k).2 * coordinate b (Passage.nextAxes k).1 := by
  interval_cases k <;> rfl

namespace Passage

theorem edgeVertices_get : ∀ facet < 3,
    edgeVertices[facet]? = (Shape.triangle.facetVertices facet).toOption := by decide

theorem faceVertices_get : ∀ facet < 4,
    faceVertices[facet]? = (Shape.tetrahedron.facetVertices facet).toOption := by decide

section

variable {s : Situation ℝ} {σ : Bindings ℝ} {d : Dimensions} {side : Option Side}

theorem nextAxes_lt (k : Nat) : (nextAxes k).1 < 3 ∧ (nextAxes k).2 < 3 :=
  ⟨Nat.mod_lt _ (by decide), Nat.mod_lt _ (by decide)⟩

theorem valueOf_namedVertex {name : String} {v : Nat} (h : σ.get vertex? name = some v)
    (g : Nat) : σ.valueOf s (.coordinate side (.named name) g) = (s.cell side).entry g v := by
  rw [Bindings.valueOf, Bindings.vertex, h, Option.getD_some]

theorem facetVertex_of_holds {name lists : String} {rows : List (List Nat)} {row : List Nat}
    {place : Nat} (hfacet : σ.get vertex? (Cpp.facetVariable side) = some s.facet)
    (hrow : rows[s.facet]? = some row) (hlists : (Step.vertexLists lists rows).Holds s σ)
    (h : (Step.facetVertex name lists side place).Holds s σ) :
    σ.get vertex? name = row[place]? := by
  rcases hlists.facetVertex h hfacet with ⟨row', v, hrow', hv, hname⟩
  rw [hrow, Option.some.injEq] at hrow'
  rw [hname, hrow', hv]

theorem has_edge {n : Nat} {hpos : 1 ≤ 2} {hle : 2 ≤ n + 2} {hle' : n + 2 ≤ 3}
    (hs : s.Fits ⟨2, n + 2, hpos, hle, hle'⟩)
    (hfacet : σ.get vertex? (Cpp.facetVariable side) = some s.facet)
    (h : ∀ step ∈ facetDeterminantSteps ⟨2, n + 2, hpos, hle, hle'⟩ side, step.Holds s σ) :
    ∃ v0 v1, Shape.triangle.facetVertices s.facet = .ok [v0, v1] ∧ σ.get vertex? "v0" = some v0 ∧
      (∀ g < n + 2, σ.Has s!"dx{g}" (coordinate (edge (s.cell side) v0 v1) g)) ∧
      σ.Has "det" (Scalar.norm (edge (s.cell side) v0 v1)) := by
  rcases forall_mem_append.1 h with ⟨h, hdet⟩
  rcases forall_mem_append.1 h with ⟨hfront, hdx⟩
  obtain ⟨_, hlists, hv0, hv1, _⟩ := forall_iff_forall_mem.2 hfront
  rcases Shape.facetVertices_of_lt (s := .triangle) (Nat.lt_succ_of_le hs.facet) with
    ⟨row, hrow, hlength⟩
  rcases length_eq_two.1 hlength with ⟨v0, v1, rfl⟩
  have hrows := edgeVertices_get s.facet (Nat.lt_succ_of_le hs.facet)
  rw [hrow] at hrows
  have hv0 : σ.get vertex? "v0" = some v0 := facetVertex_of_holds hfacet hrows hlists hv0
  have hv1 : σ.get vertex? "v1" = some v1 := facetVertex_of_holds hfacet hrows hlists hv1
  have hdx : ∀ g < n + 2,
      σ.Has s!"dx{g}" (coordinate (edge (s.cell side) v0 v1) g) := by
    intro g hg
    refine (hdx _ (mem_map.2 ⟨g, mem_range.2 hg, rfl⟩)).has.of_eq ?_
    rw [coordinate_edge (by rwa [hs.rows]), ← valueOf_namedVertex hv0 (s := s),
      ← valueOf_namedVertex hv1 (s := s)]
    rfl
  refine ⟨v0, v1, hrow, hv0, hdx, ?_⟩
  refine (forall_mem_singleton.1 hdet).has.of_eq ?_
  refine Term.eval_norm (Nat.succ_ne_zero (n + 1)) ?_ fun g hg => (hdx g hg).valueOf (s := s)
  rw [length_edge, hs.rows]

theorem has_face (hs : s.Fits .solid)
    (hfacet : σ.get vertex? (Cpp.facetVariable side) = some s.facet)
    (h : ∀ step ∈ facetDeterminantSteps .solid side, step.Holds s σ) :
    ∃ v0 v1 v2, Shape.tetrahedron.facetVertices s.facet = .ok [v0, v1, v2] ∧
      σ.get vertex? "v0" = some v0 ∧ (∀ k < 3, σ.Has s!"a{k}" (coordinate (cross
        (edge (s.cell side) v0 v1) (edge (s.cell side) v0 v2)) k)) ∧ σ.Has "det" (Scalar.norm (cross
        (edge (s.cell side) v0 v1) (edge (s.cell side) v0 v2))) := by
  obtain ⟨_, hlists, hv0, hv1, hv2, _, _, h0, h1, h2, hdet⟩ := forall_iff_forall_mem.2 h
  rcases Shape.facetVertices_of_lt (s := .tetrahedron) (Nat.lt_succ_of_le hs.facet) with
    ⟨row, hrow, hlength⟩
  rcases length_eq_three.1 hlength with ⟨v0, v1, v2, rfl⟩
  have hrows := faceVertices_get s.facet (Nat.lt_succ_of_le hs.facet)
  rw [hrow] at hrows
  have hv0 : σ.get vertex? "v0" = some v0 := facetVertex_of_holds hfacet hrows hlists hv0
  have hv1 : σ.get vertex? "v1" = some v1 := facetVertex_of_holds hfacet hrows hlists hv1
  have hv2 : σ.get vertex? "v2" = some v2 := facetVertex_of_holds hfacet hrows hlists hv2
  set c := cross (edge (s.cell side) v0 v1) (edge (s.cell side) v0 v2)
  have ha : ∀ k < 3, σ.Has s!"a{k}" (coordinate c k) := by
    have hedge : ∀ g < 3, ∀ v, coordinate (edge (s.cell side) v0 v) g =
        (s.cell side).entry g v - σ.valueOf s (.coordinate side (.named "v0") g) := by
      intro g hg v
      rw [valueOf_namedVertex hv0, coordinate_edge (by rwa [hs.rows])]
    intro k hk
    -- Code and cross product take the axes in the same cyclic order.
    rw [coordinate_cross _ _ hk]
    simp only [hedge _ (nextAxes_lt k).1, hedge _ (nextAxes_lt k).2,
      ← valueOf_namedVertex hv1 (s := s), ← valueOf_namedVertex hv2 (s := s)]
    interval_cases k
    · exact h0.has
    · exact h1.has
    · exact h2.has
  refine ⟨v0, v1, v2, hrow, hv0, ha, ?_⟩
  exact hdet.has.of_eq (Term.eval_norm (by decide) rfl fun k hk => (ha k hk).valueOf (s := s))

theorem has_facetDeterminant (hs : s.Fits d)
    (hfacet : σ.get vertex? (Cpp.facetVariable side) = some s.facet)
    (h : ∀ step ∈ facetDeterminantSteps d side, step.Holds s σ) :
    ∃ det, Geometry.facetDeterminant (s.cell side) d s.facet = .ok det ∧ σ.Has "det" det := by
  have hcheck : checkVertices (s.cell side) d = .ok () :=
    checkVertices_eq_ok.2 ⟨hs.rows side, hs.cols side⟩
  cases d using Dimensions.pairs with
  | line | planeCurve | spaceCurve =>
    obtain ⟨_, hdet⟩ := forall_iff_forall_mem.2 h
    rcases Shape.facetVertices_of_lt (s := .interval) (Nat.lt_succ_of_le hs.facet) with
      ⟨row, hrow, _⟩
    refine ⟨1, bind_eq_ok.2 ⟨(), hcheck, bind_eq_ok.2 ⟨row, hrow, rfl⟩⟩, ?_⟩
    exact hdet.has.of_eq decimal_one
  | plane | surface =>
    rcases has_edge hs hfacet h with ⟨v0, v1, hrow, _, _, hdet⟩
    exact ⟨_, bind_eq_ok.2 ⟨(), hcheck, bind_eq_ok.2 ⟨_, hrow, rfl⟩⟩, hdet⟩
  | solid =>
    rcases has_face hs hfacet h with ⟨v0, v1, v2, hrow, _, _, hdet⟩
    exact ⟨_, bind_eq_ok.2 ⟨(), hcheck, bind_eq_ok.2 ⟨_, hrow, rfl⟩⟩, hdet⟩

theorem has_facetArea (h : ∀ step ∈ facetAreaSteps d, step.Holds s σ) {det : ℝ}
    (hdet : σ.Has "det" det) : σ.Has "facet_area" (Geometry.facetArea det d.tdim) := by
  rw [← hdet.valueOf (s := s)]
  set x := σ.valueOf s (.scalar "det")
  have hforall := forall_iff_forall_mem.2 h
  cases d using Dimensions.pairs with
  | line | planeCurve | spaceCurve => exact hforall.2.has.of_eq decimal_one
  | plane | surface => exact hforall.2.has
  | solid =>
    refine hforall.2.has.of_eq ?_
    change x / Scalar.decimal 20 1 = x / Scalar.decimal 2 0
    rw [decimal_eq, decimal_eq]
    norm_num

end

end Passage

end WeakForm
