import WeakForm.Proofs.FacetNormals

/-!
# Sums over the facets of a cell

The normals of the facets, each times the measure of its facet, add up to zero, and summed up
with a vertex of each facet they give the measure of the cell. This is the divergence theorem
for constant and for linear fields. It ties together formulas that are written down one by one:
the normals with their signs, the determinants of facets and cells, and the measures of the
reference cells.

The facets meet in the measure of a prism, that of a facet times the height over it. It does not
depend on the facet (`prism`). A normal times the measure of its facet has product zero with the
edges of the facet, and with an edge that comes from the opposite vertex the product is the prism
(`Measures`). Every vertex is opposite to one facet, so that an edge enters the cell through one
facet and leaves it through another, and the sum of all normals is orthogonal to all edges. As it
is a vector along the cell, it is zero.

## Theorems

* `Geometry.exists_measures`: All facets are measured.
* `Geometry.facets_close_up`: The divergence theorem for a single cell.
-/

namespace WeakForm

open List Success Matrix

theorem Shape.mem_facetVertices {s : Shape} {f opposite v : Nat} {vertices : List Nat}
    (h : s.facetVertices f = .ok vertices) (hopposite : s.oppositeVertex f = .ok opposite) :
    v ∈ vertices ↔ v ≤ s.dimension ∧ v ≠ opposite := by
  unfold facetVertices at h
  split at h
  case isTrue hf =>
    cases s with
    | interval =>
      have hf : f < 2 := hf
      have hopposite : .ok (1 - f) = Except.ok opposite :=
        (if_pos (Nat.le_of_lt_succ hf)).symm.trans hopposite
      rw [← Except.ok.inj h, ← Except.ok.inj hopposite, mem_singleton]
      change v = f ↔ v ≤ 1 ∧ v ≠ 1 - f
      omega
    | triangle | tetrahedron =>
      rw [← Except.ok.inj h, ← Except.ok.inj hopposite, mem_filter, mem_range, decide_eq_true_iff]
      exact and_congr_left' Nat.lt_succ_iff
  case isFalse => cases h

theorem Shape.sum_opposite {s : Shape} {opposite : Nat → Nat}
    (h : ∀ f < s.facetCount, s.oppositeVertex f = .ok (opposite f)) {v : Nat}
    (hv : v ≤ s.dimension) (y : ℝ) :
    ∑ f ∈ Finset.range s.facetCount, (if v = opposite f then y else 0) = y := by
  cases s with
  | interval =>
    have hv : v ≤ 1 := hv
    change ∑ f ∈ Finset.range 2, _ = _
    rw [Finset.sum_range_succ, Finset.sum_range_one, ← Except.ok.inj (h 0 (by decide)),
      ← Except.ok.inj (h 1 (by decide))]
    interval_cases v <;> simp
  | triangle | tetrahedron =>
    refine (Finset.sum_eq_single_of_mem v (Finset.mem_range.2 (Nat.lt_succ_of_le hv)) ?_).trans ?_
    · intro f hf hne
      rw [← Except.ok.inj (h f (Finset.mem_range.1 hf)), if_neg hne.symm]
    · rw [← Except.ok.inj (h v (Nat.lt_succ_of_le hv)), if_pos rfl]

namespace Geometry

variable {x : Grid ℝ} {d : Dimensions} {facet : Nat}

/-! ## The prism over a facet -/

/-- The measure of a facet times the height over it. -/
noncomputable def prism (x : Grid ℝ) (d : Dimensions) : ℝ :=
  d.tdim * cellVolume (inverseJacobian (jacobian x d) d).1 d.tdim

/-- The measures of the reference cell and of its facets, together. -/
theorem area_mul_abs {det : ℝ} (hone : d.tdim = 1 → det = 1) :
    facetArea det d.tdim * |(inverseJacobian (jacobian x d) d).1| = det * prism x d := by
  rw [prism, cellVolume_eq]
  induction d using Dimensions.pairs with
  | line | planeCurve | spaceCurve => simp [facetArea, hone rfl]
  | plane | surface => simp [facetArea, mul_div_cancel₀]
  | solid =>
    simp only [facetArea, ofNat_eq, Nat.factorial]
    ring

/-- What a turned direction goes along the vector it is turned away from. -/
theorem dot_outward {w away : List ℝ} (h : w.length = away.length) :
    Scalar.dot (outward w away) away = -(|Scalar.dot w away| / Scalar.norm w) := by
  have hlength := (length_outward w away).trans h
  rw [dot_eq_dotProduct hlength rfl, outward, vector_divide, smul_dotProduct, smul_eq_mul,
    inv_mul_eq_div, ← neg_div]
  refine congrArg (· / _) ?_
  rcases lt_or_ge (Scalar.dot w away) 0 with hneg | hnonneg
  · rw [if_pos (Scalar.lt_eq_true.2 hneg), abs_of_neg hneg, neg_neg, dot_eq_dotProduct h rfl]
  · rw [if_neg (fun hlt => hnonneg.not_gt (Scalar.lt_eq_true.1 hlt)), abs_of_nonneg hnonneg,
      vector_negate, neg_dotProduct, dot_eq_dotProduct h rfl]

/-- A facet with its opposite vertex, its normal and its determinant. The normal times the measure
    of the facet sees of an edge only whether it starts or ends at the opposite vertex. -/
structure Measures (x : Grid ℝ) (d : Dimensions) (facet opposite : Nat) (n : List ℝ) (det : ℝ) :
    Prop where
  opposite_eq : d.shape.oppositeVertex facet = .ok opposite
  normal_eq : facetNormal x d facet = .ok n
  determinant_eq : facetDeterminant x d facet = .ok det
  length : n.length = d.gdim
  tangent : vector d.gdim n ∈ tangents x d
  product : ∀ a ≤ d.tdim, ∀ b ≤ d.tdim,
    facetArea det d.tdim * Scalar.dot n (edge x a b) =
      (if a = opposite then prism x d else 0) - (if b = opposite then prism x d else 0)

/-- Where the normal is a direction that is turned outward, it is enough to know what the direction
    spans with the way to the opposite vertex. -/
theorem HasOutwardNormal.measures (h : HasOutwardNormal x d facet) (hrows : x.rows = d.gdim)
    (hcell : (gram (jacobian x d) d.gdim d.tdim).det ≠ 0) {vertices : List Nat} {v opposite : Nat}
    (hvertices : d.shape.facetVertices facet = .ok vertices) (hv : v ∈ vertices)
    (hopposite : d.shape.oppositeVertex facet = .ok opposite) {w : List ℝ} {det : ℝ}
    (hnormal : facetNormal x d facet = .ok (outward w (edge x v opposite))) (hw : w.length = d.gdim)
    (hdet : facetDeterminant x d facet = .ok det) (hone : d.tdim = 1 → det = 1)
    (hspan : det * |Scalar.dot w (edge x v opposite)| =
      |(inverseJacobian (jacobian x d) d).1| * Scalar.norm w) :
    ∃ opposite n det, Measures x d facet opposite n det := by
  rcases h with ⟨_, _, _, hvertices', hopposite', hnormal', houtward⟩
  cases hvertices.symm.trans hvertices'
  cases hopposite.symm.trans hopposite'
  cases hnormal.symm.trans hnormal'
  have hedge : ∀ a b, (edge x a b).length = d.gdim := fun a b => (length_edge x a b).trans hrows
  have hdot := dot_outward (hw.trans (hedge v opposite).symm)
  -- Neither the direction nor the facet is degenerate, since the normal points outward.
  have hnorm : Scalar.norm w ≠ 0 := by
    intro hzero
    rw [hzero, div_zero, neg_zero] at hdot
    exact (houtward.away v hv).ne hdot
  have hfacet : det ≠ 0 := by
    rintro rfl
    rw [zero_mul, zero_eq_mul, abs_eq_zero] at hspan
    exact hspan.elim (determinant_ne_zero hcell) hnorm
  have hfrom : ∀ c ≤ d.tdim, facetArea det d.tdim *
      Scalar.dot (outward w (edge x v opposite)) (edge x v c) =
        -if c = opposite then prism x d else 0 := by
    intro c hc
    by_cases hcase : c = opposite
    · rw [if_pos hcase, hcase, hdot, mul_neg, neg_inj, ← mul_div_assoc, div_eq_iff hnorm,
        ← mul_right_inj' hfacet]
      linear_combination facetArea det d.tdim * hspan + Scalar.norm w * area_mul_abs (x := x) hone
    · have hmem := (Shape.mem_facetVertices hvertices hopposite).2
        ⟨d.dimension_shape.symm ▸ hc, hcase⟩
      rw [if_neg hcase, houtward.orthogonal v hv c hmem, mul_zero, neg_zero]
  refine ⟨opposite, _, det, hopposite, hnormal, hdet, houtward.length, houtward.tangent, ?_⟩
  -- All edges are differences of edges from `v`.
  intro a ha b hb
  rw [dot_eq_dotProduct houtward.length (hedge a b), vector_edge hrows a b v, dotProduct_sub,
    mul_sub, ← dot_eq_dotProduct houtward.length (hedge v b),
    ← dot_eq_dotProduct houtward.length (hedge v a), hfrom b hb, hfrom a ha]
  ring

/-! ## Measures by dimensions -/

theorem exists_measures_line (hcheck : checkVertices x .line = .ok ())
    (h : (gram (jacobian x .line) 1 1).det ≠ 0) (hf : facet < 2) :
    ∃ opposite n det, Measures x .line facet opposite n det := by
  have hrows := (checkVertices_eq_ok.1 hcheck).1
  refine (hasOutwardNormal_line hcheck h hf).measures hrows h (if_pos hf)
    (mem_singleton.2 rfl) (if_pos (Nat.le_of_lt_succ hf)) (facetNormal_line hcheck hf) rfl
    (bind_eq_ok.2 ⟨(), hcheck, bind_eq_ok.2 ⟨_, if_pos hf, rfl⟩⟩) (fun _ => rfl) ?_
  rw [norm_axis, abs_dot_axis hrows hf, mul_comm]

theorem norm_ends (hf : facet < 2) :
    Scalar.norm (edge x (1 - facet) facet) = Scalar.norm (edge x 0 1) := by
  interval_cases facet
  · refine congrArg Real.sqrt ?_
    rw [edge, edge, dot_map, dot_map]
    refine congrArg List.sum (map_congr_left fun g _ => ?_)
    ring
  · rfl

theorem exists_measures_curve {n : Nat} {hle : n + 2 ≤ 3}
    (hcheck : checkVertices x (.curve n hle) = .ok ())
    (h : (gram (jacobian x (.curve n hle)) (n + 2) 1).det ≠ 0) (hf : facet < 2) :
    ∃ opposite n' det, Measures x (.curve n hle) facet opposite n' det := by
  have hrows := (checkVertices_eq_ok.1 hcheck).1
  refine (hasOutwardNormal_curve hcheck h hf).measures hrows h (if_pos hf)
    (mem_singleton.2 rfl) (if_pos (Nat.le_of_lt_succ hf))
    (facetNormal_curve hcheck hf (dot_ends_neg hrows h hf)) ((length_edge _ _ _).trans hrows)
    (bind_eq_ok.2 ⟨(), hcheck, bind_eq_ok.2 ⟨_, if_pos hf, rfl⟩⟩) (fun _ => rfl) ?_
  have hdet : |(inverseJacobian (jacobian x (.curve n hle)) (.curve n hle)).1| =
      Scalar.norm (edge x 0 1) := by
    rw [← Real.sqrt_sq_eq_abs, determinant_sq, det_fin_one, gram_jacobian hrows]
    rfl
  rw [one_mul, dot_ends (d := .curve n hle) hrows hf, abs_neg,
    abs_of_nonneg (dot_self_nonneg _), ← norm_sq, hdet, norm_ends hf, sq]

theorem exists_measures_plane (hcheck : checkVertices x .plane = .ok ())
    (h : (gram (jacobian x .plane) 2 2).det ≠ 0) (hf : facet < 3) :
    ∃ opposite n det, Measures x .plane facet opposite n det := by
  have hrows := (checkVertices_eq_ok.1 hcheck).1
  rcases Shape.facetVertices_of_lt (s := .triangle) hf with ⟨row, hrow, hlength⟩
  rcases length_eq_two.1 hlength with ⟨v0, v1, rfl⟩
  refine (hasOutwardNormal_plane hcheck h hf).measures hrows h hrow mem_cons_self rfl
    (facetNormal_plane hcheck hrow) rfl
    (bind_eq_ok.2 ⟨(), hcheck, bind_eq_ok.2 ⟨_, hrow, rfl⟩⟩)
    (fun hone => absurd hone (by decide)) ?_
  rw [(dot_turned hrows hrow).2, norm_turned hrows, mul_comm]

theorem exists_measures_surface (hcheck : checkVertices x .surface = .ok ())
    (h : (gram (jacobian x .surface) 3 2).det ≠ 0) (hf : facet < 3) :
    ∃ opposite n det, Measures x .surface facet opposite n det := by
  have hrows := (checkVertices_eq_ok.1 hcheck).1
  rcases Shape.facetVertices_of_lt (s := .triangle) hf with ⟨row, hrow, hlength⟩
  rcases length_eq_two.1 hlength with ⟨v0, v1, rfl⟩
  have hcell := inverseJacobian_surface hrows
  have hnormal : Scalar.norm (cross (edge x 0 1) (edge x 0 2)) ≠ 0 := hcell ▸ determinant_ne_zero h
  rcases rotate_edge hrows hrow hnormal with ⟨hnorm, hspan⟩
  refine (hasOutwardNormal_surface hcheck h hf).measures hrows h hrow mem_cons_self rfl
    (facetNormal_surface hcheck hrow (abs_ne_zero.1 (hspan.trans_ne hnormal)))
    (length_rotate (length_divide _ _) _)
    (bind_eq_ok.2 ⟨(), hcheck, bind_eq_ok.2 ⟨_, hrow, rfl⟩⟩)
    (fun hone => absurd hone (by decide)) ?_
  rw [hspan, hnorm, hcell, mul_comm, ← hspan, abs_abs]

theorem exists_measures_solid (hcheck : checkVertices x .solid = .ok ())
    (h : (gram (jacobian x .solid) 3 3).det ≠ 0) (hf : facet < 4) :
    ∃ opposite n det, Measures x .solid facet opposite n det := by
  have hrows := (checkVertices_eq_ok.1 hcheck).1
  rcases dot_cross_solid hrows hf with ⟨v0, v1, v2, hrow, hdet⟩
  refine (hasOutwardNormal_solid hcheck h hf).measures hrows h hrow mem_cons_self rfl
    (facetNormal_solid hcheck hrow) rfl (bind_eq_ok.2 ⟨(), hcheck, bind_eq_ok.2 ⟨_, hrow, rfl⟩⟩)
    (fun hone => absurd hone (by decide)) ?_
  rw [hdet, mul_comm]

theorem exists_measures (hcheck : checkVertices x d = .ok ())
    (h : (gram (jacobian x d) d.gdim d.tdim).det ≠ 0) (hf : facet < d.shape.facetCount) :
    ∃ opposite n det, Measures x d facet opposite n det := by
  induction d using Dimensions.pairs with
  | line => exact exists_measures_line hcheck h hf
  | planeCurve | spaceCurve => exact exists_measures_curve hcheck h hf
  | plane => exact exists_measures_plane hcheck h hf
  | surface => exact exists_measures_surface hcheck h hf
  | solid => exact exists_measures_solid hcheck h hf

/-! ## All facets together -/

section

variable {opposite : Nat → Nat} {normal : Nat → List ℝ} {det : Nat → ℝ}
  (hrows : x.rows = d.gdim)
  (hfacets : ∀ f < d.shape.facetCount, Measures x d f (opposite f) (normal f) (det f))

include hfacets

theorem sum_prism {a : Nat} (ha : a ≤ d.tdim) : ∑ f ∈ Finset.range d.shape.facetCount,
    (if a = opposite f then prism x d else 0) = prism x d :=
  Shape.sum_opposite (fun f hf => (hfacets f hf).opposite_eq) (d.dimension_shape.symm ▸ ha) _

include hrows

/-- What comes in through one facet goes out through another. -/
theorem sum_normals : ∑ f ∈ Finset.range d.shape.facetCount,
    facetArea (det f) d.tdim • vector d.gdim (normal f) = 0 := by
  refine eq_zero_of_mem_tangents hrows (Submodule.sum_mem _ fun f hf =>
    Submodule.smul_mem _ _ (hfacets f (Finset.mem_range.1 hf)).tangent) fun a ha => ?_
  have hedges : ∀ f ∈ Finset.range d.shape.facetCount,
      (facetArea (det f) d.tdim • vector d.gdim (normal f)) ⬝ᵥ vector d.gdim (edge x 0 a) =
        (if 0 = opposite f then prism x d else 0) - (if a = opposite f then prism x d else 0) := by
    intro f hf
    have hfacet := hfacets f (Finset.mem_range.1 hf)
    rw [smul_dotProduct, smul_eq_mul,
      ← dot_eq_dotProduct hfacet.length ((length_edge x 0 a).trans hrows)]
    exact hfacet.product 0 (Nat.zero_le _) a ha
  rw [dotProduct_comm, sum_dotProduct, Finset.sum_congr rfl hedges, Finset.sum_sub_distrib,
    sum_prism hfacets (Nat.zero_le _), sum_prism hfacets ha, sub_self]

/-- Vertex zero is seen from the facet that it is opposite to. -/
theorem sum_vertices {vertex : Nat → Nat} (hvertex : ∀ f < d.shape.facetCount, ∃ vertices,
    d.shape.facetVertices f = .ok vertices ∧ vertex f ∈ vertices) :
    ∑ f ∈ Finset.range d.shape.facetCount,
      facetArea (det f) d.tdim * Scalar.dot (normal f) (x.column (vertex f)) = prism x d := by
  have hterm : ∀ f ∈ Finset.range d.shape.facetCount,
      facetArea (det f) d.tdim * Scalar.dot (normal f) (x.column (vertex f)) =
        (if 0 = opposite f then prism x d else 0) +
        facetArea (det f) d.tdim • vector d.gdim (normal f) ⬝ᵥ vector d.gdim (x.column 0) := by
    intro f hf
    have hfacet := hfacets f (Finset.mem_range.1 hf)
    rcases hvertex f (Finset.mem_range.1 hf) with ⟨vertices, hvertices, hmem⟩
    rcases (Shape.mem_facetVertices hvertices hfacet.opposite_eq).1 hmem with ⟨hle, hne⟩
    have hproduct := hfacet.product 0 (Nat.zero_le _) _ (d.dimension_shape ▸ hle)
    rw [if_neg hne, sub_zero, dot_eq_dotProduct hfacet.length ((length_edge _ _ _).trans hrows),
      vector_edge_column hrows, dotProduct_sub, mul_sub, sub_eq_iff_eq_add] at hproduct
    rw [dot_eq_dotProduct hfacet.length ((length_column _ _).trans hrows), hproduct,
      smul_dotProduct, smul_eq_mul]
  rw [Finset.sum_congr rfl hterm, Finset.sum_add_distrib, sum_prism hfacets (Nat.zero_le _),
    ← sum_dotProduct, sum_normals hrows hfacets, zero_dotProduct, add_zero]

end

/-- The facets of a cell that is not degenerate close up: their normals, times their measures, add
    up to zero, and together with a vertex of each facet they give the measure of the cell. -/
theorem facets_close_up (hrows : x.rows = d.gdim) (hcols : x.cols = d.tdim + 1)
    (h : (((jacobian x d).matrix d.gdim d.tdim)ᵀ * (jacobian x d).matrix d.gdim d.tdim).det ≠ 0) :
    ∃ (det : Nat → ℝ) (normal : Nat → List ℝ), (∀ f < d.shape.facetCount,
        facetDeterminant x d f = .ok (det f) ∧ facetNormal x d f = .ok (normal f) ∧
        (normal f).length = d.gdim) ∧
      (∑ f ∈ Finset.range d.shape.facetCount,
        facetArea (det f) d.tdim • vector d.gdim (normal f)) = 0 ∧
      ∀ vertex : Nat → Nat, (∀ f < d.shape.facetCount, ∃ vertices,
          d.shape.facetVertices f = .ok vertices ∧ vertex f ∈ vertices) →
        1 / d.tdim * ∑ f ∈ Finset.range d.shape.facetCount,
          facetArea (det f) d.tdim * Scalar.dot (normal f) (x.column (vertex f)) =
            cellVolume (inverseJacobian (jacobian x d) d).1 d.tdim := by
  choose! opposite normal det hfacets using fun f (hf : f < d.shape.facetCount) =>
    exists_measures (checkVertices_eq_ok.2 ⟨hrows, hcols⟩) h hf
  refine ⟨det, normal, fun f hf => ?_, sum_normals hrows hfacets, fun vertex hvertex => ?_⟩
  · exact ⟨(hfacets f hf).determinant_eq, (hfacets f hf).normal_eq, (hfacets f hf).length⟩
  · have hpos : (d.tdim : ℝ) ≠ 0 := Nat.cast_ne_zero.2 (Nat.pos_iff_ne_zero.1 d.tdim_pos)
    rw [sum_vertices hrows hfacets hvertex, prism, one_div, inv_mul_cancel_left₀ hpos]

theorem facets_close_up_tilted :
    (tiltedTriangle.rows = 3 ∧ tiltedTriangle.cols = 2 + 1 ∧
      (((jacobian tiltedTriangle .surface).matrix 3 2)ᵀ *
        (jacobian tiltedTriangle .surface).matrix 3 2).det ≠ 0) ∧
    ∃ (det : Nat → ℝ) (normal : Nat → List ℝ), (∀ f < 3,
        facetDeterminant tiltedTriangle .surface f = .ok (det f) ∧
        facetNormal tiltedTriangle .surface f = .ok (normal f)) ∧
      ∑ f ∈ Finset.range 3, facetArea (det f) 2 • vector 3 (normal f) = 0 ∧
      1 / (2 : Nat) * ∑ f ∈ Finset.range 3, facetArea (det f) 2 *
          Scalar.dot (normal f) (tiltedTriangle.column (if f = 0 then 1 else 0)) =
        cellVolume (inverseJacobian (jacobian tiltedTriangle .surface) .surface).1 2 := by
  have hdet : (((jacobian tiltedTriangle .surface).matrix 3 2)ᵀ *
      (jacobian tiltedTriangle .surface).matrix 3 2).det ≠ 0 := by
    rw [← gram, det_gram_tiltedTriangle]
    norm_num
  -- The first vertex is on all facets but the one opposite to it.
  have hvertex : ∀ f < 3, ∃ vertices, Shape.triangle.facetVertices f = .ok vertices ∧
      (if f = 0 then 1 else 0) ∈ vertices := by
    intro f hf
    interval_cases f <;> exact ⟨_, rfl, by decide⟩
  refine ⟨⟨rfl, rfl, hdet⟩, ?_⟩
  rcases facets_close_up (x := tiltedTriangle) (d := .surface) rfl rfl hdet with
    ⟨det, normal, hfacets, hsum, hvolume⟩
  exact ⟨det, normal, fun f hf => ⟨(hfacets f hf).1, (hfacets f hf).2.1⟩, hsum,
    hvolume (fun f => if f = 0 then 1 else 0) hvertex⟩

end Geometry
end WeakForm
