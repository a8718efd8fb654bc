import Mathlib.LinearAlgebra.AffineSpace.Combination
import WeakForm.Proofs.FacetNormals

/-!
# Circumscribed spheres

The radius of the circumscribed sphere is computed from the lengths of the edges: the product
of the three sides over four times the area for triangles, and for tetrahedra the area of a
triangle whose sides are the products of opposite edges, over six times the volume.

Seen from vertex zero the center of the sphere solves a linear system. Its product with each
edge is half the square of the length of the edge, so that it is the Gram matrix of the edges
that has to be inverted. The square of the radius is then the inverse of the Gram matrix between
two copies of the vector of squared lengths, over four. `power` is that product, cleared of the
determinant, and both formulas are evaluations of it. By the law of cosines the entries of the
Gram matrix are differences of squared lengths, which turns either evaluation into a polynomial
identity in these entries.

That the root in the formula for tetrahedra is that of a positive number needs no estimate
then: it is a positive multiple of the square of a distance.

## Main definitions

* `Geometry.squaredArea`, `Geometry.radicand`: The value under the root for tetrahedra.

## Theorems

* `Geometry.power_triangle`, `Geometry.power_solid`: The two evaluations.
* `Geometry.circumradius_sq`: The square of the radius.
* `Geometry.circumradius_spec`: The computed radius is that of a sphere through all vertices.
-/

namespace WeakForm

open Matrix Scalar

namespace Geometry

variable {x : Grid ℝ} {d : Dimensions} (hrows : x.rows = d.gdim)

/-! ## Lengths and the Gram matrix -/

include hrows

theorem norm_edge_zero_sq (t : Fin d.tdim) :
    norm (edge x 0 (t + 1)) ^ 2 = gram (jacobian x d) d.gdim d.tdim t t := by
  rw [norm_sq, gram_jacobian hrows]

/-- The law of cosines, for two edges from vertex zero. -/
theorem norm_edge_sq (s t : Fin d.tdim) :
    norm (edge x (s + 1) (t + 1)) ^ 2 = gram (jacobian x d) d.gdim d.tdim s s -
      2 * gram (jacobian x d) d.gdim d.tdim s t + gram (jacobian x d) d.gdim d.tdim t t := by
  have hlength : ∀ a b, (edge x a b).length = d.gdim := fun a b => (length_edge x a b).trans hrows
  simp only [norm_sq, gram_jacobian hrows, dot_eq_dotProduct (hlength _ _) (hlength _ _)]
  rw [vector_edge hrows (s + 1) (t + 1) 0, sub_dotProduct, dotProduct_sub, dotProduct_sub,
    dotProduct_comm (vector d.gdim (edge x 0 (t + 1))) (vector d.gdim (edge x 0 (s + 1)))]
  ring

/-- The square of the area of a triangle with the given sides. -/
noncomputable def squaredArea (a b c : ℝ) : ℝ :=
  let s := decimal 5 1 * (a + b + c)
  s * (s - a) * (s - b) * (s - c)

omit hrows in
theorem squaredArea_eq (a b c : ℝ) : 16 * squaredArea a b c =
    2 * (a ^ 2 * b ^ 2 + b ^ 2 * c ^ 2 + c ^ 2 * a ^ 2) - (a ^ 2) ^ 2 - (b ^ 2) ^ 2 -
      (c ^ 2) ^ 2 := by
  simp only [squaredArea, decimal_eq]
  ring

/-- The value under the root of the formula for tetrahedra. -/
noncomputable def radicand (x : Grid ℝ) : ℝ :=
  squaredArea (norm (edge x 1 2) * norm (edge x 0 3))
    (norm (edge x 0 2) * norm (edge x 1 3))
    (norm (edge x 0 1) * norm (edge x 2 3))

omit hrows in
theorem circumradius_solid (x : Grid ℝ) : circumradius x .solid = Real.sqrt (radicand x) /
    (ofNat 6 * cellVolume (inverseJacobian (jacobian x .solid) .solid).1 3) := rfl

/-- The Gram matrix of the edges from vertex zero, inverted up to its determinant, between the
    squares of their lengths. -/
noncomputable def power (x : Grid ℝ) (d : Dimensions) : ℝ :=
  (gram (jacobian x d) d.gdim d.tdim).diag ⬝ᵥ
    ((gram (jacobian x d) d.gdim d.tdim).adjugate *ᵥ (gram (jacobian x d) d.gdim d.tdim).diag)

omit hrows in
theorem power_triangle (htdim : d.tdim = 2) (hrows : x.rows = d.gdim) : power x d =
    (norm (edge x 1 2) * norm (edge x 0 2) * norm (edge x 0 1)) ^ 2 := by
  rcases d with ⟨t, g, _, _, _⟩
  subst htdim
  have hedge := norm_edge_sq hrows
  have hzero := norm_edge_zero_sq hrows
  rw [mul_pow, mul_pow, show norm (edge x 1 2) ^ 2 = _ from hedge 0 1,
    show norm (edge x 0 1) ^ 2 = _ from hzero 0, show norm (edge x 0 2) ^ 2 = _ from hzero 1, power]
  change diag _ ⬝ᵥ (adjugate (_ : Matrix (Fin 2) (Fin 2) ℝ) *ᵥ diag _) = _
  rw [adjugate_fin_two]
  simp only [gram_comm _ _ 1 0, dotProduct, mulVec, diag, Fin.sum_univ_two, Matrix.of_apply,
    Matrix.cons_val]
  ring

omit hrows in
/-- Both sides are polynomials in the six entries of the Gram matrix. -/
theorem power_solid (hrows : x.rows = 3) : power x .solid = 4 * radicand x := by
  have hedge := norm_edge_sq (d := .solid) hrows
  have hzero := norm_edge_zero_sq (d := .solid) hrows
  have hradicand := squaredArea_eq (norm (edge x 1 2) * norm (edge x 0 3))
    (norm (edge x 0 2) * norm (edge x 1 3))
    (norm (edge x 0 1) * norm (edge x 2 3))
  simp only [mul_pow, show norm (edge x 1 2) ^ 2 = _ from hedge 0 1,
    show norm (edge x 1 3) ^ 2 = _ from hedge 0 2, show norm (edge x 2 3) ^ 2 = _ from hedge 1 2,
    show norm (edge x 0 1) ^ 2 = _ from hzero 0, show norm (edge x 0 2) ^ 2 = _ from hzero 1,
    show norm (edge x 0 3) ^ 2 = _ from hzero 2] at hradicand
  rw [power, adjugate_fin_three]
  simp only [gram_comm _ _ 1 0, gram_comm _ _ 2 0, gram_comm _ _ 2 1, dotProduct, mulVec, diag,
    Fin.sum_univ_three, Matrix.of_apply, Matrix.cons_val, radicand]
  linear_combination -hradicand / 4

/-! ## The radius -/

omit hrows in
theorem circumradius_nonneg (x : Grid ℝ) (d : Dimensions) : 0 ≤ circumradius x d := by
  have hnorm : ∀ a b, 0 ≤ norm (edge x a b) := fun a b => Real.sqrt_nonneg _
  have hvolume : 0 ≤ cellVolume (inverseJacobian (jacobian x d) d).1 d.tdim := by
    rw [cellVolume_eq]
    positivity
  induction d using Dimensions.pairs with
  | line | planeCurve | spaceCurve => exact abs_nonneg _
  | plane | surface =>
    refine div_nonneg (mul_nonneg (by norm_num [decimal_eq]) ?_) hvolume
    exact mul_nonneg (mul_nonneg (hnorm 1 2) (hnorm 0 2)) (hnorm 0 1)
  | solid =>
    refine div_nonneg (Real.sqrt_nonneg _) (mul_nonneg ?_ hvolume)
    rw [ofNat_eq]
    exact Nat.cast_nonneg 6

theorem circumradius_sq (htdim : 2 ≤ d.tdim) (hdet : (inverseJacobian (jacobian x d) d).1 ≠ 0)
    (hpower : 0 ≤ power x d) :
    4 * (gram (jacobian x d) d.gdim d.tdim).det * circumradius x d ^ 2 = power x d := by
  have habs := abs_ne_zero.2 hdet
  have hvolume := cellVolume_eq (inverseJacobian (jacobian x d) d).1 d
  rw [← determinant_sq, ← sq_abs]
  induction d using Dimensions.pairs with
  | line | planeCurve | spaceCurve => exact absurd htdim (by decide)
  | plane | surface =>
    rw [power_triangle rfl hrows]
    simp only [circumradius, hvolume, decimal_eq, Nat.factorial]
    field_simp
    push_cast
    ring
  | solid =>
    rw [power_solid hrows, mul_nonneg_iff_of_pos_left four_pos] at hpower
    rw [power_solid hrows, circumradius_solid, div_pow, Real.sq_sqrt hpower, hvolume, ofNat_eq]
    simp only [Nat.factorial]
    field_simp

/-! ## The center -/

/-- Seen from vertex zero, the center lies half way along every edge. -/
theorem exists_center (h : (gram (jacobian x d) d.gdim d.tdim).det ≠ 0) : ∃ c ∈ tangents x d,
      (∀ v ≤ d.tdim, 2 * (c ⬝ᵥ vector d.gdim (edge x 0 v)) = dot (edge x 0 v) (edge x 0 v)) ∧
      4 * (gram (jacobian x d) d.gdim d.tdim).det * (c ⬝ᵥ c) = power x d := by
  rw [power]
  set J := (jacobian x d).matrix d.gdim d.tdim with hJ
  set G := gram (jacobian x d) d.gdim d.tdim with hG
  set r := G⁻¹ *ᵥ ((2 : ℝ)⁻¹ • G.diag)
  have hcolumns : Jᵀ *ᵥ (J *ᵥ r) = (2 : ℝ)⁻¹ • G.diag := by
    rw [mulVec_mulVec, mulVec_mulVec]
    exact (congrArg (· *ᵥ _) (mul_nonsing_inv G (isUnit_iff_ne_zero.2 h))).trans (one_mulVec _)
  refine ⟨J *ᵥ r, mulVec_mem_tangents x d r, fun v hv => ?_, ?_⟩
  · cases v with
    | zero =>
      rw [dot_edge_self hrows ((length_edge x 0 0).trans hrows), vector_edge_self hrows,
        dotProduct_zero, mul_zero]
    | succ t =>
      have hcolumn : vector d.gdim (edge x 0 (t + 1)) = Jᵀ ⟨t, hv⟩ := by
        rw [← column_jacobian hrows hv]
        exact vector_map_range _ _
      rw [hcolumn, dotProduct_comm]
      refine (congrArg (2 * ·) (congrFun hcolumns ⟨t, hv⟩)).trans ?_
      rw [Pi.smul_apply, smul_eq_mul, mul_inv_cancel_left₀ two_ne_zero]
      exact gram_jacobian hrows _ _
  · rw [dotProduct_mulVec, ← mulVec_transpose, hcolumns]
    simp only [r, inv_def, Ring.inverse_eq_inv', smul_mulVec, mulVec_smul, smul_dotProduct,
      dotProduct_smul, smul_eq_mul]
    field_simp
    norm_num

theorem power_pos (h : (gram (jacobian x d) d.gdim d.tdim).det ≠ 0) : 0 < power x d := by
  rcases exists_center hrows h with ⟨c, _, hc, hpower⟩
  have hdet : 0 < (gram (jacobian x d) d.gdim d.tdim).det := by
    rw [← determinant_sq] at h ⊢
    exact lt_of_le_of_ne (sq_nonneg _) h.symm
  have hself : 0 ≤ c ⬝ᵥ c := Finset.sum_nonneg fun g _ => mul_self_nonneg _
  rw [← hpower]
  refine mul_pos (mul_pos four_pos hdet) (lt_of_le_of_ne hself fun hzero => ?_)
  rw [eq_comm, dotProduct_self_eq_zero] at hzero
  -- Otherwise the first edge is zero, and so is the first row of the Gram matrix.
  have hlength : ∀ v, (edge x 0 v).length = d.gdim := fun v => (length_edge x 0 v).trans hrows
  have hedge : vector d.gdim (edge x 0 1) = 0 := by
    rw [← dotProduct_self_eq_zero, ← dot_eq_dotProduct (hlength 1) (hlength 1),
      ← hc 1 d.tdim_pos, hzero, zero_dotProduct, mul_zero]
  refine h (det_eq_zero_of_row_eq_zero ⟨0, d.tdim_pos⟩ fun t => ?_)
  rw [gram_jacobian hrows, dot_eq_dotProduct (hlength _) (hlength _)]
  exact (congrArg (· ⬝ᵥ _) hedge).trans (zero_dotProduct _)

/-- A sphere through all vertices of a cell, with its center in the affine hull of them. -/
structure Circumscribes (x : Grid ℝ) (d : Dimensions) (p : Fin d.gdim → ℝ) (radius : ℝ) :
    Prop where
  hull : p ∈ affineSpan ℝ (Set.range fun v : Fin (d.tdim + 1) => vector d.gdim (x.column v))
  distance : ∀ v : Fin (d.tdim + 1), Real.sqrt ((p - vector d.gdim (x.column v)) ⬝ᵥ
    (p - vector d.gdim (x.column v))) = radius

/-- The vectors along a cell are those along the affine hull of its vertices. -/
theorem direction_eq_tangents : (affineSpan ℝ (Set.range
    fun v : Fin (d.tdim + 1) => vector d.gdim (x.column v))).direction = tangents x d := by
  rw [direction_affineSpan]
  refine le_antisymm (Submodule.span_le.2 ?_) (Submodule.span_le.2 ?_)
  · rintro _ ⟨_, ⟨b, rfl⟩, _, ⟨a, rfl⟩, rfl⟩
    have hmem := edge_mem_tangents hrows (Nat.le_of_lt_succ a.isLt) (Nat.le_of_lt_succ b.isLt)
    rwa [vector_edge_column hrows] at hmem
  · rintro _ ⟨t, rfl⟩
    change vector d.gdim ((jacobian x d).column t) ∈ _
    rw [column_jacobian hrows t.isLt, vector_edge_column hrows]
    exact vsub_mem_vectorSpan ℝ ⟨t.succ, rfl⟩ ⟨0, rfl⟩

/-- The square of a distance from a vertex, seen from vertex zero. -/
theorem distance_sq (c : Fin d.gdim → ℝ) (v : Nat) :
    (c + vector d.gdim (x.column 0) - vector d.gdim (x.column v)) ⬝ᵥ
      (c + vector d.gdim (x.column 0) - vector d.gdim (x.column v)) =
        c ⬝ᵥ c - 2 * (c ⬝ᵥ vector d.gdim (edge x 0 v)) + dot (edge x 0 v) (edge x 0 v) := by
  have hlength := (length_edge x 0 v).trans hrows
  rw [dot_eq_dotProduct hlength hlength, add_sub_assoc, ← neg_sub, ← vector_edge_column hrows,
    ← sub_eq_add_neg, sub_dotProduct, dotProduct_sub, dotProduct_sub,
    dotProduct_comm (vector _ _) c]
  ring

theorem exists_circumscribes (htdim : 2 ≤ d.tdim) (hdet : (inverseJacobian (jacobian x d) d).1 ≠ 0) :
    ∃ p, Circumscribes x d p (circumradius x d) := by
  have h : (gram (jacobian x d) d.gdim d.tdim).det ≠ 0 := by
    rw [← determinant_sq]
    exact pow_ne_zero 2 hdet
  rcases exists_center hrows h with ⟨c, hc, hedge, hpower⟩
  have hradius := circumradius_sq hrows htdim hdet (power_pos hrows h).le
  rw [← hpower, mul_right_inj' (mul_ne_zero four_ne_zero h)] at hradius
  refine ⟨c + vector d.gdim (x.column 0), ?_, fun v => ?_⟩
  · refine AffineSubspace.vadd_mem_of_mem_direction ?_ (mem_affineSpan ℝ ⟨0, rfl⟩)
    rwa [direction_eq_tangents hrows]
  · rw [distance_sq hrows, hedge v (Nat.le_of_lt_succ v.isLt), sub_add_cancel, ← hradius]
    exact Real.sqrt_sq (circumradius_nonneg x d)

omit hrows in
/-- The radius of a triangle or of a tetrahedron that is not degenerate is that of a sphere through
    all its vertices, with its center in the affine hull of the vertices. The formula for
    tetrahedra takes the root of a positive number. -/
theorem circumradius_spec (hrows : x.rows = d.gdim) (htdim : 2 ≤ d.tdim)
    (hdet : (inverseJacobian (jacobian x d) d).1 ≠ 0) :
    (∃ p ∈ affineSpan ℝ (Set.range fun v : Fin (d.tdim + 1) => vector d.gdim (x.column v)),
      ∀ v : Fin (d.tdim + 1), Real.sqrt ((p - vector d.gdim (x.column v)) ⬝ᵥ
        (p - vector d.gdim (x.column v))) = circumradius x d) ∧
    (d.tdim = 3 → 0 < radicand x ∧ circumradius x d = Real.sqrt (radicand x) /
      (ofNat 6 * cellVolume (inverseJacobian (jacobian x d) d).1 3)) := by
  rcases exists_circumscribes hrows htdim hdet with ⟨p, hp⟩
  refine ⟨⟨p, hp.hull, hp.distance⟩, fun hthree => ?_⟩
  induction d using Dimensions.pairs with
  | solid =>
    have hpower := power_pos (d := .solid) hrows (determinant_sq _ _ ▸ pow_ne_zero 2 hdet)
    rw [power_solid hrows] at hpower
    exact ⟨pos_of_mul_pos_right hpower four_pos.le, circumradius_solid x⟩
  | line | planeCurve | spaceCurve | plane | surface => exact absurd hthree (by decide)

/-- A tetrahedron with a right angled corner. -/
noncomputable def cornerTetrahedron : Grid ℝ :=
  Grid.ofFn 3 4 fun g v => if v = g + 1 then 1 else 0

omit hrows in
theorem determinant_cornerTetrahedron :
    (inverseJacobian (jacobian cornerTetrahedron .solid) .solid).1 = 1 := by
  simp (disch := decide) only [inverseJacobian, jacobian, cofactors, cornerTetrahedron,
    Grid.entry_ofFn]
  norm_num

omit hrows in
theorem circumradius_spec_corner :
    (cornerTetrahedron.rows = 3 ∧ 2 ≤ 3 ∧
      (inverseJacobian (jacobian cornerTetrahedron .solid) .solid).1 ≠ 0) ∧
    (∃ p ∈ affineSpan ℝ (Set.range fun v : Fin 4 => vector 3 (cornerTetrahedron.column v)),
      ∀ v : Fin 4, Real.sqrt ((p - vector 3 (cornerTetrahedron.column v)) ⬝ᵥ
        (p - vector 3 (cornerTetrahedron.column v))) = circumradius cornerTetrahedron .solid) ∧
    0 < radicand cornerTetrahedron := by
  have hdet : (inverseJacobian (jacobian cornerTetrahedron .solid) .solid).1 ≠ 0 := by
    rw [determinant_cornerTetrahedron]
    exact one_ne_zero
  rcases circumradius_spec (x := cornerTetrahedron) (d := .solid) rfl (by decide) hdet with
    ⟨hsphere, hroot⟩
  exact ⟨⟨rfl, by decide, hdet⟩, hsphere, (hroot rfl).1⟩

end Geometry
end WeakForm
