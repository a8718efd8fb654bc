import Mathlib.LinearAlgebra.Matrix.NonsingularInverse
import WeakForm.Proofs.FacetPoints

/-!
# The pseudo-inverse of the Jacobian

The inverse of a Jacobian is written out for each pair of dimensions: cofactors on lines, in
the plane and in space, a scaled transpose on curves, and on surfaces an expression in the
products of the two columns. They are instances of one formula. With the Gram matrix
`Jᵀ * J` of the columns, the inverse is `(Jᵀ * J)⁻¹ * Jᵀ`, and the square of the determinant
is the determinant of the Gram matrix.

This is all that is said about the single formulas. It is enough to know that the map of a
cell and the map back invert each other as far as they can: points of the reference cell
come back, and a point of space differs from the image of its reference coordinates by a
vector that is orthogonal to the cell.

## Main definitions

* `Grid.matrix`, `Geometry.vector`: Grids and lists of coordinates as matrices and vectors.

## Theorems

* `Geometry.determinant_sq`: The determinant squares to the determinant of the Gram matrix.
* `Geometry.toPhysical_vector`, `Geometry.toReference_vector`: The maps of a cell in matrices.
* `AffineMap.of_inverts`: Cells that are not degenerate can be inverted.
-/

namespace WeakForm

open List Success Matrix WeakForm.Geometry

/-- Curves in the plane and in space. -/
abbrev Dimensions.curve (n : Nat) (h : n + 2 ≤ 3) : Dimensions :=
  ⟨1, n + 2, Nat.one_pos, Nat.le_add_left 1 (n + 1), h⟩

def Grid.matrix (g : Grid ℝ) (m n : Nat) : Matrix (Fin m) (Fin n) ℝ :=
  Matrix.of fun i j => g.entry i j

theorem Grid.matrix_apply (g : Grid ℝ) {m n : Nat} (i : Fin m) (j : Fin n) :
    g.matrix m n i j = g.entry i j := rfl

theorem decimal_eq (units places : Nat) : (Scalar.decimal units places : ℝ) = units / 10 ^ places :=
  rfl

theorem ofNat_eq (n : Nat) : (Scalar.ofNat n : ℝ) = n := by
  rw [Scalar.ofNat, decimal_eq, pow_zero, div_one]

namespace Geometry

variable {n : Nat} {a b : List ℝ} (j : Grid ℝ) (f : Nat → ℝ) (m : Nat) (s t : Fin n)

/-! ## Vectors -/

theorem sum_range_three : ((range 3).map f).sum = f 0 + f 1 + f 2 := by
  change f 0 + (f 1 + (f 2 + 0)) = _
  ring

/-- The first coordinates of a list. -/
noncomputable def vector (n : Nat) (v : List ℝ) : Fin n → ℝ := fun i => coordinate v i

theorem sum_range_eq_sum (n : Nat) (f : Nat → ℝ) : ((range n).map f).sum = ∑ i : Fin n, f i := by
  rw [Fin.sum_univ_def, ← map_coe_finRange_eq_range, List.map_map]
  rfl

theorem dot_map (g : Nat → ℝ) : Scalar.dot ((range n).map f) ((range n).map g) =
      ((range n).map fun i => f i * g i).sum := by
  rw [Scalar.dot, zipWith_map_left, zipWith_map_right, zipWith_self, sum_eq_foldl]

theorem norm_map :
    Scalar.norm ((range n).map f) = Real.sqrt ((range n).map fun i => f i * f i).sum := by
  rw [Scalar.norm, dot_map]
  rfl

theorem coordinate_edge {x : Grid ℝ} {a b g : Nat} (h : g < x.rows) :
    coordinate (edge x a b) g = x.entry g b - x.entry g a := by
  simp [coordinate, edge, h]

theorem length_edge (x : Grid ℝ) (a b : Nat) : (edge x a b).length = x.rows := by
  rw [edge, length_map, length_range]

theorem eq_map_coordinate (h : a.length = n) : a = (range n).map (coordinate a) := by
  refine ext_getElem (by simp [h]) fun i hi _ => ?_
  simp [coordinate, hi]

theorem zip_range (point : List ℝ) : (range point.length).zip point =
    (range point.length).map fun t => (t, point[t]?.getD 0) := by
  refine ext_getElem (by simp) fun t ht ht' => ?_
  simp only [length_map, length_range] at ht'
  simp [ht']

theorem coordinate_map_range {i : Nat} (h : i < n) (f : Nat → ℝ) :
    coordinate ((range n).map f) i = f i := by
  simp [coordinate, h]

theorem vector_map_range (n : Nat) (f : Nat → ℝ) :
    vector n ((range n).map f) = fun i : Fin n => f i :=
  funext fun i => coordinate_map_range i.isLt f

theorem length_column (g : Grid ℝ) (i : Nat) : (g.column i).length = g.rows := by
  rw [Grid.column, length_map, length_range]

theorem eq_of_vector_eq (ha : a.length = n) (hb : b.length = n) (h : vector n a = vector n b) :
    a = b := by
  rw [eq_map_coordinate ha, eq_map_coordinate hb]
  refine map_congr_left fun i hi => ?_
  exact congrFun h ⟨i, mem_range.1 hi⟩

theorem dot_eq_dotProduct (ha : a.length = n) (hb : b.length = n) :
    Scalar.dot a b = vector n a ⬝ᵥ vector n b := by
  rw [eq_map_coordinate ha, eq_map_coordinate hb, dot_map, sum_range_eq_sum, vector_map_range,
    vector_map_range]
  rfl

theorem vector_sub (ha : a.length = n) (hb : b.length = n) :
    vector n (zipWith (· - ·) a b) = vector n a - vector n b := by
  rw [eq_map_coordinate ha, eq_map_coordinate hb, zipWith_map_left, zipWith_map_right, zipWith_self,
    vector_map_range, vector_map_range, vector_map_range]
  rfl

/-! ## The formulas for the inverse -/

/-- The products of the columns of a grid. -/
def gram (j : Grid ℝ) (m n : Nat) : Matrix (Fin n) (Fin n) ℝ := (j.matrix m n)ᵀ * j.matrix m n

theorem gram_apply :
    gram j m n s t = Scalar.sum ((range m).map fun g => j.entry g s * j.entry g t) := by
  rw [Scalar.sum_eq_sum, sum_range_eq_sum, gram, Matrix.mul_apply]
  rfl

theorem gram_comm : gram j m n s t = gram j m n t s := by
  simp only [gram_apply, mul_comm]

theorem det_gram_square (n : Nat) : (gram j n n).det = (j.matrix n n).det ^ 2 := by
  rw [gram, det_mul, det_transpose, sq]

theorem inv_eq_pseudoInverse {j : Grid ℝ} (h : (gram j n n).det ≠ 0) :
    (j.matrix n n)⁻¹ = (gram j n n)⁻¹ * (j.matrix n n)ᵀ := by
  have hunit : IsUnit (j.matrix n n)ᵀ.det := by
    rw [det_transpose, isUnit_iff_ne_zero]
    rw [det_gram_square] at h
    exact fun hzero => h (by rw [hzero, zero_pow two_ne_zero])
  rw [gram, Matrix.mul_inv_rev, Matrix.mul_assoc, nonsing_inv_mul _ hunit, Matrix.mul_one]

theorem inverse_line : (inverseJacobian j .line).1 = (j.matrix 1 1).det ∧
      (inverseJacobian j .line).2.matrix 1 1 = (j.matrix 1 1)⁻¹ := by
  have hdet : (inverseJacobian j .line).1 = (j.matrix 1 1).det := by
    rw [det_fin_one]
    rfl
  refine ⟨hdet, ?_⟩
  rw [inv_def, ← hdet, adjugate_fin_one, Ring.inverse_eq_inv']
  ext t g
  fin_cases t
  fin_cases g
  simp [Grid.matrix, inverseJacobian, Grid.entry_ofFn]

theorem inverse_plane : (inverseJacobian j .plane).1 = (j.matrix 2 2).det ∧
      (inverseJacobian j .plane).2.matrix 2 2 = (j.matrix 2 2)⁻¹ := by
  have hdet : (inverseJacobian j .plane).1 = (j.matrix 2 2).det := by
    rw [det_fin_two]
    rfl
  refine ⟨hdet, ?_⟩
  rw [inv_def, ← hdet, adjugate_fin_two, Ring.inverse_eq_inv']
  ext t g
  fin_cases t <;> fin_cases g <;>
    simp [Grid.matrix, inverseJacobian, Grid.entry_ofFn, div_eq_inv_mul]

/-- The cofactors are the entries of the adjugate, with rows and columns exchanged. -/
theorem matrix_cofactors : (cofactors j.entry).matrix 3 3 = (j.matrix 3 3).adjugateᵀ := by
  rw [adjugate_fin_three]
  ext a b
  fin_cases a <;> fin_cases b <;> simp [Grid.matrix, cofactors, Grid.entry_ofFn] <;> ring

theorem inverse_solid : (inverseJacobian j .solid).1 = (j.matrix 3 3).det ∧
      (inverseJacobian j .solid).2.matrix 3 3 = (j.matrix 3 3)⁻¹ := by
  have hdet : (inverseJacobian j .solid).1 = (j.matrix 3 3).det := by
    rw [det_fin_three]
    simp (disch := decide) only [inverseJacobian, cofactors, Grid.entry_ofFn]
    simp only [Grid.matrix_apply, Fin.coe_ofNat_eq_mod, Nat.zero_mod, Nat.one_mod, Nat.mod_succ]
    ring
  refine ⟨hdet, ?_⟩
  rw [inv_def, ← hdet, ← transpose_transpose (adjugate _), ← matrix_cofactors,
    Ring.inverse_eq_inv']
  ext t g
  rw [Matrix.smul_apply, smul_eq_mul, ← div_eq_inv_mul]
  exact Grid.entry_ofFn _ t.isLt g.isLt

theorem inverse_curve : (Grid.ofFn 1 m fun _ g => j.entry g 0 /
      Scalar.sum ((range m).map fun g => j.entry g 0 * j.entry g 0)).matrix 1 m =
      (gram j m 1)⁻¹ * (j.matrix m 1)ᵀ := by
  rw [inv_def, Ring.inverse_eq_inv', det_fin_one, adjugate_fin_one, Matrix.smul_mul, Matrix.one_mul]
  ext t g
  rw [Matrix.smul_apply, smul_eq_mul, ← div_eq_inv_mul, gram_apply, Subsingleton.elim t 0]
  exact Grid.entry_ofFn _ Nat.one_pos g.isLt

theorem inverse_surface :
    (inverseJacobian j .surface).2.matrix 2 3 = (gram j 3 2)⁻¹ * (j.matrix 3 2)ᵀ := by
  rw [inv_def, Ring.inverse_eq_inv', det_fin_two, adjugate_fin_two, gram_comm j 3 1 0]
  ext t g
  rw [Grid.matrix_apply, Matrix.mul_apply, Fin.sum_univ_two]
  simp only [gram_apply]
  fin_cases t <;> simp [inverseJacobian, Grid.entry_ofFn, Grid.matrix_apply] <;> ring

theorem inverseJacobian_eq (d : Dimensions) (h : (gram j d.gdim d.tdim).det ≠ 0) :
    (inverseJacobian j d).2.matrix d.tdim d.gdim =
      (gram j d.gdim d.tdim)⁻¹ * (j.matrix d.gdim d.tdim)ᵀ := by
  induction d using Dimensions.pairs with
  | line => exact (inverse_line j).2.trans (inv_eq_pseudoInverse h)
  | planeCurve => exact inverse_curve j 2
  | spaceCurve => exact inverse_curve j 3
  | plane => exact (inverse_plane j).2.trans (inv_eq_pseudoInverse h)
  | surface => exact inverse_surface j
  | solid => exact (inverse_solid j).2.trans (inv_eq_pseudoInverse h)

theorem determinant_eq (d : Dimensions) (h : d.tdim = d.gdim) :
    (inverseJacobian j d).1 = (j.matrix d.gdim d.gdim).det := by
  induction d using Dimensions.pairs with
  | line => exact (inverse_line j).1
  | plane => exact (inverse_plane j).1
  | solid => exact (inverse_solid j).1
  | planeCurve | spaceCurve | surface => cases h

theorem determinant_sq_curve :
    Real.sqrt (Scalar.sum ((range m).map fun g => j.entry g 0 * j.entry g 0)) ^ 2 =
      (gram j m 1).det := by
  rw [det_fin_one, gram_apply, Real.sq_sqrt]
  · rfl
  · rw [Scalar.sum_eq_sum, sum_range_eq_sum]
    exact Finset.sum_nonneg fun g _ => mul_self_nonneg _

theorem determinant_sq_surface : (inverseJacobian j .surface).1 ^ 2 = (gram j 3 2).det := by
  refine (Real.sq_sqrt ?_).trans ?_
  · exact add_nonneg (add_nonneg (mul_self_nonneg _) (mul_self_nonneg _)) (mul_self_nonneg _)
  -- The square of the length of a cross product, in terms of products of its operands.
  · rw [det_fin_two]
    simp only [gram_apply, Scalar.sum_eq_sum, sum_range_three, Fin.coe_ofNat_eq_mod, Nat.zero_mod,
      Nat.mod_succ]
    ring

theorem determinant_sq (d : Dimensions) :
    (inverseJacobian j d).1 ^ 2 = (gram j d.gdim d.tdim).det := by
  induction d using Dimensions.pairs with
  | line => exact (congrArg (· ^ 2) (inverse_line j).1).trans (det_gram_square j 1).symm
  | planeCurve => exact determinant_sq_curve j 2
  | spaceCurve => exact determinant_sq_curve j 3
  | plane => exact (congrArg (· ^ 2) (inverse_plane j).1).trans (det_gram_square j 2).symm
  | surface => exact determinant_sq_surface j
  | solid => exact (congrArg (· ^ 2) (inverse_solid j).1).trans (det_gram_square j 3).symm

theorem cellVolume_eq (det : ℝ) (d : Dimensions) :
    cellVolume det d.tdim = |det| / d.tdim.factorial := by
  induction d using Dimensions.pairs <;>
    norm_num [cellVolume, Shape.ofDimension?, Shape.volume, Scalar.abs_eq_abs, decimal_eq,
      ofNat_eq, Nat.factorial, div_eq_mul_inv]

theorem vector_apply {m : Grid ℝ} (h : 0 < m.cols) (v : List ℝ) :
    vector m.rows (apply m v) = m.matrix m.rows m.cols *ᵥ vector m.cols v := by
  have hrange : range m.cols = 0 :: (range m.cols).drop 1 := by
    rcases Nat.exists_eq_succ_of_ne_zero h.ne' with ⟨c, hc⟩
    rw [hc, range_succ_eq_map]
    rfl
  -- The first column starts the sum that the others are added to.
  rw [apply, vector_map_range]
  funext i
  rw [Scalar.foldl_add_eq_sum, ← sum_cons]
  refine Eq.trans ?_ (sum_range_eq_sum m.cols fun k => m.entry i k * coordinate v k)
  conv_rhs => rw [hrange, map_cons]

variable {x : Grid ℝ} {d : Dimensions}

theorem toPhysical_vector (hrows : x.rows = d.gdim) (hcols : x.cols = d.tdim + 1) {p : List ℝ}
    (hp : p.length = d.tdim) : ∃ y, toPhysical x p = .ok y ∧ y.length = d.gdim ∧ vector d.gdim y =
      vector d.gdim (x.column 0) + (jacobian x d).matrix d.gdim d.tdim *ᵥ vector d.tdim p := by
  refine ⟨_, toPhysical_eq_ok (by omega), by simp [hrows], ?_⟩
  -- Barycentric weights add up to one, which leaves vertex zero and edges from it.
  rw [hrows, vector_map_range, Grid.column, hrows, vector_map_range]
  funext g
  refine congrArg (x.entry g 0 + ·) ?_
  rw [zip_range, hp, List.map_map, sum_range_eq_sum]
  refine Finset.sum_congr rfl fun t _ => ?_
  have hentry : (jacobian x d).entry g t = x.entry g (t + 1) - x.entry g 0 :=
    Grid.entry_ofFn _ g.isLt t.isLt
  exact (congrArg (· * coordinate p t) hentry).symm

theorem toReference_vector (hrows : x.rows = d.gdim) {k : Grid ℝ} (hk : k.rows = d.tdim)
    (hk' : k.cols = d.gdim) {y : List ℝ} (hy : y.length = d.gdim) :
    ∃ p, toReference x k y = .ok p ∧ p.length = d.tdim ∧ vector d.tdim p =
      k.matrix d.tdim d.gdim *ᵥ (vector d.gdim y - vector d.gdim (x.column 0)) := by
  have hcolumn : (x.column 0).length = d.gdim := (length_column x 0).trans hrows
  refine ⟨apply k (zipWith (· - ·) y (x.column 0)), ?_, by simp [apply, hk], ?_⟩
  · refine bind_eq_ok.2 ⟨(), Checked.require_eq_ok.2 ?_, rfl⟩
    rw [hy, hrows, decide_eq_true_iff]
  · have happly := vector_apply (m := k) (by rw [hk']; exact d.tdim_pos.trans d.tdim_le)
      (zipWith (· - ·) y (x.column 0))
    rw [hk, hk'] at happly
    rw [happly, vector_sub hy hcolumn]

theorem inverseJacobian_size {α : Type} [Scalar α] (j : Grid α) (d : Dimensions) :
    (inverseJacobian j d).2.rows = d.tdim ∧ (inverseJacobian j d).2.cols = d.gdim := by
  induction d using Dimensions.pairs <;> exact ⟨rfl, rfl⟩

section

variable {j : Grid ℝ} (h : (gram j d.gdim d.tdim).det ≠ 0)

include h

theorem inverse_mul_jacobian : (inverseJacobian j d).2.matrix d.tdim d.gdim *
    j.matrix d.gdim d.tdim = 1 := by
  rw [inverseJacobian_eq j d h, Matrix.mul_assoc]
  exact nonsing_inv_mul _ (isUnit_iff_ne_zero.2 h)

/-- Only a square Jacobian has its inverse on both sides. -/
theorem jacobian_mul_inverse (hsquare : d.tdim = d.gdim) : j.matrix d.gdim d.tdim *
    (inverseJacobian j d).2.matrix d.tdim d.gdim = 1 := by
  -- A left inverse of a square matrix is its inverse.
  have hcard : Fintype.card (Fin d.tdim) = Fintype.card (Fin d.gdim) := by
    rw [Fintype.card_fin, Fintype.card_fin, hsquare]
  exact (mul_eq_one_comm_of_card_eq _ _ _ hcard).1 (inverse_mul_jacobian h)

/-- The normal equations: what the inverse leaves of a vector is orthogonal to the columns. -/
theorem transpose_mul_inverse : (j.matrix d.gdim d.tdim)ᵀ *
    (j.matrix d.gdim d.tdim * (inverseJacobian j d).2.matrix d.tdim d.gdim) =
      (j.matrix d.gdim d.tdim)ᵀ := by
  rw [inverseJacobian_eq j d h, ← Matrix.mul_assoc]
  exact mul_nonsing_inv_cancel_left _ _ (isUnit_iff_ne_zero.2 h)

end

section

variable (hrows : x.rows = d.gdim) (hcols : x.cols = d.tdim + 1)
  (h : (gram (jacobian x d) d.gdim d.tdim).det ≠ 0)

include hrows hcols h

theorem toReference_toPhysical {p : List ℝ} (hp : p.length = d.tdim) : ∃ y,
    toPhysical x p = .ok y ∧ toReference x (inverseJacobian (jacobian x d) d).2 y = .ok p := by
  rcases inverseJacobian_size (jacobian x d) d with ⟨hk, hk'⟩
  rcases toPhysical_vector hrows hcols hp with ⟨y, hy, hlength, hvector⟩
  rcases toReference_vector hrows hk hk' hlength with ⟨q, hq, hlength', hvector'⟩
  have hpq : q = p := by
    refine eq_of_vector_eq hlength' hp ?_
    rw [hvector', hvector, add_sub_cancel_left, mulVec_mulVec, inverse_mul_jacobian h, one_mulVec]
  exact ⟨y, hy, hpq ▸ hq⟩

/-- A point of space differs from the image of its reference coordinates by a vector that is
    orthogonal to the cell. -/
theorem toPhysical_toReference {y : List ℝ} (hy : y.length = d.gdim) : ∃ p z,
    toReference x (inverseJacobian (jacobian x d) d).2 y = .ok p ∧ toPhysical x p = .ok z ∧
      (∀ t < d.tdim, Scalar.dot ((jacobian x d).column t) (zipWith (· - ·) y z) = 0) ∧
      (d.tdim = d.gdim → z = y) := by
  rcases inverseJacobian_size (jacobian x d) d with ⟨hk, hk'⟩
  rcases toReference_vector hrows hk hk' hy with ⟨p, hp, hlength, hvector⟩
  rcases toPhysical_vector hrows hcols hlength with ⟨z, hz, hlength', hvector'⟩
  rw [hvector, mulVec_mulVec] at hvector'
  refine ⟨p, z, hp, hz, fun t ht => ?_, fun hsquare => ?_⟩
  · have hresidual : ((jacobian x d).matrix d.gdim d.tdim)ᵀ *ᵥ
        vector d.gdim (zipWith (· - ·) y z) = 0 := by
      rw [vector_sub hy hlength', hvector', sub_add_eq_sub_sub, mulVec_sub, mulVec_mulVec,
        transpose_mul_inverse h, sub_self]
    have hcolumn : vector d.gdim ((jacobian x d).column t) =
        ((jacobian x d).matrix d.gdim d.tdim)ᵀ ⟨t, ht⟩ := vector_map_range _ _
    have hlength'' : (zipWith (· - ·) y z).length = d.gdim := by
      rw [length_zipWith, hy, hlength', min_self]
    rw [dot_eq_dotProduct (n := d.gdim) (length_column _ t) hlength'', hcolumn]
    exact congrFun hresidual ⟨t, ht⟩
  · refine eq_of_vector_eq hlength' hy ?_
    rw [hvector', jacobian_mul_inverse h hsquare, one_mulVec, add_sub_cancel]

end

end Geometry

/-- A triangle in space that is in none of the planes of two axes. -/
noncomputable def tiltedTriangle : Grid ℝ :=
  Grid.ofFn 3 3 fun g v =>
    match g, v with
    | 0, 1 => 1
    | 2, 1 => 1
    | 1, 2 => 1
    | _, _ => 0

theorem det_gram_tiltedTriangle :
    (Geometry.gram (jacobian tiltedTriangle .surface) 3 2).det = 2 := by
  rw [det_fin_two]
  simp only [Geometry.gram_apply, Scalar.sum_eq_sum, sum_range_three, jacobian]
  norm_num [tiltedTriangle, Grid.entry_ofFn]

/-- The inverse of a cell inverts its map: it is the pseudo-inverse of the Jacobian, points of the
    reference cell come back from space, and what is lost of a point of space is orthogonal to the
    cell. -/
structure AffineMap.Inverts (m : AffineMap ℝ) : Prop where
  left_inverse : m.inverse.matrix m.dims.tdim m.dims.gdim *
    m.jacobian.matrix m.dims.gdim m.dims.tdim = 1
  pseudoInverse : m.inverse.matrix m.dims.tdim m.dims.gdim =
    ((m.jacobian.matrix m.dims.gdim m.dims.tdim)ᵀ *
      m.jacobian.matrix m.dims.gdim m.dims.tdim)⁻¹ * (m.jacobian.matrix m.dims.gdim m.dims.tdim)ᵀ
  determinant_sq : m.determinant ^ 2 = ((m.jacobian.matrix m.dims.gdim m.dims.tdim)ᵀ *
    m.jacobian.matrix m.dims.gdim m.dims.tdim).det
  determinant_eq : m.dims.tdim = m.dims.gdim →
    m.determinant = (m.jacobian.matrix m.dims.gdim m.dims.gdim).det
  reference : ∀ p : List ℝ, p.length = m.dims.tdim → ∃ y,
    Geometry.toPhysical m.vertices p = .ok y ∧
      Geometry.toReference m.vertices m.inverse y = .ok p
  physical : ∀ y : List ℝ, y.length = m.dims.gdim → ∃ p z,
    Geometry.toReference m.vertices m.inverse y = .ok p ∧
      Geometry.toPhysical m.vertices p = .ok z ∧
      (∀ t < m.dims.tdim, Scalar.dot (m.jacobian.column t) (List.zipWith (· - ·) y z) = 0) ∧
      (m.dims.tdim = m.dims.gdim → z = y)

/-- Cells that are not degenerate are inverted, for all pairs of dimensions. -/
theorem AffineMap.of_inverts {x : Grid ℝ} {d : Dimensions} (hrows : x.rows = d.gdim)
    (hcols : x.cols = d.tdim + 1)
    (h : (((Geometry.jacobian x d).matrix d.gdim d.tdim)ᵀ *
      (Geometry.jacobian x d).matrix d.gdim d.tdim).det ≠ 0) :
    ∃ m, AffineMap.of x d = .ok m ∧ m.dims = d ∧ m.vertices = x ∧
      m.jacobian = Geometry.jacobian x d ∧
      (m.determinant, m.inverse) = Geometry.inverseJacobian (Geometry.jacobian x d) d ∧
      m.Inverts := by
  refine ⟨⟨d, x, _, _, _⟩, bind_eq_ok.2 ⟨(), Geometry.checkVertices_eq_ok.2 ⟨hrows, hcols⟩, rfl⟩,
    rfl, rfl, rfl, rfl, ?_⟩
  exact {
    left_inverse := Geometry.inverse_mul_jacobian h
    pseudoInverse := Geometry.inverseJacobian_eq _ d h
    determinant_sq := Geometry.determinant_sq _ d
    determinant_eq := Geometry.determinant_eq _ d
    reference := fun _ hp => Geometry.toReference_toPhysical hrows hcols h hp
    physical := fun _ hy => Geometry.toPhysical_toReference hrows hcols h hy }

theorem AffineMap.of_inverts_tilted :
    (tiltedTriangle.rows = 3 ∧ tiltedTriangle.cols = 2 + 1 ∧
      (((Geometry.jacobian tiltedTriangle .surface).matrix 3 2)ᵀ *
        (Geometry.jacobian tiltedTriangle .surface).matrix 3 2).det ≠ 0) ∧
    ∃ m, AffineMap.of tiltedTriangle .surface = .ok m ∧ m.determinant ^ 2 = 2 ∧
      ∃ p z, Geometry.toReference tiltedTriangle m.inverse [0, 0, 1] = .ok p ∧
        Geometry.toPhysical tiltedTriangle p = .ok z ∧
        ∀ t < 2, Scalar.dot (m.jacobian.column t) (List.zipWith (· - ·) [0, 0, 1] z) = 0 := by
  have hdet : (((Geometry.jacobian tiltedTriangle .surface).matrix 3 2)ᵀ *
      (Geometry.jacobian tiltedTriangle .surface).matrix 3 2).det ≠ 0 := by
    rw [← Geometry.gram, det_gram_tiltedTriangle]
    norm_num
  refine ⟨⟨rfl, rfl, hdet⟩, ?_⟩
  rcases AffineMap.of_inverts (x := tiltedTriangle) (d := .surface) rfl rfl hdet with
    ⟨⟨_, _, _, _, _⟩, hm, rfl, rfl, rfl, _, hinverts⟩
  rcases hinverts.physical [0, 0, 1] rfl with ⟨p, z, hp, hz, hortho, _⟩
  exact ⟨_, hm, hinverts.determinant_sq.trans det_gram_tiltedTriangle, p, z, hp, hz, hortho⟩

end WeakForm
