import WeakForm.Proofs.Circumspheres

/-!
# Cells with renumbered vertices

Which vertex is called zero decides about all columns of the Jacobian, and the formula for the
circumradius treats the vertices differently as well. None of this can be seen in the results:
when the vertices of a cell are renumbered, the determinant changes by the sign of the
permutation, or not at all where it is a root, and volume and circumradius stay the same.

For the determinant this is a factorization. The edges of the renumbered cell are combinations of
the old edges, with the edges of a renumbered reference cell as coefficients (`renumbering`). The
determinant of the coefficients is that of a permutation matrix: a determinant of differences is
one of points with a leading one (`det_points`), and that changes with the order of its rows. The
circumradius needs no formula at all. It is the radius of a sphere through all vertices, and there
is only one such sphere (`Circumscribes.unique`).

## Theorems

* `Geometry.det_renumbering`: Their determinant is the sign of the permutation.
* `Geometry.jacobian_renumbered`: The Jacobian of a renumbered cell.
* `Geometry.Circumscribes.unique`: The circumscribed sphere is unique.
* `Geometry.renumbered`: Determinant, volume and circumradius of a renumbered cell.
-/

namespace WeakForm

open Matrix Equiv

namespace Geometry

/-! ## Permutations and determinants -/

variable {n : Nat}

/-- The determinant of the edges from the first point is that of the points themselves, each with a
    leading one. -/
theorem det_points (p : Fin (n + 1) → Fin n → ℝ) :
    (Matrix.of fun v => (Fin.cons 1 (p v) : Fin (n + 1) → ℝ)).det =
      (Matrix.of fun t g => p (Fin.succ t) g - p 0 g).det := by
  -- The first row is taken away from all others, which leaves a single one in the first column.
  rw [det_eq_of_forall_row_eq_smul_add_const
      (B := Matrix.of (Fin.cons (Fin.cons 1 (p 0)) fun t => Fin.cons 0 fun g =>
        p (Fin.succ t) g - p 0 g)) (Fin.cons 0 fun _ => 1) 0 rfl,
    det_succ_column_zero, Fin.sum_univ_succ, Finset.sum_eq_zero]
  · simp
    rfl
  · simp
  · intro v j
    cases v using Fin.cases <;> cases j using Fin.cases <;> simp

/-- The edges of the reference cell with renumbered vertices. -/
noncomputable def renumbering {n : Nat} (s : Perm (Fin (n + 1))) : Matrix (Fin n) (Fin n) ℝ :=
  Matrix.of fun k t => (if s t.succ = k.succ then 1 else 0) - if s 0 = k.succ then 1 else 0

theorem det_renumbering (s : Perm (Fin (n + 1))) : (renumbering s).det = Perm.sign s := by
  set p : Fin (n + 1) → Fin n → ℝ := fun v k => if v = k.succ then 1 else 0
  have hone : (Matrix.of fun v => (Fin.cons 1 (p v) : Fin (n + 1) → ℝ)).det = 1 := by
    rw [det_points, ← det_one (n := Fin n)]
    refine congrArg det (Matrix.ext fun t k => ?_)
    simp [p, Matrix.one_apply, (Fin.succ_ne_zero k).symm]
  have hperm := det_permute s (Matrix.of fun v => (Fin.cons 1 (p v) : Fin (n + 1) → ℝ))
  rw [hone, mul_one] at hperm
  rw [← hperm, ← det_transpose]
  exact (det_points fun v => p (s v)).symm

theorem sum_differences (f : Fin (n + 1) → ℝ) (v : Fin (n + 1)) :
    ∑ k : Fin n, (f k.succ - f 0) * (if v = k.succ then 1 else 0) = f v - f 0 := by
  cases v using Fin.cases with
  | zero => simp [Fin.succ_ne_zero, eq_comm]
  | succ j => simp

variable {x y : Grid ℝ} {d : Dimensions}

section

variable {s : Perm (Fin (d.tdim + 1))}
  (h : ∀ g < d.gdim, ∀ v : Fin (d.tdim + 1), y.entry g v = x.entry g (s v))

include h

theorem jacobian_renumbered : (jacobian y d).matrix d.gdim d.tdim =
    (jacobian x d).matrix d.gdim d.tdim * renumbering s := by
  ext g t
  have hsum := sum_differences fun v : Fin (d.tdim + 1) => x.entry g v
  simp only [Fin.val_succ, Fin.val_zero] at hsum
  rw [Matrix.mul_apply]
  simp only [Grid.matrix_apply, jacobian, Grid.entry_ofFn _ g.isLt (Fin.isLt _), renumbering,
    Matrix.of_apply, mul_sub, Finset.sum_sub_distrib]
  rw [hsum, hsum, ← h g g.isLt, ← h g g.isLt, sub_sub_sub_cancel_right]
  rfl

theorem determinant_renumbered (hsquare : d.tdim = d.gdim) : (inverseJacobian (jacobian y d) d).1 =
      Perm.sign s * (inverseJacobian (jacobian x d) d).1 := by
  rw [determinant_eq _ d hsquare, determinant_eq _ d hsquare]
  have hjacobian := jacobian_renumbered h
  induction d using Dimensions.pairs with
  | line | plane | solid =>
    refine (congrArg det hjacobian).trans ((det_mul _ _).trans ?_)
    rw [det_renumbering, mul_comm]
  | planeCurve | spaceCurve | surface => cases hsquare

theorem determinant_sq_renumbered : (inverseJacobian (jacobian y d) d).1 ^ 2 =
    (inverseJacobian (jacobian x d) d).1 ^ 2 := by
  have hsign : ((Perm.sign s : ℤ) : ℝ) * (Perm.sign s : ℤ) = 1 := by
    rw [← Int.cast_mul, ← Units.val_mul, Int.units_mul_self, Units.val_one, Int.cast_one]
  rw [determinant_sq, determinant_sq, gram, gram, jacobian_renumbered h, transpose_mul,
    Matrix.mul_assoc, ← Matrix.mul_assoc _ _ (renumbering s), det_mul, det_mul, det_transpose,
    det_renumbering, mul_comm, mul_assoc, hsign, mul_one]

end

/-- Where the determinant is a root it has no sign. -/
theorem determinant_nonneg (j : Grid ℝ) (hmanifold : d.tdim < d.gdim) :
    0 ≤ (inverseJacobian j d).1 := by
  induction d using Dimensions.pairs with
  | line | plane | solid => exact absurd hmanifold (lt_irrefl _)
  | planeCurve | spaceCurve | surface => exact Real.sqrt_nonneg _

/-! ## The circumscribed sphere -/

namespace Circumscribes

variable {p q : Fin d.gdim → ℝ} {r r' : ℝ}

/-- The linear system of the center, from the distances. -/
theorem product (hrows : x.rows = d.gdim) (h : Circumscribes x d p r) {v : Nat} (hv : v ≤ d.tdim) :
    2 * ((p - vector d.gdim (x.column 0)) ⬝ᵥ vector d.gdim (edge x 0 v)) =
      Scalar.dot (edge x 0 v) (edge x 0 v) := by
  have hself : ∀ u : Fin d.gdim → ℝ, 0 ≤ u ⬝ᵥ u :=
    fun u => Finset.sum_nonneg fun g _ => mul_self_nonneg _
  have hequal := (h.distance ⟨v, Nat.lt_succ_of_le hv⟩).trans (h.distance 0).symm
  rw [Real.sqrt_inj (hself _) (hself _)] at hequal
  have hvertex := distance_sq hrows (p - vector d.gdim (x.column 0)) v
  rw [sub_add_cancel, hequal, Fin.val_zero] at hvertex
  linear_combination hvertex

theorem unique (hrows : x.rows = d.gdim) (hp : Circumscribes x d p r)
    (hq : Circumscribes x d q r') : p = q ∧ r = r' := by
  have hcenter : p = q := by
    refine sub_eq_zero.1 (eq_zero_of_mem_tangents hrows ?_ fun v hv => ?_)
    · rw [← direction_eq_tangents hrows]
      exact AffineSubspace.vsub_mem_direction hp.hull hq.hull
    · have hproduct := (hp.product hrows hv).trans (hq.product hrows hv).symm
      rw [mul_right_inj' two_ne_zero, ← sub_eq_zero, ← sub_dotProduct, sub_sub_sub_cancel_right]
        at hproduct
      rw [dotProduct_comm, hproduct]
  subst hcenter
  exact ⟨rfl, (hp.distance 0).symm.trans (hq.distance 0)⟩

/-- The sphere does not know about the numbers of the vertices. -/
theorem of_renumbered (hx : x.rows = d.gdim) (hy : y.rows = d.gdim) {s : Perm (Fin (d.tdim + 1))}
    (h : ∀ g < d.gdim, ∀ v : Fin (d.tdim + 1), y.entry g v = x.entry g (s v))
    (hsphere : Circumscribes y d p r) : Circumscribes x d p r := by
  have hcolumn : ∀ v : Fin (d.tdim + 1),
      vector d.gdim (y.column v) = vector d.gdim (x.column (s v)) := by
    intro v
    rw [Grid.column, Grid.column, hx, hy, vector_map_range, vector_map_range]
    exact funext fun g => h g g.isLt v
  rcases hsphere with ⟨hhull, hdistance⟩
  simp only [hcolumn] at hhull hdistance
  constructor
  · have hrange := s.surjective.range_comp
      fun v : Fin (d.tdim + 1) => vector d.gdim (x.column v)
    rwa [← hrange]
  · intro v
    have hvertex := hdistance (s.symm v)
    rwa [Equiv.apply_symm_apply] at hvertex

end Circumscribes

/-- Renumbering the vertices of a cell changes the determinant by the sign of the permutation, and
    not at all where it is a pseudo-determinant. Volume and circumradius stay the same. -/
theorem renumbered (hx : x.rows = d.gdim) (hy : y.rows = d.gdim) (s : Perm (Fin (d.tdim + 1)))
    (h : ∀ g < d.gdim, ∀ v : Fin (d.tdim + 1), y.entry g v = x.entry g (s v)) :
    (d.tdim = d.gdim → (inverseJacobian (jacobian y d) d).1 =
      Perm.sign s * (inverseJacobian (jacobian x d) d).1) ∧
    (d.tdim < d.gdim →
      (inverseJacobian (jacobian y d) d).1 = (inverseJacobian (jacobian x d) d).1) ∧
    cellVolume (inverseJacobian (jacobian y d) d).1 d.tdim =
      cellVolume (inverseJacobian (jacobian x d) d).1 d.tdim ∧
    ((inverseJacobian (jacobian x d) d).1 ≠ 0 → circumradius y d = circumradius x d) := by
  have hsq := determinant_sq_renumbered h
  have habs := (sq_eq_sq_iff_abs_eq_abs _ _).1 hsq
  refine ⟨determinant_renumbered h, fun hmanifold => ?_, ?_, fun hdet => ?_⟩
  · exact (sq_eq_sq₀ (determinant_nonneg _ hmanifold) (determinant_nonneg _ hmanifold)).1 hsq
  · rw [cellVolume_eq, cellVolume_eq, habs]
  · rcases Nat.lt_or_ge d.tdim 2 with hone | htwo
    · have hinterval : ∀ z : Grid ℝ, circumradius z d = |(inverseJacobian (jacobian z d) d).1| := by
        intro z
        have htdim : d.tdim = 1 := Nat.le_antisymm (Nat.le_of_lt_succ hone) d.tdim_pos
        rw [circumradius, htdim]
        rfl
      rw [hinterval, hinterval, habs]
    · have hdet' : (inverseJacobian (jacobian y d) d).1 ≠ 0 := by
        rwa [← abs_ne_zero, habs, abs_ne_zero]
      rcases exists_circumscribes hx htwo hdet with ⟨p, hp⟩
      rcases exists_circumscribes hy htwo hdet' with ⟨q, hq⟩
      exact ((hq.of_renumbered hx hy h).unique hx hp).2

/-- The same tetrahedron, with another vertex as its corner. -/
noncomputable def turnedTetrahedron : Grid ℝ :=
  Grid.ofFn 3 4 fun g v => cornerTetrahedron.entry g (if v = 0 then 1 else if v = 1 then 0 else v)

theorem renumbered_corner :
    (cornerTetrahedron.rows = 3 ∧ turnedTetrahedron.rows = 3 ∧ ∀ g < 3, ∀ v : Fin 4,
      turnedTetrahedron.entry g v = cornerTetrahedron.entry g (swap (0 : Fin 4) 1 v)) ∧
    (inverseJacobian (jacobian turnedTetrahedron .solid) .solid).1 = -1 ∧
    circumradius turnedTetrahedron .solid = circumradius cornerTetrahedron .solid := by
  have hentries : ∀ g < 3, ∀ v : Fin 4,
      turnedTetrahedron.entry g v = cornerTetrahedron.entry g (swap (0 : Fin 4) 1 v) := by
    intro g hg v
    refine (Grid.entry_ofFn _ hg v.isLt).trans ?_
    fin_cases v <;> rfl
  rcases renumbered (x := cornerTetrahedron) (y := turnedTetrahedron) (d := .solid) rfl rfl
    (swap 0 1) hentries with ⟨hsign, _, _, hradius⟩
  rw [determinant_cornerTetrahedron] at hsign hradius
  refine ⟨⟨rfl, rfl, hentries⟩, (hsign rfl).trans ?_, hradius one_ne_zero⟩
  rw [Perm.sign_swap (by decide)]
  norm_num

end Geometry
end WeakForm
