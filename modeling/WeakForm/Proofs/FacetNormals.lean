import Mathlib.LinearAlgebra.CrossProduct
import Mathlib.LinearAlgebra.Matrix.DotProduct
import WeakForm.Proofs.PseudoInverse

/-!
# Outward normals

The normal of a facet is found in a different way for each pair of dimensions. What the ways
have in common is that they choose a direction first, which is orthogonal to the facet and
does not leave the cell, and then look at which side of the facet it points to. `outward` is
that second half: it brings a direction to length one and turns it away from a given vector.
A direction that is neither along the facet nor out of the cell is enough for an outward
normal (`isOutward_outward`), so that only the directions have to be looked at one by one.

The direction is the axis itself on a line, the cell on a curve, the turned edge in the plane,
the cross product of two edges in space, and the edge turned about the normal of the plane on
a surface. That it points to one side of the facet at all is where a cell must not be
degenerate: up to its sign, the product with the way to the opposite vertex is the determinant
or a power of it.

## Theorems

* `Geometry.rotate_edge`: The turned edge of a triangle.
* `Geometry.facetNormal_isOutward`: Normals of facets are outward unit normals.
-/

namespace WeakForm

open List Success Matrix

/-- The edges of a triangle, by the vertex that is not on them. -/
theorem Shape.triangle_facets {facet v0 v1 : Nat}
    (h : triangle.facetVertices facet = .ok [v0, v1]) :
    (facet = 0 ∧ v0 = 1 ∧ v1 = 2) ∨ (facet = 1 ∧ v0 = 0 ∧ v1 = 2) ∨
      (facet = 2 ∧ v0 = 0 ∧ v1 = 1) := by
  unfold facetVertices at h
  split at h
  case isTrue hf =>
    have hf : facet < 3 := hf
    interval_cases facet
    · cases (Except.ok.inj h : [1, 2] = [v0, v1])
      exact .inl ⟨rfl, rfl, rfl⟩
    · cases (Except.ok.inj h : [0, 2] = [v0, v1])
      exact .inr (.inl ⟨rfl, rfl, rfl⟩)
    · cases (Except.ok.inj h : [0, 1] = [v0, v1])
      exact .inr (.inr ⟨rfl, rfl, rfl⟩)
  case isFalse => cases h

namespace Geometry

variable (a : List ℝ) (c : ℝ)

/-! ## Turned directions -/

theorem coordinate_divide (i : Nat) : coordinate (divide a c) i = coordinate a i / c := by
  rw [coordinate, coordinate, divide, getElem?_map]
  cases a[i]? with
  | none => exact (zero_div c).symm
  | some x => rfl

theorem length_divide : (divide a c).length = a.length := length_map _

theorem vector_divide (n : Nat) (a : List ℝ) (c : ℝ) :
    vector n (divide a c) = c⁻¹ • vector n a := by
  funext i
  rw [vector, coordinate_divide, div_eq_inv_mul]
  rfl

theorem vector_negate (n : Nat) (a : List ℝ) : vector n (negate a) = -vector n a := by
  funext i
  change ((negate a)[(i : Nat)]?).getD 0 = -((a[(i : Nat)]?).getD 0)
  rw [negate, getElem?_map]
  cases a[(i : Nat)]? with
  | none => exact neg_zero.symm
  | some y => rfl

theorem dot_self_nonneg : 0 ≤ Scalar.dot a a := by
  rw [dot_eq_dotProduct rfl rfl]
  exact Finset.sum_nonneg fun i _ => mul_self_nonneg _

theorem norm_sq : Scalar.norm a ^ 2 = Scalar.dot a a :=
  Real.sq_sqrt (dot_self_nonneg a)

theorem divide_negate : divide (negate a) c = negate (divide a c) := by
  simp [divide, negate, Function.comp_def, neg_div]

section

variable {n : Nat} {a b : List ℝ}

theorem dot_divide (ha : a.length = n) (hb : b.length = n) (c : ℝ) :
    Scalar.dot (divide a c) b = Scalar.dot a b / c := by
  rw [dot_eq_dotProduct ((length_divide a c).trans ha) hb, dot_eq_dotProduct ha hb, vector_divide,
    smul_dotProduct, smul_eq_mul, inv_mul_eq_div]

theorem norm_pos (ha : a.length = n) (hb : b.length = n) (h : Scalar.dot a b ≠ 0) :
    0 < Scalar.norm a := by
  refine Real.sqrt_pos.2 (lt_of_le_of_ne (dot_self_nonneg a) fun hzero => h ?_)
  rw [dot_eq_dotProduct ha ha, eq_comm, dotProduct_self_eq_zero] at hzero
  rw [dot_eq_dotProduct ha hb, hzero, zero_dotProduct]

theorem norm_pos_of_dot_ne_zero (ha : a.length = 3) (hb : b.length = 3) (h : Scalar.dot a b ≠ 0) :
    0 < Scalar.norm a :=
  norm_pos ha hb h

theorem dot_normalize_self (h : Scalar.norm a ≠ 0) :
    Scalar.dot (normalize a) (normalize a) = 1 := by
  have hlength : (normalize a).length = a.length := length_divide _ _
  rw [dot_eq_dotProduct hlength hlength, normalize, vector_divide, smul_dotProduct,
    dotProduct_smul, ← dot_eq_dotProduct rfl rfl, ← norm_sq, smul_eq_mul, smul_eq_mul]
  field_simp

/-- Bringing a vector to length one does not change to which side of another it points. -/
theorem lt_dot_normalize (ha : a.length = n) (hb : b.length = n) (h : Scalar.dot a b ≠ 0) :
    Scalar.lt 0 (Scalar.dot (normalize a) b) = !Scalar.lt (Scalar.dot a b) 0 := by
  have hpos := norm_pos ha hb h
  rw [normalize, dot_divide ha hb]
  change decide (0 < Scalar.dot a b / Scalar.norm a) = !decide (Scalar.dot a b < 0)
  rw [← decide_not, decide_eq_decide, div_pos_iff_of_pos_right hpos, not_lt]
  exact ⟨le_of_lt, fun hle => lt_of_le_of_ne hle (Ne.symm h)⟩

end

/-- A direction, brought to length one and turned away from a vector. -/
noncomputable def outward (w away : List ℝ) : List ℝ :=
  divide (if Scalar.lt (Scalar.dot w away) 0 then w else negate w) (Scalar.norm w)

theorem length_outward (w away : List ℝ) : (outward w away).length = w.length := by
  rw [outward, length_divide, apply_ite List.length, negate, length_map, ite_self]

theorem outward_eq (w away : List ℝ) : outward w away =
    if Scalar.lt (Scalar.dot w away) 0 then normalize w else negate (normalize w) := by
  rw [outward, apply_ite (divide · _), divide_negate]
  rfl

/-- What is known of a turned direction: it is a multiple of the direction, by a factor that fits
    its length and is negative along the given vector. -/
theorem outward_spec {n : Nat} {away : List ℝ} (hw : w.length = n) (haway : away.length = n)
    (h : Scalar.dot w away ≠ 0) :
    ∃ c : ℝ, vector n (outward w away) = c • vector n w ∧ c * Scalar.dot w away < 0 ∧
      c ^ 2 * Scalar.dot w w = 1 := by
  have hnorm := norm_pos hw haway h
  have hunit : (Scalar.norm w)⁻¹ ^ 2 * Scalar.dot w w = 1 := by
    rw [inv_pow, ← norm_sq, inv_mul_cancel₀ (pow_pos hnorm 2).ne']
  -- The factor is one over the length, with the sign that makes the product negative.
  rw [outward, vector_divide]
  rcases lt_or_gt_of_ne h with hneg | hgt
  · rw [if_pos (Scalar.lt_eq_true.2 hneg)]
    exact ⟨_, rfl, mul_neg_of_pos_of_neg (inv_pos.2 hnorm) hneg, hunit⟩
  · rw [if_neg (fun hlt => hgt.not_gt (Scalar.lt_eq_true.1 hlt)), vector_negate, smul_neg,
      ← neg_smul]
    refine ⟨_, rfl, ?_, by rw [neg_sq, hunit]⟩
    exact mul_neg_of_neg_of_pos (neg_neg_of_pos (inv_pos.2 hnorm)) hgt

/-! ## Turning vectors in space -/

/-- A vector turned by a right angle about an axis of length one: the part along the axis stays. -/
noncomputable def rotate (k e : List ℝ) : List ℝ :=
  List.zipWith (· + ·) (cross k e) (k.map (· * Scalar.dot k e))

theorem length_rotate (hk : k.length = 3) (e : List ℝ) : (rotate k e).length = 3 := by
  rw [rotate, length_zipWith, length_map, hk]
  rfl

theorem coordinate_rotate (hk : k.length = 3) (e : List ℝ) {g : Nat} (hg : g < 3) :
    coordinate (rotate k e) g = coordinate (cross k e) g + coordinate k g * Scalar.dot k e := by
  rw [rotate]
  generalize Scalar.dot k e = along
  rcases length_eq_three.1 hk with ⟨k0, k1, k2, rfl⟩
  interval_cases g <;> rfl

/-- A vector that is orthogonal to the axis is just crossed with it. -/
theorem rotate_eq_cross {e : List ℝ} (hk : k.length = 3) (hortho : Scalar.dot k e = 0) :
    rotate k e = cross k e := by
  refine eq_of_vector_eq (n := 3) (length_rotate hk e) rfl (funext fun g => ?_)
  rw [vector, coordinate_rotate hk e g.isLt, hortho, mul_zero, add_zero]
  rfl

theorem vector_cross (b : List ℝ) : vector 3 (cross a b) = vector 3 a ⨯₃ vector 3 b := by
  rw [cross_apply]
  funext g
  fin_cases g <;> rfl

theorem cross_divide (b : List ℝ) (c : ℝ) : cross (divide a c) b = divide (cross a b) c := by
  simp only [cross, coordinate_divide]
  simp only [divide, map_cons, map_nil, sub_div, div_mul_eq_mul_div]

theorem dot_cross {a b : List ℝ} (ha : a.length = 3) (hb : b.length = 3) :
    Scalar.dot (cross a b) a = 0 ∧ Scalar.dot (cross a b) b = 0 := by
  rw [dot_eq_dotProduct (n := 3) rfl ha, dot_eq_dotProduct (n := 3) rfl hb, vector_cross,
    dotProduct_comm, dot_self_cross, dotProduct_comm, dot_cross_self]
  exact ⟨rfl, rfl⟩

theorem dot_three (a b c a' b' c' : ℝ) :
    Scalar.dot [a, b, c] [a', b', c'] = a * a' + b * b' + c * c' := by
  change 0 + a * a' + b * b' + c * c' = _
  ring

theorem cross_three (a b c a' b' c' : ℝ) :
    cross [a, b, c] [a', b', c'] = [b * c' - c * b', c * a' - a * c', a * b' - b * a'] := rfl

/-! ## Edges of a triangle in space -/

section

variable {x : Grid ℝ}

theorem edge_three (hx : x.rows = 3) (a b : Nat) : edge x a b =
    [x.entry 0 b - x.entry 0 a, x.entry 1 b - x.entry 1 a, x.entry 2 b - x.entry 2 a] := by
  rw [edge, hx]
  rfl

/-- The edges of a triangle are orthogonal to the normal of its plane, and what an edge spans with
    the way to the opposite vertex is the normal again, up to its sign. -/
theorem dot_cross_edges (hx : x.rows = 3) {facet v0 v1 : Nat}
    (h : Shape.triangle.facetVertices facet = .ok [v0, v1]) :
    Scalar.dot (cross (edge x 0 1) (edge x 0 2)) (edge x v0 v1) = 0 ∧
      |Scalar.dot (cross (edge x 0 1) (edge x 0 2)) (cross (edge x v0 v1) (edge x v0 facet))| =
        |Scalar.dot (cross (edge x 0 1) (edge x 0 2)) (cross (edge x 0 1) (edge x 0 2))| := by
  simp only [edge_three hx]
  rcases Shape.triangle_facets h with ⟨rfl, rfl, rfl⟩ | ⟨rfl, rfl, rfl⟩ | ⟨rfl, rfl, rfl⟩
  · simp only [cross_three, dot_three]
    exact ⟨by ring, congrArg abs (by ring)⟩
  · simp only [cross_three, dot_three]
    refine ⟨by ring, ?_⟩
    -- Here the edge and the way to the opposite vertex come in the other order.
    rw [← abs_neg]
    exact congrArg abs (by ring)
  · refine ⟨?_, rfl⟩
    simp only [cross_three, dot_three]
    ring

theorem rotate_edge (hx : x.rows = 3) {facet v0 v1 : Nat}
    (h : Shape.triangle.facetVertices facet = .ok [v0, v1])
    (hc : Scalar.norm (cross (edge x 0 1) (edge x 0 2)) ≠ 0) :
    Scalar.norm (rotate (normalize (cross (edge x 0 1) (edge x 0 2))) (edge x v0 v1)) =
        Scalar.norm (edge x v0 v1) ∧
      |Scalar.dot (rotate (normalize (cross (edge x 0 1) (edge x 0 2))) (edge x v0 v1))
        (edge x v0 facet)| = Scalar.norm (cross (edge x 0 1) (edge x 0 2)) := by
  have hlength : ∀ a b, (edge x a b).length = 3 := fun a b => (length_edge x a b).trans hx
  rcases dot_cross_edges hx h with ⟨hortho, hspan⟩
  set c := cross (edge x 0 1) (edge x 0 2)
  have hk : (normalize c).length = 3 := length_divide _ _
  have hortho : Scalar.dot (normalize c) (edge x v0 v1) = 0 := by
    rw [normalize, dot_divide rfl (hlength _ _), hortho, zero_div]
  rw [rotate_eq_cross hk hortho]
  constructor
  · refine congrArg Real.sqrt ?_
    rw [dot_eq_dotProduct (n := 3) rfl rfl, vector_cross, cross_dot_cross, ← dot_eq_dotProduct hk hk,
      dot_normalize_self hc, ← dot_eq_dotProduct hk (hlength _ _), hortho, zero_mul, sub_zero, one_mul,
      dot_eq_dotProduct (hlength _ _) (hlength _ _)]
  · rw [dot_eq_dotProduct (n := 3) rfl (hlength _ _), vector_cross, dotProduct_comm,
      triple_product_permutation, ← vector_cross, ← dot_eq_dotProduct hk rfl, normalize,
      dot_divide (n := 3) rfl rfl, abs_div, hspan, ← abs_div]
    exact (congrArg abs Real.div_sqrt).trans (abs_of_nonneg (Real.sqrt_nonneg _))

end

/-- On a surface the determinant is the length of the normal that two edges span. -/
theorem inverseJacobian_surface {x : Grid ℝ} (hx : x.rows = 3) :
    (inverseJacobian (jacobian x .surface) .surface).1 =
      Scalar.norm (cross (edge x 0 1) (edge x 0 2)) := by
  simp (disch := decide) only [inverseJacobian, jacobian, Grid.entry_ofFn]
  refine congrArg Real.sqrt ?_
  simp only [edge_three hx, cross_three, dot_three]
  ring

/-! ## Outward normals -/

/-- The vectors along a cell: combinations of the columns of its Jacobian. -/
noncomputable def tangents (x : Grid ℝ) (d : Dimensions) : Submodule ℝ (Fin d.gdim → ℝ) :=
  Submodule.span ℝ (Set.range fun t : Fin d.tdim => vector d.gdim ((jacobian x d).column t))

/-- An outward unit normal of a facet with given vertices: it is orthogonal to the edges of the
    facet, lies along the cell, and points away from the opposite vertex. -/
structure IsOutward (x : Grid ℝ) (d : Dimensions) (vertices : List Nat) (opposite : Nat)
    (n : List ℝ) : Prop where
  length : n.length = d.gdim
  unit : Scalar.norm n = 1
  orthogonal : ∀ a ∈ vertices, ∀ b ∈ vertices, Scalar.dot n (edge x a b) = 0
  tangent : vector d.gdim n ∈ tangents x d
  away : ∀ a ∈ vertices, Scalar.dot n (edge x a opposite) < 0

variable {x : Grid ℝ} {d : Dimensions} {facet n : Nat} {hle : n + 2 ≤ 3} {v0 v1 : Nat}
  {w k : List ℝ} {u : Fin d.gdim → ℝ}

theorem vector_edge_column (hrows : x.rows = d.gdim) (a b : Nat) :
    vector d.gdim (edge x a b) = vector d.gdim (x.column b) - vector d.gdim (x.column a) := by
  rw [edge, Grid.column, Grid.column, hrows, vector_map_range, vector_map_range, vector_map_range]
  rfl

theorem vector_edge (hrows : x.rows = d.gdim) (a b c : Nat) :
    vector d.gdim (edge x a b) = vector d.gdim (edge x c b) - vector d.gdim (edge x c a) := by
  simp only [vector_edge_column hrows, sub_sub_sub_cancel_right]

theorem vector_edge_self (hrows : x.rows = d.gdim) (v : Nat) : vector d.gdim (edge x v v) = 0 := by
  rw [vector_edge hrows v v v, sub_self]

theorem vector_edge_swap (hrows : x.rows = d.gdim) (a b : Nat) :
    vector d.gdim (edge x b a) = -vector d.gdim (edge x a b) := by
  rw [vector_edge hrows b a a, vector_edge_self hrows, zero_sub]

theorem dot_edge_self (hrows : x.rows = d.gdim) (hw : w.length = d.gdim) (v : Nat) :
    Scalar.dot w (edge x v v) = 0 := by
  rw [dot_eq_dotProduct hw ((length_edge x v v).trans hrows), vector_edge_self hrows,
    dotProduct_zero]

/-- A direction along the cell and across the facet gives an outward normal. It is enough to look
    at the facet from one point. -/
theorem isOutward_outward (hrows : x.rows = d.gdim) {vertices : List Nat} {v opposite : Nat}
    (hw : w.length = d.gdim) (horthogonal : ∀ a ∈ vertices, Scalar.dot w (edge x v a) = 0)
    (htangent : vector d.gdim w ∈ tangents x d) (haway : Scalar.dot w (edge x v opposite) ≠ 0) :
    IsOutward x d vertices opposite (outward w (edge x v opposite)) := by
  have hedge : ∀ a b, (edge x a b).length = d.gdim := fun a b => (length_edge x a b).trans hrows
  rcases outward_spec hw (hedge v opposite) haway with ⟨c, hc, hneg, hunit⟩
  have hlength := (length_outward w (edge x v opposite)).trans hw
  -- All edges are differences of edges from `v`, and products are linear.
  have hdot : ∀ a b, Scalar.dot (outward w (edge x v opposite)) (edge x a b) =
      c * (Scalar.dot w (edge x v b) - Scalar.dot w (edge x v a)) := by
    intro a b
    rw [dot_eq_dotProduct hlength (hedge a b), dot_eq_dotProduct hw (hedge v b),
      dot_eq_dotProduct hw (hedge v a), hc, vector_edge hrows a b v, smul_dotProduct,
      dotProduct_sub, smul_eq_mul]
  refine ⟨hlength, ?_, fun a ha b hb => ?_, ?_, fun a ha => ?_⟩
  · have hself :
        Scalar.dot (outward w (edge x v opposite)) (outward w (edge x v opposite)) = 1 := by
      rw [dot_eq_dotProduct hlength hlength, hc, smul_dotProduct, dotProduct_smul,
        ← dot_eq_dotProduct hw hw, smul_eq_mul, smul_eq_mul, ← mul_assoc, ← sq, hunit]
    exact (congrArg Real.sqrt hself).trans Real.sqrt_one
  · rw [hdot, horthogonal a ha, horthogonal b hb, sub_zero, mul_zero]
  · rw [hc]
    exact Submodule.smul_mem _ c htangent
  · rwa [hdot, horthogonal a ha, sub_zero]

/-! ## Normals by dimensions -/

theorem column_mem_tangents (x : Grid ℝ) (d : Dimensions) (t : Fin d.tdim) :
    vector d.gdim ((jacobian x d).column t) ∈ tangents x d :=
  Submodule.subset_span ⟨t, rfl⟩

/-- What is orthogonal to the columns of the Jacobian is so to all vectors along the cell. -/
theorem dotProduct_tangents {w : Fin d.gdim → ℝ}
    (h : ∀ t : Fin d.tdim, vector d.gdim ((jacobian x d).column t) ⬝ᵥ w = 0) (hu : u ∈ tangents x d) :
    u ⬝ᵥ w = 0 := by
  induction hu using Submodule.span_induction with
  | mem u hu =>
    rcases hu with ⟨t, rfl⟩
    exact h t
  | zero => exact zero_dotProduct _
  | add u v _ _ hu hv => rw [add_dotProduct, hu, hv, add_zero]
  | smul c u _ hu => rw [smul_dotProduct, hu, smul_zero]

theorem column_jacobian (hrows : x.rows = d.gdim) {t : Nat} (ht : t < d.tdim) :
    (jacobian x d).column t = edge x 0 (t + 1) := by
  rw [Grid.column, edge, hrows]
  exact map_congr_left fun g hg => Grid.entry_ofFn _ (mem_range.1 hg) ht

theorem gram_jacobian (hrows : x.rows = d.gdim) (s t : Fin d.tdim) :
    gram (jacobian x d) d.gdim d.tdim s t = Scalar.dot (edge x 0 (s + 1)) (edge x 0 (t + 1)) := by
  rw [← column_jacobian hrows s.isLt, ← column_jacobian hrows t.isLt, gram_apply,
    Scalar.sum_eq_sum]
  exact (dot_map _ _).symm

/-- The Jacobian takes vectors of the reference cell to vectors along the cell. -/
theorem mulVec_mem_tangents (x : Grid ℝ) (d : Dimensions) (c : Fin d.tdim → ℝ) :
    (jacobian x d).matrix d.gdim d.tdim *ᵥ c ∈ tangents x d := by
  have hcolumns : (jacobian x d).matrix d.gdim d.tdim *ᵥ c =
      ∑ t, c t • vector d.gdim ((jacobian x d).column t) := by
    funext g
    rw [Finset.sum_apply, mulVec, dotProduct]
    refine Finset.sum_congr rfl fun t _ => ?_
    rw [Pi.smul_apply, smul_eq_mul, mul_comm]
    exact congrArg (c t * ·) (coordinate_map_range g.isLt fun i => (jacobian x d).entry i t).symm
  rw [hcolumns]
  exact Submodule.sum_mem _ fun t _ => Submodule.smul_mem _ _ (column_mem_tangents x d t)

theorem mem_tangents_of_square (h : (gram (jacobian x d) d.gdim d.tdim).det ≠ 0)
    (hsquare : d.tdim = d.gdim) (u : Fin d.gdim → ℝ) : u ∈ tangents x d := by
  -- The vector is the image of its reference coordinates.
  have hu : u = (jacobian x d).matrix d.gdim d.tdim *ᵥ
      ((inverseJacobian (jacobian x d) d).2.matrix d.tdim d.gdim *ᵥ u) := by
    rw [mulVec_mulVec, jacobian_mul_inverse h hsquare, one_mulVec]
  rw [hu]
  exact mulVec_mem_tangents x d _

theorem dot_axis (hrows : x.rows = 1) (a b : Nat) :
    Scalar.dot [1] (edge x a b) = x.entry 0 b - x.entry 0 a := by
  rw [edge, hrows]
  exact (zero_add _).trans (one_mul _)

theorem norm_axis : Scalar.norm [(1 : ℝ)] = 1 :=
  (congrArg Real.sqrt ((zero_add _).trans (one_mul 1))).trans Real.sqrt_one

/-- On a line it is enough to compare coordinates. -/
theorem outward_axis (hrows : x.rows = 1) (a b : Nat) : outward [1] (edge x a b) =
    if Scalar.lt (x.entry 0 b) (x.entry 0 a) then [1] else negate [1] := by
  have hlt : Scalar.lt (x.entry 0 b - x.entry 0 a) 0 = Scalar.lt (x.entry 0 b) (x.entry 0 a) :=
    decide_eq_decide.2 sub_neg
  have hone : normalize [(1 : ℝ)] = [1] := by simp [normalize, norm_axis, divide]
  rw [outward_eq, dot_axis hrows, hlt, hone]

theorem facetNormal_line (hcheck : checkVertices x .line = .ok ()) (hf : facet < 2) :
    facetNormal x .line facet = .ok (outward [1] (edge x facet (1 - facet))) := by
  rw [outward_axis (checkVertices_eq_ok.1 hcheck).1, negate, map_singleton, ← apply_ite (fun y : ℝ => [y])]
  interval_cases facet
  · exact bind_eq_ok.2 ⟨(), hcheck, rfl⟩
  · exact bind_eq_ok.2 ⟨(), hcheck, rfl⟩

theorem facetNormal_curve (hcheck : checkVertices x (.curve n hle) = .ok ())
    (hf : facet < 2) (h : Scalar.dot (edge x (1 - facet) facet) (edge x facet (1 - facet)) < 0) :
    facetNormal x (.curve n hle) facet =
      .ok (outward (edge x (1 - facet) facet) (edge x facet (1 - facet))) := by
  rw [outward, if_pos (Scalar.lt_eq_true.2 h)]
  interval_cases facet
  · exact bind_eq_ok.2 ⟨(), hcheck, rfl⟩
  · exact bind_eq_ok.2 ⟨(), hcheck, rfl⟩

theorem edge_two (hrows : x.rows = 2) (a b : Nat) :
    edge x a b = [x.entry 0 b - x.entry 0 a, x.entry 1 b - x.entry 1 a] := by
  rw [edge, hrows]
  rfl

theorem dot_two (a b a' b' : ℝ) : Scalar.dot [a, b] [a', b'] = a * a' + b * b' := by
  change 0 + a * a' + b * b' = _
  ring

theorem norm_turned (hrows : x.rows = 2) (a b : Nat) : Scalar.norm (edge x a b) =
    Scalar.norm [coordinate (edge x a b) 1, -coordinate (edge x a b) 0] := by
  refine congrArg Real.sqrt ?_
  rw [edge_two hrows, dot_two, dot_two]
  change _ = (x.entry 1 b - x.entry 1 a) * (x.entry 1 b - x.entry 1 a) +
    -(x.entry 0 b - x.entry 0 a) * -(x.entry 0 b - x.entry 0 a)
  ring

theorem facetNormal_plane (hcheck : checkVertices x .plane = .ok ())
    (hfacet : Shape.triangle.facetVertices facet = .ok [v0, v1]) :
    facetNormal x .plane facet = .ok (outward
      [coordinate (edge x v0 v1) 1, -coordinate (edge x v0 v1) 0] (edge x v0 facet)) := by
  have hrows : x.rows = 2 := (checkVertices_eq_ok.1 hcheck).1
  refine bind_eq_ok.2 ⟨(), hcheck, bind_eq_ok.2 ⟨_, hfacet, congrArg Except.ok ?_⟩⟩
  have hnorm := norm_turned hrows v0 v1
  set e := coordinate (edge x v0 v1)
  have hdot : Scalar.dot [e 1, -e 0] (edge x v0 facet) = e 1 * (x.entry 0 facet - x.entry 0 v0) -
      e 0 * (x.entry 1 facet - x.entry 1 v0) := by
    rw [edge_two hrows, dot_two]
    ring
  rw [hnorm, ← hdot, outward_eq]
  rfl

theorem facetNormal_solid (hcheck : checkVertices x .solid = .ok ()) {v2 : Nat}
    (hfacet : Shape.tetrahedron.facetVertices facet = .ok [v0, v1, v2]) :
    facetNormal x .solid facet =
      .ok (outward (cross (edge x v0 v1) (edge x v0 v2)) (edge x v0 facet)) :=
  bind_eq_ok.2 ⟨(), hcheck, bind_eq_ok.2 ⟨_, hfacet, rfl⟩⟩

/-- On a surface the direction is the edge, turned about the normal of the plane. -/
theorem facetNormal_surface (hcheck : checkVertices x .surface = .ok ())
    (hfacet : Shape.triangle.facetVertices facet = .ok [v0, v1])
    (h : Scalar.dot (rotate (normalize (cross (edge x 0 1) (edge x 0 2))) (edge x v0 v1))
      (edge x v0 facet) ≠ 0) : facetNormal x .surface facet =
      .ok (outward (rotate (normalize (cross (edge x 0 1) (edge x 0 2))) (edge x v0 v1))
        (edge x v0 facet)) := by
  have hrows : x.rows = 3 := (checkVertices_eq_ok.1 hcheck).1
  refine bind_eq_ok.2 ⟨(), hcheck, bind_eq_ok.2 ⟨_, hfacet, ?_⟩⟩
  set w := rotate (normalize (cross (edge x 0 1) (edge x 0 2))) (edge x v0 v1)
  have hw : w.length = 3 := length_rotate (length_divide _ _) _
  -- The side is looked at after the length has been made one, with the comparison turned round.
  change Except.ok (if Scalar.lt 0 (Scalar.dot (normalize w) (edge x v0 facet))
    then negate (normalize w) else normalize w) = _
  rw [lt_dot_normalize hw ((length_edge x v0 facet).trans hrows) h, outward_eq]
  cases Scalar.lt (Scalar.dot w (edge x v0 facet)) 0 <;> rfl

/-! ## Every facet -/

theorem determinant_ne_zero (h : (gram (jacobian x d) d.gdim d.tdim).det ≠ 0) :
    (inverseJacobian (jacobian x d) d).1 ≠ 0 := by
  rw [← determinant_sq] at h
  exact fun hzero => h (by rw [hzero, zero_pow two_ne_zero])

theorem edge_mem_tangents (hrows : x.rows = d.gdim) {a b : Nat} (ha : a ≤ d.tdim)
    (hb : b ≤ d.tdim) : vector d.gdim (edge x a b) ∈ tangents x d := by
  have hzero : ∀ c ≤ d.tdim, vector d.gdim (edge x 0 c) ∈ tangents x d := by
    intro c hc
    cases c with
    | zero =>
      rw [vector_edge_self hrows]
      exact Submodule.zero_mem _
    | succ t =>
      rw [← column_jacobian hrows hc]
      exact column_mem_tangents x d ⟨t, hc⟩
  rw [vector_edge hrows a b 0]
  exact Submodule.sub_mem _ (hzero b hb) (hzero a ha)

theorem eq_zero_of_mem_tangents (hrows : x.rows = d.gdim) (hu : u ∈ tangents x d)
    (h : ∀ a ≤ d.tdim, vector d.gdim (edge x 0 a) ⬝ᵥ u = 0) : u = 0 := by
  refine dotProduct_self_eq_zero.1 (dotProduct_tangents (fun t => ?_) hu)
  rw [column_jacobian hrows t.isLt]
  exact h (t + 1) t.isLt

/-- A facet has an outward normal, and that is what is computed. -/
def HasOutwardNormal (x : Grid ℝ) (d : Dimensions) (facet : Nat) : Prop :=
  ∃ vertices opposite n, d.shape.facetVertices facet = .ok vertices ∧
    d.shape.oppositeVertex facet = .ok opposite ∧ facetNormal x d facet = .ok n ∧
    IsOutward x d vertices opposite n

theorem abs_dot_axis (hrows : x.rows = 1) (hf : facet < 2) :
    |Scalar.dot [1] (edge x facet (1 - facet))| =
      |(inverseJacobian (jacobian x .line) .line).1| := by
  have hend : (inverseJacobian (jacobian x .line) .line).1 = x.entry 0 1 - x.entry 0 0 :=
    Grid.entry_ofFn _ Nat.one_pos Nat.one_pos
  rw [dot_axis hrows, hend]
  interval_cases facet
  · rfl
  · exact abs_sub_comm _ _

theorem hasOutwardNormal_line (hcheck : checkVertices x .line = .ok ())
    (h : (gram (jacobian x .line) 1 1).det ≠ 0) (hf : facet < 2) :
    HasOutwardNormal x .line facet := by
  have hrows := (checkVertices_eq_ok.1 hcheck).1
  have haway : Scalar.dot [1] (edge x facet (1 - facet)) ≠ 0 := by
    rw [← abs_ne_zero, abs_dot_axis hrows hf, abs_ne_zero]
    exact determinant_ne_zero h
  refine ⟨[facet], 1 - facet, _, if_pos hf, if_pos (Nat.le_of_lt_succ hf),
    facetNormal_line hcheck hf,
    isOutward_outward hrows rfl (fun a ha => ?_) (mem_tangents_of_square h rfl _) haway⟩
  rw [mem_singleton.1 ha]
  exact dot_edge_self hrows rfl facet

/-- There and back again: up to its sign, the product is the square of the length. -/
theorem dot_ends (hrows : x.rows = d.gdim) (hf : facet < 2) :
    Scalar.dot (edge x (1 - facet) facet) (edge x facet (1 - facet)) =
      -Scalar.dot (edge x 0 1) (edge x 0 1) := by
  have hlength : ∀ a b, (edge x a b).length = d.gdim := fun a b => (length_edge x a b).trans hrows
  simp only [dot_eq_dotProduct (hlength _ _) (hlength _ _)]
  interval_cases facet
  · rw [vector_edge_swap hrows 0 1, neg_dotProduct]
  · rw [vector_edge_swap hrows 0 1, dotProduct_neg]

theorem dot_ends_neg (hrows : x.rows = n + 2)
    (h : (gram (jacobian x (.curve n hle)) (n + 2) 1).det ≠ 0) (hf : facet < 2) :
    Scalar.dot (edge x (1 - facet) facet) (edge x facet (1 - facet)) < 0 := by
  rw [det_fin_one, gram_jacobian hrows] at h
  rw [dot_ends (d := .curve n hle) hrows hf, neg_lt_zero]
  exact lt_of_le_of_ne (dot_self_nonneg _) h.symm

theorem hasOutwardNormal_curve (hcheck : checkVertices x (.curve n hle) = .ok ())
    (h : (gram (jacobian x (.curve n hle)) (n + 2) 1).det ≠ 0) (hf : facet < 2) :
    HasOutwardNormal x (.curve n hle) facet := by
  have hrows := (checkVertices_eq_ok.1 hcheck).1
  have hlength : ∀ a b, (edge x a b).length = n + 2 := fun a b => (length_edge x a b).trans hrows
  have haway := dot_ends_neg hrows h hf
  have hf' : facet ≤ 1 := Nat.le_of_lt_succ hf
  refine ⟨[facet], 1 - facet, _, if_pos hf, if_pos hf', facetNormal_curve hcheck hf haway,
    isOutward_outward hrows (hlength _ _) (fun a ha => ?_)
      (edge_mem_tangents hrows (Nat.sub_le 1 facet) hf') haway.ne⟩
  rw [mem_singleton.1 ha]
  exact dot_edge_self hrows (hlength _ _) facet

/-- The turned edge of a triangle in the plane, up to its sign: with the edge itself its product is
    zero, with the way to the opposite vertex it is the determinant. -/
theorem dot_turned (hrows : x.rows = 2) (hfacet : Shape.triangle.facetVertices facet = .ok [v0, v1]) :
    Scalar.dot [coordinate (edge x v0 v1) 1, -coordinate (edge x v0 v1) 0] (edge x v0 v1) = 0 ∧
      |Scalar.dot [coordinate (edge x v0 v1) 1, -coordinate (edge x v0 v1) 0] (edge x v0 facet)| =
        |(inverseJacobian (jacobian x .plane) .plane).1| := by
  -- From here on it is about six coordinates.
  simp (disch := decide) only [inverseJacobian, jacobian, Grid.entry_ofFn]
  simp only [edge_two hrows, dot_two, coordinate, getElem?_cons_zero, getElem?_cons_succ,
    Option.getD_some]
  refine ⟨by ring, ?_⟩
  rcases Shape.triangle_facets hfacet with ⟨rfl, rfl, rfl⟩ | ⟨rfl, rfl, rfl⟩ | ⟨rfl, rfl, rfl⟩
  · rw [← abs_neg]
    exact congrArg abs (by ring)
  · exact congrArg abs (by ring)
  · rw [← abs_neg]
    exact congrArg abs (by ring)

theorem hasOutwardNormal_plane (hcheck : checkVertices x .plane = .ok ())
    (h : (gram (jacobian x .plane) 2 2).det ≠ 0) (hf : facet < 3) :
    HasOutwardNormal x .plane facet := by
  have hrows := (checkVertices_eq_ok.1 hcheck).1
  rcases Shape.facetVertices_of_lt (s := .triangle) hf with ⟨row, hrow, hlength⟩
  rcases length_eq_two.1 hlength with ⟨v0, v1, rfl⟩
  rcases dot_turned hrows hrow with ⟨hortho, hdet⟩
  refine ⟨[v0, v1], facet, _, hrow, rfl, facetNormal_plane hcheck hrow,
    isOutward_outward hrows rfl (fun a ha => ?_) (mem_tangents_of_square h rfl _) ?_⟩
  · rcases mem_pair.1 ha with rfl | rfl
    · exact dot_edge_self hrows rfl a
    · exact hortho
  · rw [← abs_ne_zero, hdet, abs_ne_zero]
    exact determinant_ne_zero h

theorem hasOutwardNormal_surface (hcheck : checkVertices x .surface = .ok ())
    (h : (gram (jacobian x .surface) 3 2).det ≠ 0) (hf : facet < 3) :
    HasOutwardNormal x .surface facet := by
  have hrows := (checkVertices_eq_ok.1 hcheck).1
  have hlengths : ∀ a b, (edge x a b).length = 3 := fun a b => (length_edge x a b).trans hrows
  rcases Shape.facetVertices_of_lt (s := .triangle) hf with ⟨row, hrow, hlength⟩
  rcases length_eq_two.1 hlength with ⟨v0, v1, rfl⟩
  have hnormal : Scalar.norm (cross (edge x 0 1) (edge x 0 2)) ≠ 0 := by
    rw [← inverseJacobian_surface hrows]
    exact determinant_ne_zero h
  have haway : Scalar.dot (rotate (normalize (cross (edge x 0 1) (edge x 0 2))) (edge x v0 v1))
      (edge x v0 facet) ≠ 0 := by
    rwa [← abs_ne_zero, (rotate_edge hrows hrow hnormal).2]
  have hnormals := facetNormal_surface hcheck hrow haway
  have hplane := (dot_cross_edges hrows hrow).1
  set c := cross (edge x 0 1) (edge x 0 2) with hc
  set k := normalize c with hkdef
  have hk : k.length = 3 := length_divide _ _
  have hw := length_rotate hk (edge x v0 v1)
  -- The axis is orthogonal to all edges, so that turning an edge is a cross product.
  have hortho : Scalar.dot k (edge x v0 v1) = 0 :=
    (dot_divide rfl (hlengths _ _) _).trans (by rw [hplane, zero_div])
  refine ⟨[v0, v1], facet, _, hrow, rfl, hnormals,
    isOutward_outward hrows hw (fun a ha => ?_) ?_ haway⟩
  · rcases mem_pair.1 ha with rfl | rfl
    · exact dot_edge_self hrows hw a
    · rw [rotate_eq_cross hk hortho]
      exact (dot_cross hk (hlengths _ _)).2
  -- Crossing twice leads back into the plane of the triangle.
  · have h1 := edge_mem_tangents (d := .surface) hrows (Nat.zero_le 2) (show 1 ≤ 2 by decide)
    have h2 := edge_mem_tangents (d := .surface) hrows (Nat.zero_le 2) (Nat.le_refl 2)
    change vector 3 _ ∈ _
    rw [rotate_eq_cross hk hortho, hkdef, normalize, cross_divide, vector_divide, hc, vector_cross,
      vector_cross, cross_cross_eq_smul_sub_smul]
    exact Submodule.smul_mem _ _
      (Submodule.sub_mem _ (Submodule.smul_mem _ _ h2) (Submodule.smul_mem _ _ h1))

/-- What the cross product of two edges of a tetrahedron spans with the way to the opposite vertex
    is the determinant, up to its sign. -/
theorem dot_cross_solid (hrows : x.rows = 3) (hf : facet < 4) : ∃ v0 v1 v2,
    Shape.tetrahedron.facetVertices facet = .ok [v0, v1, v2] ∧
      |Scalar.dot (cross (edge x v0 v1) (edge x v0 v2)) (edge x v0 facet)| =
        |(inverseJacobian (jacobian x .solid) .solid).1| := by
  simp (disch := decide) only [inverseJacobian, jacobian, cofactors, Grid.entry_ofFn,
    edge_three hrows, cross_three, dot_three]
  interval_cases facet
  · refine ⟨1, 2, 3, rfl, ?_⟩
    rw [← abs_neg]
    exact congrArg abs (by ring)
  · refine ⟨0, 2, 3, rfl, ?_⟩
    exact congrArg abs (by ring)
  · refine ⟨0, 1, 3, rfl, ?_⟩
    rw [← abs_neg]
    exact congrArg abs (by ring)
  · refine ⟨0, 1, 2, rfl, ?_⟩
    exact congrArg abs (by ring)

theorem hasOutwardNormal_solid (hcheck : checkVertices x .solid = .ok ())
    (h : (gram (jacobian x .solid) 3 3).det ≠ 0) (hf : facet < 4) :
    HasOutwardNormal x .solid facet := by
  have hrows := (checkVertices_eq_ok.1 hcheck).1
  have hlengths : ∀ a b, (edge x a b).length = 3 := fun a b => (length_edge x a b).trans hrows
  rcases dot_cross_solid hrows hf with ⟨v0, v1, v2, hrow, hdet⟩
  refine ⟨[v0, v1, v2], facet, _, hrow, rfl, facetNormal_solid hcheck hrow,
    isOutward_outward hrows rfl (fun a ha => ?_) (mem_tangents_of_square h rfl _) ?_⟩
  · simp only [mem_cons, not_mem_nil, or_false] at ha
    rcases ha with rfl | rfl | rfl
    · exact dot_edge_self hrows rfl a
    · exact (dot_cross (hlengths _ _) (hlengths _ _)).1
    · exact (dot_cross (hlengths _ _) (hlengths _ _)).2
  · rw [← abs_ne_zero, hdet, abs_ne_zero]
    exact determinant_ne_zero h

/-- Normals of facets are outward unit normals, for all pairs of dimensions. -/
theorem facetNormal_isOutward (hrows : x.rows = d.gdim) (hcols : x.cols = d.tdim + 1)
    (h : (((jacobian x d).matrix d.gdim d.tdim)ᵀ * (jacobian x d).matrix d.gdim d.tdim).det ≠ 0)
    {facet : Nat} (hf : facet < d.shape.facetCount) :
    ∃ vertices opposite n, d.shape.facetVertices facet = .ok vertices ∧
      d.shape.oppositeVertex facet = .ok opposite ∧ facetNormal x d facet = .ok n ∧
      IsOutward x d vertices opposite n := by
  have hcheck : checkVertices x d = .ok () := checkVertices_eq_ok.2 ⟨hrows, hcols⟩
  induction d using Dimensions.pairs with
  | line => exact hasOutwardNormal_line hcheck h hf
  | planeCurve | spaceCurve => exact hasOutwardNormal_curve hcheck h hf
  | plane => exact hasOutwardNormal_plane hcheck h hf
  | surface => exact hasOutwardNormal_surface hcheck h hf
  | solid => exact hasOutwardNormal_solid hcheck h hf

theorem facetNormal_isOutward_tilted :
    (tiltedTriangle.rows = 3 ∧ tiltedTriangle.cols = 2 + 1 ∧
      (((jacobian tiltedTriangle .surface).matrix 3 2)ᵀ *
        (jacobian tiltedTriangle .surface).matrix 3 2).det ≠ 0 ∧ 0 < Shape.triangle.facetCount) ∧
    ∃ n, facetNormal tiltedTriangle .surface 0 = .ok n ∧
      IsOutward tiltedTriangle .surface [1, 2] 0 n := by
  have hdet : (((jacobian tiltedTriangle .surface).matrix 3 2)ᵀ *
      (jacobian tiltedTriangle .surface).matrix 3 2).det ≠ 0 := by
    rw [← gram, det_gram_tiltedTriangle]
    norm_num
  have hfacet : 0 < Shape.triangle.facetCount := by decide
  refine ⟨⟨rfl, rfl, hdet, hfacet⟩, ?_⟩
  rcases facetNormal_isOutward (x := tiltedTriangle) (d := .surface) rfl rfl hdet hfacet with
    ⟨vertices, opposite, n, hvertices, hopposite, hn, houtward⟩
  cases hvertices
  cases hopposite
  exact ⟨n, hn, houtward⟩

end Geometry
end WeakForm
