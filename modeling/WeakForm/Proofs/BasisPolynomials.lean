import Mathlib.Algebra.MvPolynomial.CommRing
import Mathlib.Algebra.MvPolynomial.PDeriv
import WeakForm.Proofs.CollapsedRules
import WeakForm.Proofs.Representations

/-!
# Basis functions as polynomials

The tabulator works with values at points. Here its basis functions are written as
polynomials in the coordinates of the reference cell, and a table is shown to hold the
values of their derivatives. Polynomials have what tables do not have: a degree, and an
integral.

A nodal element of degree one has the barycentric coordinates of the cell as basis, and
one of degree zero the constant one. A vector-valued element has these functions once for
each component, blocked by component: the number of a basis function is the number of its
component times the size of a block, plus the number of a scalar basis function.

## Theorems

* `totalDegree_derivative_basisPolynomial`: Each derivative takes one off the degree.
* `Tabulator.lagrange_entry`: Tables hold the values of derivatives of basis functions.
-/

namespace WeakForm

open List MvPolynomial Success

section

variable {K : Type} [Field K] {n : Nat} (i : Fin n) (axes : List (Fin n))

/-- The barycentric coordinate of a vertex of the unit simplex. -/
noncomputable def barycentricPolynomial (n : Nat) : Nat → MvPolynomial (Fin n) K
  | 0 => 1 - ∑ i, X i
  | j + 1 => if h : j < n then X ⟨j, h⟩ else 0

/-- The derivative of a polynomial along some axes, one after the other. -/
noncomputable def derivative {n : Nat} (axes : List (Fin n)) (p : MvPolynomial (Fin n) K) :
    MvPolynomial (Fin n) K :=
  axes.foldl (fun p i => pderiv i p) p

/-- The number of scalar basis functions of degree at most one. -/
def blockSize (n degree : Nat) : Nat := if degree = 0 then 1 else n + 1

/-- A scalar basis function of degree at most one. -/
noncomputable def scalarPolynomial (n degree j : Nat) : MvPolynomial (Fin n) K :=
  if degree = 0 then 1 else barycentricPolynomial n j

/-- A component of a basis function of a nodal element of degree at most one, on the cell of a
    dimension. The basis functions are blocked by component. -/
noncomputable def Element.basisPolynomial (e : Element) (n k component : Nat) :
    MvPolynomial (Fin n) K :=
  if k / blockSize n e.degree = component then
    scalarPolynomial n e.degree (k % blockSize n e.degree)
  else 0

theorem derivative_cons (p : MvPolynomial (Fin n) K) :
    derivative (i :: axes) p = derivative axes (pderiv i p) := rfl

theorem derivative_C (c : K) : derivative axes (C c) = C (if axes = [] then c else 0) := by
  induction axes generalizing c with
  | nil => rfl
  | cons i axes ih =>
    rw [derivative_cons, pderiv_C, ← C_0, ih, if_neg (cons_ne_nil i axes), ite_self]

/-- The slope of a barycentric coordinate along an axis is constant. -/
theorem pderiv_barycentricPolynomial (j : Nat) :
    pderiv i (barycentricPolynomial n j : MvPolynomial (Fin n) K) =
      C (if j = 0 then -1 else if j = i + 1 then 1 else 0) := by
  cases j with
  | zero =>
    rw [barycentricPolynomial, map_sub, pderiv_one, map_sum, if_pos rfl]
    simp only [pderiv_X]
    rw [Finset.sum_pi_single', if_pos (Finset.mem_univ i), zero_sub, C_neg, C_1]
  | succ j =>
    rw [barycentricPolynomial, if_neg (Nat.succ_ne_zero j)]
    split
    · next hj =>
      rw [pderiv_X]
      by_cases hij : j = i
      · subst hij
        simp
      · have hne : (⟨j, hj⟩ : Fin n) ≠ i := fun h => hij (congrArg Fin.val h)
        rw [Pi.single_eq_of_ne hne, if_neg (by omega), C_0]
    · next hj =>
      rw [map_zero, if_neg (by have := i.isLt; omega), C_0]

theorem totalDegree_barycentricPolynomial (n j : Nat) :
    (barycentricPolynomial n j : MvPolynomial (Fin n) K).totalDegree ≤ 1 := by
  cases j with
  | zero =>
    refine (totalDegree_sub _ _).trans (max_le (by rw [totalDegree_one]; omega) ?_)
    exact totalDegree_finsetSum_le fun i _ => (totalDegree_X i).le
  | succ j =>
    rw [barycentricPolynomial]
    split
    · exact (totalDegree_X _).le
    · rw [totalDegree_zero]
      omega

theorem totalDegree_derivative_basisPolynomial (e : Element) (n k component : Nat)
    (axes : List (Fin n)) (hdegree : e.degree ≤ 1) :
    (derivative axes (e.basisPolynomial n k component : MvPolynomial (Fin n) K)).totalDegree ≤
      e.degree - axes.length := by
  have hconstant : ∀ (axes : List (Fin n)) (c : K), (derivative axes (C c)).totalDegree = 0 := by
    intro axes c
    rw [derivative_C, totalDegree_C]
  unfold Element.basisPolynomial scalarPolynomial
  split
  · split
    · rw [← C_1, hconstant]
      omega
    · cases axes with
      | nil =>
        refine (totalDegree_barycentricPolynomial _ _).trans ?_
        rw [length_nil]
        omega
      | cons i axes =>
        rw [derivative_cons, pderiv_barycentricPolynomial, hconstant]
        omega
  · rw [← C_0, hconstant]
    omega

theorem valueAt_barycentricPolynomial {j : Nat} {point : List K} (hpoint : point.length = n)
    (hj : j ≤ n) :
    ((1 - point.sum) :: point)[j]? = some (Rule.valueAt (barycentricPolynomial n j) point) := by
  subst hpoint
  cases j with
  | zero =>
    have hsum : point.sum = ∑ i : Fin point.length, point[(i : Nat)]?.getD 0 := by
      have hlist : List.ofFn (fun i : Fin point.length => point[(i : Nat)]) = point :=
        ofFn_getElem
      rw [← congrArg List.sum hlist, sum_ofFn]
      exact Finset.sum_congr rfl fun i _ => by simp
    rw [getElem?_cons_zero, barycentricPolynomial, Rule.valueAt, map_sub, map_one, map_sum]
    simp only [eval_X]
    rw [hsum]
  | succ j =>
    rw [getElem?_cons_succ, barycentricPolynomial, dif_pos (by omega), Rule.valueAt, eval_X,
      getElem?_eq_getElem (by omega), Option.getD_some]

end

variable {K : Type} [Field K] [LinearOrder K] [Root K]

namespace Tabulator

theorem length_scalarBasis {degree n : Nat} {point : List K} (hpoint : point.length = n)
    (axes : List Nat) : (scalarBasis degree n point axes).length = blockSize n degree := by
  cases degree with
  | zero => cases axes <;> rfl
  | succ degree =>
    rcases axes with _ | ⟨axis, _ | ⟨axis', axes⟩⟩
    · exact congrArg Nat.succ hpoint
    · simp [scalarBasis, blockSize]
    · simp [scalarBasis, blockSize]

theorem scalarBasis_get {degree n j : Nat} {point : List K} (hpoint : point.length = n)
    (axes : List (Fin n)) (hj : j < blockSize n degree) :
    (scalarBasis degree n point (axes.map Fin.val))[j]? =
      some (Rule.valueAt (derivative axes (scalarPolynomial n degree j)) point) := by
  have hconstant : ∀ c : K, Rule.valueAt (C c : MvPolynomial (Fin n) K) point = c :=
    fun c => eval_C c
  cases degree with
  | zero =>
    have hone : (scalarPolynomial n 0 j : MvPolynomial (Fin n) K) = C 1 := rfl
    have hfirst : j = 0 := Nat.lt_one_iff.1 hj
    rw [hone, derivative_C, hconstant, hfirst]
    cases axes with
    | nil => rfl
    | cons i axes => rfl
  | succ degree =>
    have hlinear : (scalarPolynomial n (degree + 1) j : MvPolynomial (Fin n) K) =
        barycentricPolynomial n j := if_neg (Nat.succ_ne_zero degree)
    have hle : j ≤ n := Nat.lt_succ_iff.1 hj
    rw [hlinear]
    -- Values vary, slopes are constant, and there is nothing left after two derivatives.
    rcases axes with _ | ⟨i, _ | ⟨i', axes⟩⟩
    · have hvalue := valueAt_barycentricPolynomial hpoint hle
      rw [← Scalar.sum_eq_sum] at hvalue
      exact hvalue
    · have hslope : derivative [i] (barycentricPolynomial n j : MvPolynomial (Fin n) K) =
          C (if j = 0 then -1 else if j = i + 1 then 1 else 0) :=
        pderiv_barycentricPolynomial i j
      rw [hslope, hconstant]
      cases j with
      | zero => rfl
      | succ j =>
        simp [scalarBasis, Nat.lt_of_succ_le hle]
    · rw [derivative_cons, pderiv_barycentricPolynomial, derivative_C, if_neg (cons_ne_nil _ _),
        hconstant]
      exact getElem?_replicate_of_lt (Nat.lt_succ_of_le hle)

end Tabulator

theorem get_blocks {count length k : Nat} (hk : k < count * length) :
    ((range count).flatMap fun c => replicate length c)[k]? = some (k / length) := by
  have hpos : 0 < length := Nat.pos_of_mul_pos_left (Nat.zero_lt_of_lt hk)
  have hrows : ∀ row ∈ (range count).map fun c => replicate length c,
      row.length = length := by
    intro row hrow
    rcases mem_map.1 hrow with ⟨c, _, rfl⟩
    exact length_replicate
  have hrow : ((range count).map fun c => replicate length c)[k / length]? =
      some (replicate length (k / length)) := by
    rw [getElem?_map, getElem?_range (Nat.div_lt_of_lt_mul (Nat.mul_comm count length ▸ hk))]
    rfl
  have hget := get_flatten hrows hrow (getElem?_replicate_of_lt (Nat.mod_lt k hpos))
  rw [Nat.div_add_mod'] at hget
  exact hget

namespace Element

theorem polynomialCount_eq {cell : Shape} {degree n : Nat}
    (h : polynomialCount cell degree = .ok n) (hdegree : degree ≤ 1) :
    n = blockSize cell.dimension degree := by
  rcases Nat.le_one_iff_eq_zero_or_eq_one.1 hdegree with rfl | rfl <;> cases cell <;> cases h <;> rfl

variable {e : Element}

theorem IsNodal.dofs_eq (h : e.IsNodal) (hdegree : e.degree ≤ 1) :
    e.dofs = (range e.valueShape.prod).flatMap
      (affineDofs (blockSize e.cell.dimension e.degree)) := by
  rcases h.blocks with ⟨_, n, hn, hdofs⟩
  rw [hdofs, polynomialCount_eq hn hdegree]

theorem IsNodal.spaceDimension_eq (h : e.IsNodal) (hdegree : e.degree ≤ 1) :
    e.spaceDimension = e.valueShape.prod * blockSize e.cell.dimension e.degree := by
  rw [spaceDimension, h.dofs_eq hdegree]
  simp [affineDofs, length_flatMap]

/-- The component that a basis function of a nodal element belongs to. -/
theorem IsNodal.offset (h : e.IsNodal) (hdegree : e.degree ≤ 1) {k : Nat}
    (hk : k < e.spaceDimension) : (e.dofs.map fun dof => dof.referenceOffset)[k]? =
      some (k / blockSize e.cell.dimension e.degree) := by
  rw [h.spaceDimension_eq hdegree] at hk
  rw [h.dofs_eq hdegree, map_flatMap]
  simp only [affineDofs, map_replicate]
  exact get_blocks hk

end Element

theorem Tabulator.degree_le_of_isLagrange {e : Element} (h : isLagrange e = true) : e.degree ≤ 1 := by
  unfold isLagrange at h
  split at h
  · exact (of_decide_eq_true h).le
  · exact of_decide_eq_true h
  · exact of_decide_eq_true h
  · cases h

theorem Tabulator.lagrange_entry {e : Element} (he : e.IsNodal) {n : Nat}
    (hn : e.cell.dimension = n) {points : List (List K)} {order : Nat} {t : Table K}
    (h : lagrange e points order = .ok t) {p k c : Nat} {point : List K}
    (hp : points[p]? = some point) (hk : k < t.dofs) {axes : List (Fin n)}
    (haxes : axes.length = order) (hc : c < t.components) :
    t.entry p k (Tuple.linear (replicate order n) (axes.map Fin.val)) c =
      Rule.valueAt (derivative axes (e.basisPolynomial n k c)) point := by
  subst hn
  rcases lagrange_values h with ⟨hknown, hpoints, size, derivatives, values, hsize, hbound,
    hderivatives, htable, _, hvalues⟩
  have hdegree := degree_le_of_isLagrange hknown
  have hpoint := hpoints point (mem_of_getElem? hp)
  rcases Table.dims_ofFn htable with ⟨-, hdofs, -, hcomponents⟩
  rw [hdofs] at hk
  rw [hcomponents] at hc
  have hmem : axes.map Fin.val ∈ Tuple.axes e.cell.dimension order := by
    refine Tuple.mem_axes_iff.2 ⟨by rw [length_map, haxes], fun axis haxis => ?_⟩
    rcases mem_map.1 haxis with ⟨i, _, rfl⟩
    exact i.isLt
  have hlinear : Tuple.linear (replicate order e.cell.dimension) (axes.map Fin.val) <
      derivatives := by
    rw [Tuple.axesCount_eq_pow hderivatives hbound, ← prod_replicate]
    exact Tuple.linear_lt hmem
  -- The tabulator fills in a scalar basis function for the component that the basis function
  -- belongs to, and zero for the others.
  rw [Table.entry_ofFn htable (List.getElem?_eq_some_iff.1 hp).1 hk hlinear hc,
    hvalues p k _ c point _ hp (Tuple.get_linear hmem), he.offset hdegree hk]
  unfold Element.basisPolynomial
  by_cases hown : k / blockSize e.cell.dimension e.degree = c
  · have hblock : 0 < blockSize e.cell.dimension e.degree := by
      unfold blockSize
      split <;> omega
    rw [if_pos (congrArg some hown), if_pos hown]
    simp only [length_scalarBasis hpoint, scalarBasis_get hpoint axes (Nat.mod_lt k hblock),
      Option.getD_some]
  · rw [if_neg fun heq => hown (Option.some.inj heq), if_neg hown, ← C_0, derivative_C, ite_self]
    exact (eval_C 0).symm

end WeakForm
