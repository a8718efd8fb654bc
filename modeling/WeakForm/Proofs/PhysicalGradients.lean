import WeakForm.Proofs.FacetNormals
import WeakForm.Proofs.NodalTables

/-!
# Gradients on a physical cell

Interpolation with a basis of degree one keeps affine functions, so the gradients of the basis
functions must combine to the gradient of any affine function. On a cell that fills its space
they do. On a curve or a surface only the part of the gradient along the cell can be seen, and
what they combine to is the projection of the gradient onto the tangents.

Both are one statement. The gradients of the basis functions are the slopes of the barycentric
coordinates, which do not depend on the point, taken through the transpose of the inverse `K`
of the Jacobian `J`. Summed up with the coordinates of the vertices they give `J * K`. This is
the identity for square Jacobians, and in general the orthogonal projector onto the tangents,
by what is known of pseudo-inverses.

## Theorems

* `transformTable_exists`: The sizes for which there are transformed tables.
* `transformTable_reproduces`: Physical gradients reproduce those of affine functions.
-/

namespace WeakForm

open List MvPolynomial Success Matrix Ensures

theorem Tuple.axes_one (dim : Nat) : axes dim 1 = (range dim).map fun t => [t] :=
  map_eq_flatMap.symm

theorem Tuple.get_axes_one {dim t : Nat} (h : t < dim) : (axes dim 1)[t]? = some [t] := by
  rw [axes_one, getElem?_map, getElem?_range h, Option.map_some]

theorem Table.along_single {α : Type} [Scalar α] (t : Table α) {n s : Nat} (hs : s < n)
    (p k c : Nat) : t.along n p k [s] c = t.entry p k s c := by
  have hget := Tuple.get_axes_one hs
  have hindex : (Tuple.axes n 1).idxOf [s] = s :=
    (Tuple.idxOf_all (mem_of_getElem? hget)).trans (Tuple.linear_of_get hget)
  rw [along, length_singleton, hindex]

def barycentricSlope {K : Type} [Field K] (j s : Nat) : K :=
  if j = 0 then -1 else if j = s + 1 then 1 else 0

section

variable {K : Type} [Field K] [LinearOrder K] [Root K] {e : Element} {t : Table K} {m : AffineMap K}
  {p q order g : Nat} {physical : Table K}

/-- The slopes of a basis function of degree one, in the component of its block. -/
theorem Tabulator.lagrange_slope (he : e.IsNodal) (hdegree : e.degree = 1) {points : List (List K)}
    (h : lagrange e points 1 = .ok t) {j s : Nat} (hp : p < points.length)
    (hq : q < e.valueShape.prod) (hj : j ≤ e.cell.dimension) (hs : s < e.cell.dimension) :
    t.entry p (q * (e.cell.dimension + 1) + j) s q = barycentricSlope j s := by
  have hblock : blockSize e.cell.dimension e.degree = e.cell.dimension + 1 := by
    rw [hdegree, blockSize, if_neg Nat.one_ne_zero]
  have hj' : j < blockSize e.cell.dimension e.degree := by omega
  have haxes : [(⟨s, hs⟩ : Fin e.cell.dimension)].length = 1 := rfl
  have halong := lagrange_along he h (getElem?_eq_getElem hp)
    (he.block_lt hdegree.le hq hj') (Nat.lt_of_lt_of_le hq (Nat.le_max_left _ 1)) haxes
  rw [map_singleton, t.along_single hs, e.basisPolynomial_block hj', if_pos rfl, scalarPolynomial,
    hblock, hdegree, if_neg Nat.one_ne_zero, derivative_cons,
    pderiv_barycentricPolynomial] at halong
  exact halong.trans (eval_C _)

theorem physicalSize_of_transformTable (h : transformTable e t order m = .ok physical) :
    e.physicalSize = .ok e.valueShape.prod := by
  unfold transformTable at h
  rcases bind_eq_ok.1 h with ⟨_, _, h⟩
  rcases bind_eq_ok.1 h with ⟨_, _, h⟩
  rcases bind_eq_ok.1 h with ⟨_, _, h⟩
  rcases bind_eq_ok.1 h with ⟨_, _, h⟩
  rcases bind_eq_ok.1 h with ⟨_, _, h⟩
  rcases bind_eq_ok.1 h with ⟨_, _, h⟩
  rcases bind_eq_ok.1 h with ⟨size, hsize, _⟩
  rw [lift_fault_eq_ok] at hsize
  rw [hsize, Size.product_eq_prod hsize]

theorem derivativeRow_one (hg : g < m.dims.gdim) {chains : List K}
    (h : derivativeRow 1 (MapEntries.ofMap m) [g] = .ok chains) :
    chains = (range m.dims.tdim).map fun s => m.inverse.entry s g := by
  have hrelated := derivativeRow_related (MapEntries.valued_related_ofMap m none)
    (forall_mem_singleton.2 hg) (derivativeRow_valued _ _ _ _ _) h
  rw [forall₂_eq_eq_eq] at hrelated
  rw [← hrelated, Tuple.axes_one, List.map_map]
  refine map_congr_left fun s _ => ?_
  exact prod_singleton

/-- The physical gradient of a nodal basis function, in the component of its block. -/
theorem transformTable_gradient (he : e.IsNodal) (hdegree : e.degree ≤ 1)
    (h : transformTable e t 1 m = .ok physical) {b : Nat} (hp : p < t.points)
    (hq : q < e.valueShape.prod) (hb : b < blockSize e.cell.dimension e.degree)
    (hg : g < m.dims.gdim) : physical.get p (q * blockSize e.cell.dimension e.degree + b) g q =
      .ok ((range m.dims.tdim).map fun s => m.inverse.entry s g *
        t.entry p (q * blockSize e.cell.dimension e.degree + b) s q).sum := by
  have hk := he.block_lt hdegree hq hb
  have hdata := getElem?_eq_getElem hk
  have hoffset := he.offset hdegree hk
  rcases (Element.dofs_of_isNodal he).2 _ (getElem_mem hk) with ⟨c, hc⟩
  rw [hc] at hdata
  rw [getElem?_map, hdata, Option.map_some, (Table.split_digit hb).1, Option.some.injEq] at hoffset
  have hoffset : c = q := hoffset
  subst hoffset
  have hcovers : Expand.Covers m.dims c ⟨.affine, c, c, 1⟩ := ⟨Nat.le_refl c, Nat.lt_succ_self c⟩
  rcases (transformTable_entry h hp hdata (Tuple.get_axes_one hg)
    (physicalSize_of_transformTable h) (Nat.lt_of_lt_of_le hq (Nat.le_max_left _ 1))).2 hcovers with
    ⟨chains, scale, row, hchains, hentries, hget⟩
  -- Affine components are not transformed.
  cases hentries
  have hvalue : ∀ s, (MapEntries.ofMap m).one * ([(MapEntries.ofMap m).one].zipIdx.map fun y =>
      y.1 * t.entry p (c * blockSize e.cell.dimension e.degree + b) s (c + y.2)).sum =
      t.entry p (c * blockSize e.cell.dimension e.degree + b) s c := by
    intro s
    simp [MapEntries.ofMap]
  rw [hget, derivativeRow_one hg hchains, Expand.physicalSum]
  simp only [hvalue]
  rw [sum_zipIdx_eq_range _ fun s => t.entry p (c * blockSize e.cell.dimension e.degree + b) s c,
    length_map, length_range]
  refine congrArg (fun xs : List K => (.ok xs.sum : Checked K)) (map_congr_left fun s hs => ?_)
  rw [getElem?_map, getElem?_range (mem_range.1 hs), Option.map_some, Option.getD_some]

theorem sure_derivativeTransform (hrows : m.inverse.rows = m.dims.tdim)
    (hcols : m.inverse.cols = m.dims.gdim) (order : Nat) :
    Checked.Sure (fun _ => True) (derivativeTransform order (MapEntries.ofMap m)) := by
  refine (Ensures.mapM (R := fun _ _ => True) fun g hg => ?_).mono fun _ _ => trivial
  refine (Ensures.mapM (R := fun _ _ => True) fun s hs => ?_).mono fun _ _ => trivial
  refine Ensures.foldlM trivial fun x hx entry _ => ?_
  have hinside : x.1 < m.inverse.rows ∧ x.2 < m.inverse.cols := by
    rw [hrows, hcols]
    exact ⟨(Tuple.mem_axes_iff.1 hs).2 _ (of_mem_zip hx).1,
      (Tuple.mem_axes_iff.1 hg).2 _ (of_mem_zip hx).2⟩
  exact bind_ok (if_pos hinside) trivial

theorem transformTable_exists (he : e.IsNodal) (hknown : Tabulator.isLagrange e = true)
    (hcomponents : e.valueShape.prod < Size.limit) (hrows : m.inverse.rows = m.dims.tdim)
    (hcols : m.inverse.cols = m.dims.gdim) {points : Nat}
    (ht : t.Shaped points e.spaceDimension (m.dims.tdim ^ order) (max e.valueShape.prod 1))
    (horder : order < 2 ^ 31) (haxes : m.dims.gdim ^ order < Tuple.capacity)
    (hpoints : points < Size.limit)
    (hentries : points * e.spaceDimension * m.dims.gdim ^ order * max e.valueShape.prod 1 <
      Table.capacity) : ∃ physical, transformTable e t order m = .ok physical := by
  have hpos := m.dims.tdim_pos
  have hgpos : 0 < m.dims.gdim := Nat.lt_of_lt_of_le hpos m.dims.tdim_le
  have hle : m.dims.tdim ^ order ≤ m.dims.gdim ^ order := Nat.pow_le_pow_left m.dims.tdim_le order
  have hconstructed := he.constructed hcomponents
  have hlimit : Tuple.capacity < Size.limit := by decide
  have hsound : Outcome.Sound False (fun _ => True) (transformTable e t order m) := by
    unfold transformTable
    refine bind_lift (Tuple.axesCount_of_lt hpos (by omega) (by omega)) ?_
    refine bind_lift (Tuple.axesCount_of_lt hgpos (by omega) (by omega)) ?_
    refine bind (lift (Checked.sure_require (decide_eq_true ht.derivatives)))
      fun _ _ => ?_
    refine bind (lift (Checked.sure_require (decide_eq_true ht.dofs))) fun _ _ => ?_
    refine bind_lift (Tuple.reserve_of_lt hgpos haxes) ?_
    refine bind (lift (sure_derivativeTransform hrows hcols order)) fun _ _ => ?_
    refine bind_lift hconstructed.physicalSize ?_
    rw [ht.points]
    refine bind_lift (Table.product_of_lt (Nat.pow_pos hgpos) (Nat.le_max_right _ 1) hpoints
      hentries) ?_
    refine bind (lift (Checked.sure_bound hentries)) fun _ _ => ?_
    refine bind (Ensures.mapM (R := fun _ _ => True) fun data hdata => ?_) fun _ _ => ?_
    · rcases (hconstructed.componentwise hknown).dofs data hdata with ⟨c, hc, rfl⟩
      refine bind (Ensures.mapM (R := fun _ _ => True) fun i _ => ?_) fun _ _ => ?_
      · exact .of_ok (b := ⟨1, [1], 1⟩) (valueTransform_eq_ok.2 ⟨rfl, rfl, rfl⟩) trivial
      · refine bind (lift (P := fun _ => True) ?_) fun _ _ => pure trivial
        unfold checkComponents
        split
        · trivial
        · refine Checked.sure_require ?_
          rw [ht.components, Bool.and_eq_true, decide_eq_true_iff, decide_eq_true_iff]
          exact ⟨hc, hc⟩
    · refine (lift (Table.sure_ofFn (Nat.pow_pos hgpos) (Nat.le_max_right _ 1) hpoints
        hentries _)).mono fun _ _ => trivial
  rcases hsound.exists_of_not not_false with ⟨physical, h, _⟩
  exact ⟨physical, h⟩

end

namespace Geometry

/-- The orthogonal projector onto the tangents of a cell: it ends in the tangents, and what it
    leaves of a vector is orthogonal to them. -/
structure IsTangentProjector (x : Grid ℝ) (d : Dimensions)
    (P : Matrix (Fin d.gdim) (Fin d.gdim) ℝ) : Prop where
  tangent : ∀ w, P *ᵥ w ∈ tangents x d
  orthogonal : ∀ w, ∀ u ∈ tangents x d, u ⬝ᵥ (w - P *ᵥ w) = 0

/-- Gradients that belong to the vertices of a cell and combine to those of affine functions, as
    far as a projector lets them through. -/
structure Reproduces (x : Grid ℝ) (d : Dimensions) (P : Matrix (Fin d.gdim) (Fin d.gdim) ℝ)
    (gradient : Fin (d.tdim + 1) → Fin d.gdim → ℝ) : Prop where
  coordinates : ∀ h g : Fin d.gdim, ∑ j : Fin (d.tdim + 1), x.entry h j * gradient j g = P h g
  constants : ∀ g, ∑ j, gradient j g = 0
  affine : ∀ (a : ℝ) (b : Fin d.gdim → ℝ) (g : Fin d.gdim),
    ∑ j : Fin (d.tdim + 1), (a + b ⬝ᵥ vector d.gdim (x.column j)) * gradient j g = (P *ᵥ b) g

variable {x : Grid ℝ} {d : Dimensions}

section

variable (h : (gram (jacobian x d) d.gdim d.tdim).det ≠ 0)

include h

theorem isTangentProjector : IsTangentProjector x d ((jacobian x d).matrix d.gdim d.tdim *
    (inverseJacobian (jacobian x d) d).2.matrix d.tdim d.gdim) where
  tangent w := by
    rw [← mulVec_mulVec]
    exact mulVec_mem_tangents x d _
  orthogonal w u hu := by
    -- The normal equations say so for the columns of the Jacobian.
    have hcolumns : ((jacobian x d).matrix d.gdim d.tdim)ᵀ *ᵥ (w -
        ((jacobian x d).matrix d.gdim d.tdim *
          (inverseJacobian (jacobian x d) d).2.matrix d.tdim d.gdim) *ᵥ w) = 0 := by
      rw [mulVec_sub, mulVec_mulVec, transpose_mul_inverse h, sub_self]
    refine dotProduct_tangents (fun t => ?_) hu
    have hcolumn : vector d.gdim ((jacobian x d).column t) =
        ((jacobian x d).matrix d.gdim d.tdim)ᵀ t := vector_map_range _ _
    exact (congrArg (· ⬝ᵥ _) hcolumn).trans (congrFun hcolumns t)

theorem transpose_jacobian_mul_inverse : ((jacobian x d).matrix d.gdim d.tdim *
    (inverseJacobian (jacobian x d) d).2.matrix d.tdim d.gdim)ᵀ =
      (jacobian x d).matrix d.gdim d.tdim *
        (inverseJacobian (jacobian x d) d).2.matrix d.tdim d.gdim := by
  have hgram : (gram (jacobian x d) d.gdim d.tdim)ᵀ = gram (jacobian x d) d.gdim d.tdim := by
    rw [gram, transpose_mul, transpose_transpose]
  rw [inverseJacobian_eq _ d h, transpose_mul, transpose_mul, transpose_transpose,
    transpose_nonsing_inv, hgram, Matrix.mul_assoc]

end

theorem Reproduces.of_coordinates (hrows : x.rows = d.gdim)
    {P : Matrix (Fin d.gdim) (Fin d.gdim) ℝ} (hsymm : Pᵀ = P)
    {gradient : Fin (d.tdim + 1) → Fin d.gdim → ℝ} (hcoordinates : ∀ h g : Fin d.gdim,
      ∑ j : Fin (d.tdim + 1), x.entry h j * gradient j g = P h g)
    (hconstants : ∀ g, ∑ j, gradient j g = 0) : Reproduces x d P gradient := by
  refine ⟨hcoordinates, hconstants, fun a b g => ?_⟩
  have hvertex : ∀ j : Nat,
      b ⬝ᵥ vector d.gdim (x.column j) = ∑ h : Fin d.gdim, b h * x.entry h j := by
    intro j
    rw [Grid.column, hrows, vector_map_range]
    rfl
  calc ∑ j : Fin (d.tdim + 1), (a + b ⬝ᵥ vector d.gdim (x.column j)) * gradient j g
      = a * ∑ j, gradient j g +
          ∑ h : Fin d.gdim, b h * ∑ j : Fin (d.tdim + 1), x.entry h j * gradient j g := by
        simp only [hvertex, add_mul, Finset.sum_add_distrib, Finset.sum_mul, Finset.mul_sum]
        rw [Finset.sum_comm]
        simp only [mul_assoc]
    _ = (Pᵀ *ᵥ b) g := by
        simp only [hconstants, hcoordinates, mul_zero, zero_add]
        exact Finset.sum_congr rfl fun h _ => mul_comm _ _
    _ = (P *ᵥ b) g := by rw [hsymm]

/-- Summed up with the slopes, values at the vertices give their difference along an edge. -/
theorem sum_slopes {n : Nat} (f : Nat → ℝ) (s : Fin n) :
    ∑ j : Fin (n + 1), f j * barycentricSlope j s = f (s + 1) - f 0 := by
  have hothers : ∑ j : Fin n, f (j + 1) * barycentricSlope (j + 1) s = f (s + 1) := by
    rw [Finset.sum_eq_single s]
    · rw [barycentricSlope, if_neg (Nat.succ_ne_zero _), if_pos rfl, mul_one]
    · intro j _ hj
      rw [barycentricSlope, if_neg (Nat.succ_ne_zero _),
        if_neg fun heq => hj (Fin.ext (Nat.succ.inj heq)), mul_zero]
    · exact fun hs => absurd (Finset.mem_univ s) hs
  rw [Fin.sum_univ_succ]
  simp only [Fin.val_succ, hothers]
  rw [Fin.val_zero, barycentricSlope, if_pos rfl]
  ring

/-- Slopes that are taken through a matrix reproduce affine functions, if the Jacobian times the
    matrix is symmetric. -/
theorem reproduces_slopes (hrows : x.rows = d.gdim) {k : Matrix (Fin d.tdim) (Fin d.gdim) ℝ}
    (hsymm : ((jacobian x d).matrix d.gdim d.tdim * k)ᵀ = (jacobian x d).matrix d.gdim d.tdim * k) :
    Reproduces x d ((jacobian x d).matrix d.gdim d.tdim * k)
      fun j g => ∑ s : Fin d.tdim, k s g * barycentricSlope j s := by
  have hsum : ∀ (f : Nat → ℝ) (g : Fin d.gdim),
      ∑ j : Fin (d.tdim + 1), f j * ∑ s : Fin d.tdim, k s g * barycentricSlope j s =
        ∑ s : Fin d.tdim, k s g * (f (s + 1) - f 0) := by
    intro f g
    simp only [← sum_slopes f, Finset.mul_sum]
    rw [Finset.sum_comm]
    exact Finset.sum_congr rfl fun s _ => Finset.sum_congr rfl fun j _ => mul_left_comm _ _ _
  have hcoordinates : ∀ h g : Fin d.gdim, ∑ j : Fin (d.tdim + 1), x.entry h j *
      ∑ s : Fin d.tdim, k s g * barycentricSlope j s =
        ((jacobian x d).matrix d.gdim d.tdim * k) h g := by
    intro h g
    rw [hsum (x.entry h), Matrix.mul_apply]
    refine Finset.sum_congr rfl fun s _ => ?_
    rw [mul_comm, Grid.matrix_apply, jacobian, Grid.entry_ofFn _ h.isLt s.isLt]
  have hconstants : ∀ g : Fin d.gdim,
      ∑ j : Fin (d.tdim + 1), ∑ s : Fin d.tdim, k s g * barycentricSlope j s = 0 := by
    intro g
    simpa using hsum (fun _ => 1) g
  exact .of_coordinates hrows hsymm hcoordinates hconstants

end Geometry

theorem Element.IsNodal.isLagrange {e : Element} (he : e.IsNodal) (hdegree : e.degree = 1) :
    Tabulator.isLagrange e = true := by
  rcases he with ⟨cell, degree, h | h | ⟨components, h⟩⟩
  · rcases scalar_eq_ok h with ⟨n, rfl⟩
    exact decide_eq_true hdegree
  · rcases scalar_eq_ok h with ⟨n, rfl⟩
    exact decide_eq_true hdegree.le
  · rcases vector_eq_ok h with ⟨n, rfl⟩
    exact decide_eq_true hdegree.le

/-- The physical gradients of a block of basis functions of degree one, at one point. -/
theorem transformTable_slopes {e : Element} (he : e.IsNodal) (hdegree : e.degree = 1)
    {points : List (List ℝ)} {t physical : Table ℝ} (ht : Tabulator.lagrange e points 1 = .ok t)
    {m : AffineMap ℝ} (hcell : e.cell.dimension = m.dims.tdim)
    (hphysical : transformTable e t 1 m = .ok physical) {p q : Nat} (hp : p < points.length)
    (hq : q < e.valueShape.prod) (j : Fin (m.dims.tdim + 1)) (g : Fin m.dims.gdim) :
    physical.get p (q * (m.dims.tdim + 1) + j) g q = .ok (∑ s : Fin m.dims.tdim,
      m.inverse.matrix m.dims.tdim m.dims.gdim s g * barycentricSlope j s) := by
  have hblock : blockSize e.cell.dimension e.degree = m.dims.tdim + 1 := by
    rw [hcell, hdegree, blockSize, if_neg Nat.one_ne_zero]
  have hj : (j : Nat) < blockSize e.cell.dimension e.degree := by rw [hblock]; exact j.isLt
  have hpoints := (Tabulator.lagrange_shaped he ht).points
  have hgradient := transformTable_gradient he hdegree.le hphysical (hpoints ▸ hp) hq hj g.isLt
  rw [hblock, Geometry.sum_range_eq_sum] at hgradient
  rw [hgradient]
  refine congrArg Except.ok (Finset.sum_congr rfl fun s _ => ?_)
  have hslope := Tabulator.lagrange_slope he hdegree ht hp hq (j := j) (s := s) (by omega)
    (by omega)
  rw [hcell] at hslope
  rw [hslope]
  rfl

/-- Physical gradients of nodal elements of degree one reproduce affine functions. On a cell that
    is not degenerate, the Jacobian times its inverse is the orthogonal projector onto the tangents,
    and the identity if the cell fills its space. The transformed tables of first derivatives exist
    if their sizes fit. At every point the gradients of a block of basis functions add up to zero,
    and with the values of an affine function at the vertices to the projection of its
    gradient. -/
theorem transformTable_reproduces {x : Grid ℝ} {d : Dimensions} (hrows : x.rows = d.gdim)
    (hcols : x.cols = d.tdim + 1)
    (hdet : (((Geometry.jacobian x d).matrix d.gdim d.tdim)ᵀ *
      (Geometry.jacobian x d).matrix d.gdim d.tdim).det ≠ 0)
    {e : Element} (he : e.IsNodal) (hdegree : e.degree = 1) (hcell : e.cell = d.shape)
    {points : List (List ℝ)} (hpoints : ∀ point ∈ points, point.length = d.tdim) :
    ∃ m P, AffineMap.of x d = .ok m ∧
      P = m.jacobian.matrix d.gdim d.tdim * m.inverse.matrix d.tdim d.gdim ∧
      Geometry.IsTangentProjector x d P ∧ (d.tdim = d.gdim → P = 1) ∧
      (e.valueShape.prod < Size.limit → points.length < Size.limit →
        points.length * e.spaceDimension * d.gdim * max e.valueShape.prod 1 < Table.capacity →
        ∃ t physical, Tabulator.lagrange e points 1 = .ok t ∧
          transformTable e t 1 m = .ok physical) ∧
      ∀ t physical, Tabulator.lagrange e points 1 = .ok t →
        transformTable e t 1 m = .ok physical →
        ∀ p < points.length, ∀ q < e.valueShape.prod, ∃ gradient,
          (∀ (j : Fin (d.tdim + 1)) (g : Fin d.gdim),
            physical.get p (q * (d.tdim + 1) + j) g q = .ok (gradient j g)) ∧
          Geometry.Reproduces x d P gradient := by
  have hdimension : e.cell.dimension = d.tdim := by rw [hcell, d.dimension_shape]
  refine ⟨⟨d, x, _, _, _⟩, _,
    bind_eq_ok.2 ⟨(), Geometry.checkVertices_eq_ok.2 ⟨hrows, hcols⟩, rfl⟩, rfl,
    Geometry.isTangentProjector hdet, Geometry.jacobian_mul_inverse hdet, ?_, ?_⟩
  · intro hcomponents hcount hentries
    have hknown := he.isLagrange hdegree
    have hcapacity : 3 < Tuple.capacity := by decide
    have htdim := d.tdim_le
    have hgdim := d.gdim_le
    have hfeasible : Tabulator.Feasible e points.length 1 := by
      refine ⟨hcomponents, by decide, ?_, hcount, Nat.lt_of_le_of_lt ?_ hentries⟩
      · rw [pow_one, hdimension]
        omega
      · rw [pow_one, hdimension]
        gcongr
    rcases Tabulator.lagrange_exists he hknown (hdimension ▸ hpoints) hfeasible with ⟨t, ht⟩
    have hshaped := Tabulator.lagrange_shaped he ht
    rw [hdimension] at hshaped
    rcases Geometry.inverseJacobian_size (Geometry.jacobian x d) d with ⟨hk, hk'⟩
    rcases transformTable_exists he hknown hcomponents (m := ⟨d, x, Geometry.jacobian x d, _, _⟩) hk
      hk' hshaped (by decide) (by rw [pow_one]; exact Nat.lt_of_le_of_lt hgdim hcapacity) hcount
      (by rwa [pow_one]) with ⟨physical, hphysical⟩
    exact ⟨t, physical, ht, hphysical⟩
  · intro t physical ht hphysical p hp q hq
    refine ⟨_, transformTable_slopes he hdegree ht hdimension hphysical hp hq, ?_⟩
    exact Geometry.reproduces_slopes hrows (Geometry.transpose_jacobian_mul_inverse hdet)

/-- The second block of a vector-valued element on a triangle in space. -/
theorem transformTable_reproduces_tilted : ∃ m P t physical gradient,
    AffineMap.of tiltedTriangle .surface = .ok m ∧
    Geometry.IsTangentProjector tiltedTriangle .surface P ∧
    Tabulator.lagrange planeField [[1 / 4, 1 / 2]] 1 = .ok t ∧
    transformTable planeField t 1 m = .ok physical ∧
    (∀ (j : Fin 3) (g : Fin 3), physical.get 0 (3 + j) g 1 = .ok (gradient j g)) ∧
    Geometry.Reproduces tiltedTriangle .surface P gradient := by
  have hdet : (((Geometry.jacobian tiltedTriangle .surface).matrix 3 2)ᵀ *
      (Geometry.jacobian tiltedTriangle .surface).matrix 3 2).det ≠ 0 := by
    rw [← Geometry.gram, det_gram_tiltedTriangle]
    norm_num
  have hnodal : planeField.IsNodal := ⟨.triangle, 1, Or.inr (Or.inr ⟨2, by decide +kernel⟩)⟩
  rcases transformTable_reproduces (x := tiltedTriangle) (d := .surface) rfl rfl hdet hnodal rfl rfl
    (List.forall_mem_singleton.2 (rfl : [(1 / 4 : ℝ), 1 / 2].length = 2)) with
    ⟨m, P, hm, _, hprojector, _, hexists, hreproduces⟩
  rcases hexists (by decide) (by decide) (by decide) with ⟨t, physical, ht, hphysical⟩
  rcases hreproduces t physical ht hphysical 0 (by decide) 1 (by decide) with
    ⟨gradient, hgradient, hreproduces⟩
  exact ⟨m, P, t, physical, gradient, hm, hprojector, ht, hphysical, hgradient, hreproduces⟩

end WeakForm
