import Mathlib.Data.Finsupp.Weight
import WeakForm.Proofs.BasisPolynomials
import WeakForm.Proofs.SoundTables

/-!
# Tables of nodal bases

A table of one order and the table of the next order belong together: the second holds the
derivatives of what the first holds. Basis functions have degree at most one, so this can be
said without limits: from one point to another, an entry grows by the coordinates of the
step times the slopes, and the slopes may be taken anywhere. The tuple of axes of a slope is
the tuple of the entry, extended by one axis.

The values themselves are nodal. The basis functions are blocked by component, one block for
each component of the element. A basis function of degree one is one at its own vertex and
zero at the other vertices, in the component of its block. In the other components it is
zero, and each block adds up to one at every point.

## Theorems

* `Tabulator.lagrange_nodal_growsBy`: Tables are nodal, and the next table has the derivatives.
-/

namespace WeakForm

open List MvPolynomial Success

variable {K : Type} [Field K]

section

variable {n : Nat} (axes : List (Fin n)) (e : Element)

/-- A polynomial of degree at most one grows by its slopes, wherever they are taken. -/
theorem eval_sub_eval_of_totalDegree_le {p : MvPolynomial (Fin n) K} (h : p.totalDegree ≤ 1)
    (x y z : Fin n → K) : eval y p - eval x p = ∑ i, (y i - x i) * eval z (pderiv i p) := by
  -- By linearity it is enough to look at monomials, which are constants or single coordinates.
  have hmonomial : ∀ m ∈ p.support, ∀ c : K, eval y (monomial m c) - eval x (monomial m c) =
      ∑ i, (y i - x i) * eval z (pderiv i (monomial m c)) := by
    intro m hm c
    have hdegree : m.degree ≤ 1 := (le_totalDegree hm).trans h
    rcases Nat.le_one_iff_eq_zero_or_eq_one.1 hdegree with hzero | hone
    · rw [Finsupp.degree_eq_zero_iff] at hzero
      rw [hzero, ← C_apply]
      simp
    · rcases (Finsupp.sum_eq_one_iff m).1 hone with ⟨a, rfl⟩
      rw [← C_mul_X_eq_monomial]
      simp only [pderiv_C_mul, pderiv_X, map_mul, eval_C, eval_X]
      rw [Finset.sum_eq_single a]
      · rw [Pi.single_eq_same, map_one]
        ring
      · intro i _ hi
        rw [Pi.single_eq_of_ne hi.symm, map_zero]
        ring
      · exact fun ha => absurd (Finset.mem_univ a) ha
  conv_lhs => rw [p.as_sum]
  conv_rhs => rw [p.as_sum]
  simp only [map_sum, ← Finset.sum_sub_distrib, Finset.mul_sum]
  rw [Finset.sum_comm]
  exact Finset.sum_congr rfl fun m hm => hmonomial m hm _

theorem derivative_append (axes' : List (Fin n)) (p : MvPolynomial (Fin n) K) :
    derivative (axes ++ axes') p = derivative axes' (derivative axes p) :=
  foldl_append

theorem derivative_zero : derivative axes (0 : MvPolynomial (Fin n) K) = 0 := by
  rw [← C_0, derivative_C, ite_self]

theorem derivative_add (p q : MvPolynomial (Fin n) K) :
    derivative axes (p + q) = derivative axes p + derivative axes q := by
  induction axes generalizing p q with
  | nil => rfl
  | cons i axes ih => rw [derivative_cons, map_add, ih, derivative_cons, derivative_cons]

theorem derivative_sum (ps : List (MvPolynomial (Fin n) K)) :
    derivative axes ps.sum = (ps.map (derivative axes)).sum := by
  induction ps with
  | nil => exact derivative_zero axes
  | cons p ps ih => rw [sum_cons, derivative_add, ih, map_cons, sum_cons]

theorem sum_barycentricPolynomial (n : Nat) : ((range (n + 1)).map
      (barycentricPolynomial n : Nat → MvPolynomial (Fin n) K)).sum = 1 := by
  have hcoordinates : (range n).map (fun j =>
      (barycentricPolynomial n (j + 1) : MvPolynomial (Fin n) K)) = List.ofFn X := by
    apply ext_getElem
    · simp
    · intro j hj _
      have hlt : j < n := by simpa using hj
      simp [barycentricPolynomial, hlt]
  rw [range_succ_eq_map, map_cons, List.map_map, sum_cons]
  change barycentricPolynomial n 0 + ((range n).map fun j =>
    (barycentricPolynomial n (j + 1) : MvPolynomial (Fin n) K)).sum = 1
  rw [hcoordinates, sum_ofFn, barycentricPolynomial, sub_add_cancel]

theorem sum_scalarPolynomial (n degree : Nat) : ((range (blockSize n degree)).map
      (scalarPolynomial n degree : Nat → MvPolynomial (Fin n) K)).sum = 1 := by
  unfold blockSize scalarPolynomial
  split
  · simp
  · exact sum_barycentricPolynomial n

theorem Element.basisPolynomial_block {b : Nat} (hb : b < blockSize n e.degree) (q c : Nat) :
    (e.basisPolynomial n (q * blockSize n e.degree + b) c : MvPolynomial (Fin n) K) =
      if q = c then scalarPolynomial n e.degree b else 0 := by
  rcases Table.split_digit (n := q) hb with ⟨hdiv, hmod⟩
  rw [basisPolynomial, hdiv, hmod]

theorem Element.sum_basisPolynomial_block (n q c : Nat) :
    ((range (blockSize n e.degree)).map fun b =>
      (e.basisPolynomial n (q * blockSize n e.degree + b) c : MvPolynomial (Fin n) K)).sum =
        if q = c then 1 else 0 := by
  rw [map_congr_left fun b hb => e.basisPolynomial_block (mem_range.1 hb) q c]
  split
  · exact sum_scalarPolynomial n e.degree
  · simp

theorem Element.sum_basisPolynomial (n blocks c : Nat) :
    ((range (blocks * blockSize n e.degree)).map fun k =>
      (e.basisPolynomial n k c : MvPolynomial (Fin n) K)).sum =
        C (if c < blocks then 1 else 0) := by
  rw [Tuple.range_mul, Tuple.sum_flatMap]
  simp only [List.map_map, Function.comp_def, e.sum_basisPolynomial_block]
  induction blocks with
  | zero => simp
  | succ blocks ih =>
    rw [range_succ, map_append, sum_append, ih, map_singleton, sum_singleton]
    by_cases h : c < blocks
    · simp [h, Nat.lt_succ_of_lt h, (Nat.ne_of_lt h).symm]
    · by_cases h' : blocks = c
      · simp [h']
      · have : ¬ c < blocks + 1 := by omega
        simp [h, h', this]

theorem valueAt_barycentricPolynomial_vertex [LinearOrder K] [Root K] {s : Shape} {v j : Nat}
    (hv : v ≤ s.dimension) (hj : j ≤ s.dimension) :
    Rule.valueAt (barycentricPolynomial s.dimension j) ((s.vertices : Grid K).column v) =
      if j = v then 1 else 0 := by
  have hcoordinate : ∀ i : Fin s.dimension,
      ((s.vertices : Grid K).column v)[(i : Nat)]?.getD 0 = if v = i + 1 then 1 else 0 := by
    intro i
    have hcount : v < s.vertexCount := by cases s <;> exact Nat.lt_succ_of_le hv
    have hentry : (s.vertices : Grid K).entry i v = Shape.vertexCoordinate v i :=
      Grid.entry_ofFn _ i.isLt hcount
    have hi : (i : Nat) < (s.vertices : Grid K).rows := i.isLt
    rw [Grid.column, getElem?_map, getElem?_range hi, Option.map_some, Option.getD_some, hentry]
    rfl
  cases j with
  | zero =>
    rw [barycentricPolynomial, Rule.valueAt, map_sub, map_one, map_sum]
    simp only [eval_X, hcoordinate]
    cases v with
    | zero => simp
    | succ w =>
      have hsingle :
          ∑ i : Fin s.dimension, (if w + 1 = (i : Nat) + 1 then (1 : K) else 0) = 1 := by
        rw [Finset.sum_eq_single ⟨w, hv⟩]
        · exact if_pos rfl
        · intro i _ hi
          exact if_neg fun h => hi (Fin.ext (Nat.succ.inj h).symm)
        · exact fun h => absurd (Finset.mem_univ _) h
      rw [hsingle, sub_self, if_neg (Nat.succ_ne_zero w).symm]
  | succ j =>
    rw [barycentricPolynomial, dif_pos (Nat.lt_of_succ_le hj), Rule.valueAt, eval_X, hcoordinate]
    exact if_congr eq_comm rfl rfl

end

theorem Tuple.exists_fin {dim order : Nat} {tuple : List Nat} (h : tuple ∈ axes dim order) :
    ∃ axes : List (Fin dim), axes.length = order ∧ axes.map Fin.val = tuple := by
  rcases mem_axes_iff.1 h with ⟨hlength, hlt⟩
  exact ⟨tuple.pmap Fin.mk hlt, by rw [length_pmap, hlength], by simp [map_pmap]⟩

theorem Tuple.idxOf_all {dims tuple : List Nat} (h : tuple ∈ all dims) :
    (all dims).idxOf tuple = linear dims tuple := by
  refine (linear_of_get ?_).symm
  rw [getElem?_eq_getElem (idxOf_lt_length_of_mem h), getElem_idxOf]

def Table.along {α : Type} [Scalar α] (t : Table α) (n p k : Nat) (axes : List Nat) (c : Nat) : α :=
  t.entry p k ((Tuple.axes n axes.length).idxOf axes) c

namespace Element.IsNodal

variable {e : Element}

theorem block_lt (h : e.IsNodal) (hdegree : e.degree ≤ 1) {q b : Nat}
    (hq : q < e.valueShape.prod) (hb : b < blockSize e.cell.dimension e.degree) :
    q * blockSize e.cell.dimension e.degree + b < e.spaceDimension := by
  rw [h.spaceDimension_eq hdegree]
  calc q * blockSize e.cell.dimension e.degree + b
      < (q + 1) * blockSize e.cell.dimension e.degree := by rw [Nat.succ_mul]; omega
    _ ≤ e.valueShape.prod * blockSize e.cell.dimension e.degree := Nat.mul_le_mul_right _ hq

theorem constructed (h : e.IsNodal) (hsize : e.valueShape.prod < Size.limit) : e.Constructed := by
  rcases h with ⟨cell, degree, h | h | ⟨components, h⟩⟩
  · exact .lagrange h
  · exact .discontinuous h
  · refine .vector ?_ h
    rcases vector_eq_ok h with ⟨n, rfl⟩
    simpa using hsize

end Element.IsNodal

namespace Tabulator

/-- The sizes of a table fit: the number of components, the number of tuples of axes, the number of
    points and the number of entries. -/
structure Feasible (e : Element) (count order : Nat) : Prop where
  components_lt : e.valueShape.prod < Size.limit
  order_lt : order < 2 ^ 31
  axes_lt : e.cell.dimension ^ order < Tuple.capacity
  count_lt : count < Size.limit
  entries_lt : count * e.spaceDimension * e.cell.dimension ^ order * max e.valueShape.prod 1 <
    Table.capacity

variable [LinearOrder K] [Root K] {e : Element} {points : List (List K)}
  {order : Nat} {t : Table K}

theorem lagrange_exists (he : e.IsNodal) (hknown : isLagrange e = true)
    (hpoints : ∀ point ∈ points, point.length = e.cell.dimension)
    (hfeasible : Feasible e points.length order) : ∃ t, lagrange e points order = .ok t := by
  have hshape := (Element.dofs_of_isNodal he).1
  have hsound := lagrange_sound (he.constructed hfeasible.components_lt) hpoints
    hfeasible.order_lt hfeasible.axes_lt hfeasible.count_lt (hshape ▸ hfeasible.entries_lt)
  rcases hsound.exists_of_not (by rw [hknown]; decide) with ⟨t, ht, _⟩
  exact ⟨t, ht⟩

theorem lagrange_shaped (he : e.IsNodal) (h : lagrange e points order = .ok t) :
    t.Shaped points.length e.spaceDimension (e.cell.dimension ^ order)
      (max e.valueShape.prod 1) := by
  rcases lagrange_values h with ⟨_, _, size, derivatives, values, hsize, hbound, hderivatives,
    htable, _⟩
  rcases Table.dims_ofFn htable with ⟨hpoints, hdofs, hcount, hcomponents⟩
  refine ⟨hpoints, hdofs, hcount.trans (Tuple.axesCount_eq_pow hderivatives hbound), ?_⟩
  rw [hcomponents, Size.product_eq_prod hsize, (Element.dofs_of_isNodal he).1]

/-- A table, read along axes, holds the values of the derivatives of basis functions. -/
theorem lagrange_along (he : e.IsNodal) (h : lagrange e points order = .ok t) {p k c : Nat}
    {point : List K} (hp : points[p]? = some point) (hk : k < e.spaceDimension)
    (hc : c < max e.valueShape.prod 1) {axes : List (Fin e.cell.dimension)}
    (haxes : axes.length = order) : t.along e.cell.dimension p k (axes.map Fin.val) c =
      Rule.valueAt (derivative axes (e.basisPolynomial e.cell.dimension k c)) point := by
  have hshaped := lagrange_shaped he h
  have hmem : axes.map Fin.val ∈ Tuple.axes e.cell.dimension (axes.map Fin.val).length := by
    refine Tuple.mem_axes_iff.2 ⟨rfl, fun axis haxis => ?_⟩
    rcases mem_map.1 haxis with ⟨i, _, rfl⟩
    exact i.isLt
  unfold Table.along
  rw [Tuple.axes, Tuple.idxOf_all hmem, length_map, haxes]
  exact lagrange_entry he rfl h hp (hshaped.dofs ▸ hk) haxes (hshaped.components ▸ hc)

end Tabulator

/-- A table of derivatives of one order more: from one point to another, an entry of the first table
    grows by the entries of the second table for the same axes and one more, taken at any point. -/
def Table.GrowsBy [LinearOrder K] [Root K] (t t' : Table K) (n order : Nat)
    (points : List (List K)) : Prop :=
  ∀ p q r x y, points[p]? = some x → points[q]? = some y → r < points.length →
    ∀ k < t.dofs, ∀ c < t.components, ∀ axes ∈ Tuple.axes n order,
      t.along n q k axes c - t.along n p k axes c = ((List.range n).map fun i =>
        (Geometry.coordinate y i - Geometry.coordinate x i) * t'.along n r k (axes ++ [i]) c).sum

/-- The values of nodal basis functions that are blocked by component. -/
structure Table.Nodal [LinearOrder K] [Root K] (t : Table K) (e : Element)
    (points : List (List K)) : Prop where
  /-- A basis function of degree one is one at its own vertex and zero at the others. -/
  vertex : e.degree = 1 → ∀ p v, v ≤ e.cell.dimension →
    points[p]? = some ((e.cell.vertices : Grid K).column v) → ∀ q < e.valueShape.prod,
      ∀ b ≤ e.cell.dimension,
        t.entry p (q * (e.cell.dimension + 1) + b) 0 q = if b = v then 1 else 0
  /-- A basis function is zero in the components of the other blocks. -/
  other : ∀ p < points.length, ∀ q < e.valueShape.prod,
    ∀ b < blockSize e.cell.dimension e.degree, ∀ c < t.components, c ≠ q →
      t.entry p (q * blockSize e.cell.dimension e.degree + b) 0 c = 0
  /-- The basis functions of a block add up to one. -/
  unity : ∀ p < points.length, ∀ q < e.valueShape.prod,
    ((List.range (blockSize e.cell.dimension e.degree)).map fun b =>
      t.entry p (q * blockSize e.cell.dimension e.degree + b) 0 q).sum = 1

namespace Tabulator

variable [LinearOrder K] [Root K] {e : Element} {points : List (List K)}
  {t : Table K}

theorem lagrange_growsBy (he : e.IsNodal) {order : Nat} {t' : Table K}
    (h : lagrange e points order = .ok t) (h' : lagrange e points (order + 1) = .ok t') :
    t.GrowsBy t' e.cell.dimension order points := by
  intro p q r x y hp hq hr k hk c hc axes haxes
  have hshaped := lagrange_shaped he h
  rw [hshaped.dofs] at hk
  rw [hshaped.components] at hc
  have hdegree := degree_le_of_isLagrange (lagrange_values h).1
  rcases Tuple.exists_fin haxes with ⟨axes, hlength, rfl⟩
  rw [lagrange_along he h hp hk hc hlength, lagrange_along he h hq hk hc hlength]
  -- The next table has the slopes of the polynomial that this table has the values of.
  have hslopes : ∀ i : Fin e.cell.dimension,
      t'.along e.cell.dimension r k (axes.map Fin.val ++ [i.val]) c =
        Rule.valueAt (pderiv i (derivative axes (e.basisPolynomial e.cell.dimension k c)))
          (points.get ⟨r, hr⟩) := by
    intro i
    have hlength' : (axes ++ [i]).length = order + 1 := by
      rw [length_append, hlength, length_singleton]
    have halong := lagrange_along he h' (getElem?_eq_getElem hr) hk hc hlength'
    rwa [map_append, map_singleton, derivative_append] at halong
  have hone : (derivative axes (e.basisPolynomial e.cell.dimension k c :
      MvPolynomial (Fin e.cell.dimension) K)).totalDegree ≤ 1 :=
    (totalDegree_derivative_basisPolynomial e _ k c axes hdegree).trans (by omega)
  refine Eq.trans ?_ (Finset.sum_range _).symm
  simp only [hslopes]
  exact eval_sub_eval_of_totalDegree_le hone _ _ _

theorem lagrange_value (he : e.IsNodal) (h : lagrange e points 0 = .ok t) {p : Nat} {point : List K}
    (hp : points[p]? = some point) {q b c : Nat} (hq : q < e.valueShape.prod)
    (hb : b < blockSize e.cell.dimension e.degree) (hc : c < t.components) :
    t.entry p (q * blockSize e.cell.dimension e.degree + b) 0 c =
      if q = c then Rule.valueAt (scalarPolynomial e.cell.dimension e.degree b) point else 0 := by
  have hshaped := lagrange_shaped he h
  have hk := he.block_lt (degree_le_of_isLagrange (lagrange_values h).1) hq hb
  have hvalue := lagrange_along he h hp hk (hshaped.components ▸ hc) length_nil
  rw [e.basisPolynomial_block hb] at hvalue
  refine hvalue.trans ?_
  split
  · rfl
  · exact map_zero _

theorem lagrange_nodal (he : e.IsNodal) (h : lagrange e points 0 = .ok t) : t.Nodal e points := by
  have hown : ∀ q < e.valueShape.prod, q < t.components := by
    intro q hq
    rw [(lagrange_shaped he h).components]
    exact Nat.lt_of_lt_of_le hq (Nat.le_max_left _ 1)
  refine ⟨fun hone p v hv hp q hq b hb => ?_, fun p hp q hq b hb c hc hne => ?_,
    fun p hp q hq => ?_⟩
  · have hsize : blockSize e.cell.dimension e.degree = e.cell.dimension + 1 := by
      rw [hone, blockSize, if_neg Nat.one_ne_zero]
    have hvalue := lagrange_value he h hp hq (Nat.lt_of_le_of_lt hb (by omega)) (hown q hq)
    rwa [hsize, if_pos rfl, scalarPolynomial, hone, if_neg Nat.one_ne_zero,
      valueAt_barycentricPolynomial_vertex hv hb] at hvalue
  · rw [lagrange_value he h (getElem?_eq_getElem hp) hq hb hc, if_neg hne.symm]
  · have hvalue : ∀ b ∈ range (blockSize e.cell.dimension e.degree),
        t.entry p (q * blockSize e.cell.dimension e.degree + b) 0 q =
          Rule.valueAt (scalarPolynomial e.cell.dimension e.degree b) (points.get ⟨p, hp⟩) := by
      intro b hb
      rw [lagrange_value he h (getElem?_eq_getElem hp) hq (mem_range.1 hb) (hown q hq), if_pos rfl]
      rfl
    have hsum := congrArg (Rule.valueAt · (points.get ⟨p, hp⟩))
      (sum_scalarPolynomial (K := K) e.cell.dimension e.degree)
    simp only [Rule.valueAt, map_list_sum, List.map_map, map_one] at hsum
    rw [map_congr_left hvalue]
    exact hsum

/-- The tables of a nodal element that the tabulator knows. They exist for all points of the
    reference space and all orders whose sizes fit, the next order holds the derivatives, and the
    values are nodal, block by block. -/
theorem lagrange_nodal_growsBy (he : e.IsNodal) (hknown : isLagrange e = true)
    (hpoints : ∀ point ∈ points, point.length = e.cell.dimension) :
    e.spaceDimension = e.valueShape.prod * blockSize e.cell.dimension e.degree ∧
      (∀ order, Feasible e points.length order → ∃ t, lagrange e points order = .ok t) ∧
      (∀ order t t', lagrange e points order = .ok t → lagrange e points (order + 1) = .ok t' →
        t.Shaped points.length e.spaceDimension (e.cell.dimension ^ order)
          (max e.valueShape.prod 1) ∧
        t.GrowsBy t' e.cell.dimension order points) ∧
      ∀ t, lagrange e points 0 = .ok t → t.Nodal e points := by
  refine ⟨he.spaceDimension_eq (degree_le_of_isLagrange hknown), fun order => ?_, ?_, fun t => ?_⟩
  · exact lagrange_exists he hknown hpoints
  · exact fun order t t' h h' => ⟨lagrange_shaped he h, lagrange_growsBy he h h'⟩
  · exact lagrange_nodal he

end Tabulator

/-- A field on the plane, with linear components. -/
def planeField : Element :=
  ⟨.vectorLagrange, .triangle, 1, [2], [2], .affine,
    Element.affineDofs 3 0 ++ Element.affineDofs 3 1⟩

/-- The vertices of the triangle and a point outside of it. -/
def planePoints : List (List ℚ) := [[0, 0], [1, 0], [0, 1], [3, -2]]

/-- The last basis function of the second block, in the second component. -/
theorem lagrange_nodal_growsBy_planeField : ∃ t t' : Table ℚ,
    Tabulator.lagrange planeField planePoints 0 = .ok t ∧
    Tabulator.lagrange planeField planePoints 1 = .ok t' ∧
    t.entry 2 5 0 1 = 1 ∧ t.entry 1 5 0 1 = 0 ∧ t.entry 3 5 0 0 = 0 ∧
    t.entry 3 3 0 1 + t.entry 3 4 0 1 + t.entry 3 5 0 1 = 1 ∧
    t.entry 3 5 0 1 - t.entry 1 5 0 1 = 2 * t'.entry 0 5 0 1 + -2 * t'.entry 0 5 1 1 := by
  have hnodal : planeField.IsNodal := ⟨.triangle, 1, Or.inr (Or.inr ⟨2, by decide +kernel⟩)⟩
  have hpoints : ∀ point ∈ planePoints, point.length = planeField.cell.dimension :=
    List.forall_iff_forall_mem.1 ⟨rfl, rfl, rfl, rfl⟩
  rcases Tabulator.lagrange_nodal_growsBy hnodal rfl hpoints with ⟨_, hexists, hgrows, hvalues⟩
  rcases hexists 0 ⟨by decide, by decide, by decide, by decide, by decide⟩ with ⟨t, ht⟩
  rcases hexists 1 ⟨by decide, by decide, by decide, by decide, by decide⟩ with ⟨t', ht'⟩
  rcases hgrows 0 t t' ht ht' with ⟨hshaped, hgrows⟩
  have hcomponents : t.components = 2 := hshaped.components
  have hdofs : t.dofs = 6 := hshaped.dofs
  have hnodal := hvalues t ht
  refine ⟨t, t', ht, ht', ?_, ?_, ?_, ?_, ?_⟩
  · exact hnodal.vertex rfl 2 2 (by decide) rfl 1 (by decide) 2 (by decide)
  · exact hnodal.vertex rfl 1 1 (by decide) rfl 1 (by decide) 2 (by decide)
  · exact hnodal.other 3 (by decide) 1 (by decide) 2 (by decide) 0 (by omega) (by decide)
  · have hunity : ((List.range 3).map fun b => t.entry 3 (3 + b) 0 1).sum = 1 :=
      hnodal.unity 3 (by decide) 1 (by decide)
    simpa [List.range_succ, add_assoc] using hunity
  · have hgrowth : t.entry 3 5 0 1 - t.entry 1 5 0 1 =
        (3 - 1) * t'.entry 0 5 0 1 + ((-2 - 0) * t'.entry 0 5 1 1 + 0) :=
      hgrows 1 3 0 [1, 0] [3, -2] rfl rfl (by decide) 5 (by omega) 1 (by omega) [] (by decide)
    linarith

end WeakForm
