import Mathlib.Algebra.MvPolynomial.Monad
import WeakForm.Proofs.BasisPolynomials
import WeakForm.Proofs.FacetPoints
import WeakForm.Proofs.GeometryScope
import WeakForm.Proofs.Independence
import WeakForm.Proofs.SoundLoops

/-!
# Reference tensors are exact

The entries of a reference tensor are computed by quadrature, and quadrature is exact only
up to a degree. The degree that a monomial is integrated with is estimated from its
factors: the degrees of the elements less the numbers of derivatives. Here the estimate is
shown to be enough. If the Gauss rules are as exact as Gauss rules are, then no entry has
a quadrature error, on the cell as well as on its facets.

An integrand is a product of derivatives of basis functions, and as such a polynomial. On a
facet the coordinates of the cell are replaced by those of the reference facet, along the
affine map that also moves the quadrature points. Affine maps do not raise degrees. So in
either case the rule gets a polynomial on a unit simplex, of the degree that was estimated
at most, and its values at the points are what the tables hold.

## Theorems

* `tensorTerms_exact`: The entries of reference tensors are integrals.
-/

namespace WeakForm

open List MvPolynomial Success

theorem totalDegree_bind₁_le {K σ τ : Type} [Field K] {g : σ → MvPolynomial τ K}
    (hg : ∀ i, (g i).totalDegree ≤ 1) (p : MvPolynomial σ K) :
    (bind₁ g p).totalDegree ≤ p.totalDegree := by
  have hsum : bind₁ g p = ∑ m ∈ p.support, C (p.coeff m) * ∏ i ∈ m.support, g i ^ m i := by
    conv_lhs => rw [p.as_sum, map_sum]
    exact Finset.sum_congr rfl fun m _ => bind₁_monomial g m (p.coeff m)
  rw [hsum]
  refine totalDegree_finsetSum_le fun m hm => ?_
  calc (C (p.coeff m) * ∏ i ∈ m.support, g i ^ m i).totalDegree
      ≤ (C (p.coeff m)).totalDegree + (∏ i ∈ m.support, g i ^ m i).totalDegree :=
        totalDegree_mul _ _
    _ ≤ 0 + ∑ i ∈ m.support, (g i ^ m i).totalDegree :=
        Nat.add_le_add (totalDegree_C _).le (totalDegree_finsetProd _ _)
    _ ≤ m.sum fun _ e => e := by
        rw [Nat.zero_add]
        refine Finset.sum_le_sum fun i _ => (totalDegree_pow _ _).trans ?_
        exact (Nat.mul_le_mul_left _ (hg i)).trans (Nat.mul_one _).le
    _ ≤ p.totalDegree := le_totalDegree hm

variable {K : Type} [Field K] [LinearOrder K] [Root K]

namespace Shape

variable {s : Shape} {vertices : List Nat} {point : List K}

/-- The map of the reference facet onto the facet with given vertices, as a polynomial for each
    coordinate: the combination of the vertices with the barycentric coordinates. -/
noncomputable def facetMap (s : Shape) (vertices : List Nat) (axis : Fin s.dimension) :
    MvPolynomial (Fin (s.dimension - 1)) K :=
  (vertices.zipIdx.map fun v =>
    barycentricPolynomial (s.dimension - 1) v.2 * C (vertexCoordinate v.1 axis)).sum

/-- The integral of a polynomial over the reference cell, or over one of its facets. Facets are
    integrated over in the coordinates of the reference facet. -/
noncomputable def regionIntegral (s : Shape) (facet : Option Nat)
    (p : MvPolynomial (Fin s.dimension) K) : K :=
  match facet with
  | none => Rule.simplexIntegral p
  | some facet =>
    Rule.simplexIntegral (bind₁ (s.facetMap ((s.facetVertices facet).toOption.getD [])) p)

theorem totalDegree_facetMap (s : Shape) (vertices : List Nat) (axis : Fin s.dimension) :
    (s.facetMap vertices axis : MvPolynomial (Fin (s.dimension - 1)) K).totalDegree ≤ 1 := by
  unfold facetMap
  induction vertices.zipIdx with
  | nil => simp
  | cons v vs ih =>
    rw [map_cons, sum_cons]
    refine (totalDegree_add _ _).trans (max_le ?_ ih)
    refine (totalDegree_mul _ _).trans ?_
    rw [totalDegree_C, Nat.add_zero]
    exact totalDegree_barycentricPolynomial _ _

theorem valueAt_facetMap (hvertices : vertices.length = point.length + 1)
    (hpoint : point.length = s.dimension - 1) (axis : Fin s.dimension) :
    Rule.valueAt (s.facetMap vertices axis) point =
      ((Geometry.barycentric point vertices).map fun w => w.1 * vertexCoordinate w.2 axis).sum := by
  unfold Rule.valueAt facetMap Geometry.barycentric
  rw [map_list_sum, List.map_map]
  refine congrArg List.sum (ext_getElem ?_ fun j hj hj' => ?_)
  · simp [hvertices]
  · have hlt : j < point.length + 1 := by simpa [hvertices] using hj
    have hvalue := valueAt_barycentricPolynomial hpoint (by omega : j ≤ s.dimension - 1)
    rw [getElem?_eq_getElem (by simpa using hlt), Option.some.injEq] at hvalue
    simp only [getElem_map, getElem_zipIdx, getElem_zip, Function.comp_apply, map_mul, eval_C,
      Nat.zero_add, hvalue]
    rfl

/-- Along the map onto a facet, polynomials on the cell become polynomials on the reference
    facet. -/
theorem valueAt_bind₁_facetMap {image : List K} (hvertices : vertices.length = s.dimension)
    (hpoint : point.length = s.dimension - 1) (himage : s.facetPoint vertices point = .ok image)
    (p : MvPolynomial (Fin s.dimension) K) :
    Rule.valueAt (bind₁ (s.facetMap vertices) p) point = Rule.valueAt p image := by
  have hpos := s.dimension_pos
  have hlength : vertices.length = point.length + 1 := by omega
  rw [Geometry.facetPoint_eq_combination hlength, Except.ok.injEq] at himage
  refine (eval₂Hom_bind₁ _ _ _ p).trans (congrArg (fun x => eval x p) (funext fun axis => ?_))
  rw [← himage, getElem?_map, getElem?_range axis.isLt]
  exact valueAt_facetMap hlength hpoint axis

end Shape

variable {facet : Option Nat}

namespace Rule

variable {source : Gauss.Source K} {r : Rule K} {dimension degree : Nat}

/-- A rule on a simplex is exact to the degree it was made for, also in dimension zero. -/
theorem integrates_of_simplex [CharZero K] (hle : dimension ≤ 3)
    (hexact : ∀ n line, pointsPerAxis degree dimension = .ok n → Gauss.rule source n = .ok line →
      Gauss.ExactTo (2 * n - 1) line) (h : simplex source dimension degree = .ok r) :
    r.points.length = r.size ∧ r.Integrates dimension degree := by
  rcases bind_eq_ok.1 h with ⟨n, hn, hr⟩
  rw [lift_fault_eq_ok] at hn
  rcases Nat.eq_zero_or_pos dimension with rfl | hpos
  -- A point is integrated over without a Gauss rule, and has no powers but the empty product.
  · cases hr
    refine ⟨rfl, forall_mem_singleton.2 rfl, fun exponents hexponents _ => ?_⟩
    rw [length_eq_zero_iff.1 hexponents]
    unfold integrate moment
    rw [Scalar.sum_eq_sum]
    simp [coordinateProduct]
  · rcases (collapsed_eq_ok hr).resolve_left fun h => hpos.ne' h.1 with ⟨line, hline, _⟩
    have hdegree := degree_le_of_pointsPerAxis hn
    rcases collapsed_integrates degree hpos hle hline
      ((hexact n line hn hline).mono (by omega)) with ⟨r', hr', _, hpoints, hintegrates⟩
    rw [hr] at hr'
    cases hr'
    exact ⟨hpoints, hintegrates⟩

theorem integrate_eq (r : Rule K) (g : List K → K) :
    r.integrate g = (zipWith (· * ·) r.weights (r.points.map g)).sum := by
  rw [integrate, Scalar.sum_eq_sum, zipWith_map_right]

/-- Rules integrate polynomials of their degree over the reference cell and over its facets. -/
theorem reference_integrates [CharZero K] {s : Shape}
    (hexact : ∀ n line, pointsPerAxis degree (s.regionDimension facet) = .ok n →
      Gauss.rule source n = .ok line → Gauss.ExactTo (2 * n - 1) line)
    (h : reference source s facet degree = .ok r) :
    r.points.length = r.size ∧ ∀ p : MvPolynomial (Fin s.dimension) K, p.totalDegree ≤ degree →
      r.integrate (valueAt p) = s.regionIntegral facet p := by
  have hle := s.dimension_le
  cases facet with
  | none =>
    rcases integrates_of_simplex hle hexact h with ⟨hpoints, hintegrates⟩
    exact ⟨hpoints, fun p hp => hintegrates.polynomial hp⟩
  | some facet =>
    rcases reference_facet_eq_ok h with ⟨q, vertices, hq, hweights, hvertices, hmap⟩
    have hcount := (Shape.facetVertices_spec hvertices).1
    have hq' : q.points.length = q.size ∧ q.Integrates (s.dimension - 1) degree :=
      integrates_of_simplex (by omega) hexact hq
    rcases hq' with ⟨hsize, hintegrates⟩
    refine ⟨by rw [size, hweights, ← hmap.length_eq, hsize, size], fun p hp => ?_⟩
    -- The weights are those of the reference facet, and the values are those of the integrand
    -- in its coordinates.
    have hvalues : r.points.map (valueAt p) =
        q.points.map (valueAt (bind₁ (s.facetMap vertices) p)) := by
      have hpoints := (forall₂_and_left _ _).2 ⟨hintegrates.points, hmap⟩
      refine map_eq_of_forall₂ hpoints.flip fun image point hpoint => ?_
      exact (Shape.valueAt_bind₁_facetMap hcount hpoint.1 hpoint.2 p).symm
    have hdegree := (totalDegree_bind₁_le (s.totalDegree_facetMap vertices) p).trans hp
    rw [integrate_eq, hvalues, hweights, ← integrate_eq q, hintegrates.polynomial hdegree,
      Shape.regionIntegral, hvertices]
    rfl

theorem sum_zipIdx_eq_integrate (hlength : r.points.length = r.size) {F : Nat → K} {g : List K → K}
    (h : ∀ w ∈ r.weights.zipIdx, ∀ point, r.points[w.2]? = some point → F w.2 = g point) :
    (r.weights.zipIdx.map fun w => w.1 * F w.2).sum = r.integrate g := by
  unfold integrate
  rw [Scalar.sum_eq_sum]
  refine congrArg List.sum (ext_getElem ?_ fun k hk hk' => ?_)
  · simp [hlength, size]
  · rw [length_zipWith] at hk'
    have hmem : (r.weights[k], k) ∈ r.weights.zipIdx := by
      rw [mem_zipIdx_iff_getElem?]
      exact getElem?_eq_getElem (by omega)
    rw [getElem_map, getElem_zipWith, getElem_zipIdx, Nat.zero_add,
      h _ hmem r.points[k] (getElem?_eq_getElem (by omega))]

end Rule

variable {factors : List Factor}

namespace Form

section

variable {K : Type} [Field K]

/-- The reference derivative along some axes of what a factor takes of the basis function that a
    tuple selects. -/
noncomputable def factorPolynomial (f : Form K) (i : List Nat) (factor : Factor)
    (axes : List (Fin f.cell.dimension)) : MvPolynomial (Fin f.cell.dimension) K :=
  match f.arguments[factor.argument]? with
  | some e => derivative axes
      (e.basisPolynomial f.cell.dimension (i[factor.argument]?.getD 0) factor.component)
  | none => 0

/-- The product of the reference derivatives of the basis functions that a tuple selects, each
    factor along axes of its own. -/
noncomputable def integrand (f : Form K) (i : List Nat) (factors : List Factor)
    (parts : List (List (Fin f.cell.dimension))) : MvPolynomial (Fin f.cell.dimension) K :=
  (List.zipWith (f.factorPolynomial i) factors parts).prod

theorem totalDegree_integrand {f : Form K} {parts : List (List (Fin f.cell.dimension))}
    (i : List Nat)
    (hdegrees : ∀ factor ∈ factors, ∀ e, f.arguments[factor.argument]? = some e → e.degree ≤ 1)
    (hparts : Forall₂ (fun factor axes => axes.length = factor.order) factors parts) :
    (f.integrand i factors parts).totalDegree ≤ (factors.map f.factorDegree).sum := by
  induction hparts with
  | nil => exact totalDegree_one.le
  | @cons factor axes factors parts haxes _ ih =>
    rw [forall_mem_cons] at hdegrees
    refine (totalDegree_mul _ _).trans (Nat.add_le_add ?_ (ih hdegrees.2))
    unfold factorPolynomial factorDegree
    cases he : f.arguments[factor.argument]? with
    | none => exact totalDegree_zero.le
    | some e =>
      rw [← haxes]
      exact totalDegree_derivative_basisPolynomial e _ _ _ axes (hdegrees.1 e he)

end

/-- The Gauss rule that a monomial is integrated with, over the cell or a facet, is exact for
    polynomials of degree less than twice the number of its points. -/
def GaussExact (f : Form K) (gauss : Gauss.Source K) (facet : Option Nat) (m : Monomial K) :
    Prop :=
  ∀ degree n line, f.quadratureDegree m = .ok degree →
    Rule.pointsPerAxis degree (f.cell.regionDimension facet) = .ok n →
      Gauss.rule gauss n = .ok line → Gauss.ExactTo (2 * n - 1) line

theorem sum_factorDegree_le {α : Type} {f : Form α} {m : Monomial α} {degree : Nat}
    (hdegree : f.quadratureDegree m = .ok degree) (hestimated : m.quadratureDegree = none)
    (harrange : f.arrange m = .ok factors) :
    (factors.map f.factorDegree).sum ≤ degree := by
  unfold quadratureDegree at hdegree
  rw [hestimated] at hdegree
  rw [Size.sum_eq_ok hdegree]
  exact sum_arrange_le f.factorDegree harrange

end Form

namespace TensorTerms

theorem pieces_flatten (parts : List (List Nat)) :
    pieces (parts.map List.length) parts.flatten = parts := by
  induction parts with
  | nil => rfl
  | cons part parts ih =>
    rw [map_cons, flatten_cons, pieces, take_left, drop_left, ih]

variable {f : Form K} {p : Nat} {point : List K} {i : List Nat}

theorem factorValue_eq_valueAt {d : Dimensions} {kind : Integral} {factor : Factor} {e : Element}
    (hfits : f.Fits d kind factor e) (hnodal : e.IsNodal) {points : List (List K)} {t : Table K}
    (htable : Tabulator.lagrange e points factor.order = .ok t) {k : Nat}
    (hp : points[p]? = some point) (hi : i[factor.argument]? = some k) (hk : k < t.dofs)
    {axes : List (Fin f.cell.dimension)} (haxes : axes.length = factor.order) :
    factorValue f.cell.dimension p i (factor, t) (axes.map Fin.val) =
      Rule.valueAt (f.factorPolynomial i factor axes) point := by
  -- The component was checked against the physical shape, which is the one of the table.
  have hcomponent : factor.component < t.components := by
    rcases Tabulator.lagrange_values htable with ⟨_, _, size, _, _, hsize, _, _, hvalues, _⟩
    rcases hfits.component with ⟨size', hsize', hlt⟩
    rw [Element.referenceSize, (Element.dofs_of_isNodal hnodal).1, ← Element.physicalSize, hsize',
      Except.ok.injEq] at hsize
    rw [(Table.dims_ofFn hvalues).2.2.2, ← hsize]
    exact hlt
  have hentry := Tabulator.lagrange_entry hnodal (congrArg Shape.dimension hfits.cell) htable hp hk
    haxes hcomponent
  unfold factorValue Form.factorPolynomial
  simp only [hi, Option.getD_some, length_map, haxes, hfits.argument]
  exact hentry

theorem prod_factorValue {tables : List (Factor × Table K)}
    {parts : List (List (Fin f.cell.dimension))}
    (h : Forall₂ (fun x axes => factorValue f.cell.dimension p i x (axes.map Fin.val) =
      Rule.valueAt (f.factorPolynomial i x.1 axes) point) tables parts) :
    (zipWith (factorValue f.cell.dimension p i) tables (parts.map (List.map Fin.val))).prod =
        Rule.valueAt (f.integrand i (tables.map Prod.fst) parts) point := by
  induction h with
  | nil => exact (map_one _).symm
  | cons hx _ ih =>
    rw [map_cons, zipWith_cons_cons, prod_cons, hx, ih]
    exact (map_mul _ _ _).symm

/-- The tuple that the axes of some factors make up is one that their derivatives range over. -/
theorem flatten_mem_axes {n : Nat} {parts : List (List (Fin n))}
    (hparts : Forall₂ (fun factor axes => axes.length = factor.order) factors parts) :
    parts.flatten.map Fin.val ∈ Tuple.axes n (factors.map Factor.order).sum := by
  refine Tuple.mem_axes_iff.2 ⟨?_, fun axis haxis => ?_⟩
  · rw [length_map, length_flatten]
    exact congrArg List.sum (map_eq_of_forall₂ hparts.flip fun _ _ h => h)
  · rcases mem_map.1 haxis with ⟨i, _, rfl⟩
    exact i.isLt

theorem entry_eq_regionIntegral [CharZero K] {gauss : Gauss.Source K} {primary : MultiIndex}
    {m : Monomial K} {c c' : Allocator} {t : TensorTerm K} (hnodal : ∀ e ∈ f.arguments, e.IsNodal)
    (hexact : f.GaussExact gauss facet m) (hestimated : m.quadratureDegree = none)
    (h : (term gauss Tabulator.lagrange f facet primary m).run c = (.ok t, c')) :
    ∃ factors, f.arrange m = .ok factors ∧ t.reference.i = primary ∧
      t.reference.a.dims = replicate (factors.map Factor.order).sum f.cell.dimension ∧
      ∀ i ∈ primary.tuples, ∀ parts : List (List (Fin f.cell.dimension)),
        Forall₂ (fun factor axes => axes.length = factor.order) factors parts →
          t.reference.entry i (parts.flatten.map Fin.val) =
            f.cell.regionIntegral facet (f.integrand i factors parts) := by
  rcases term_eq_ok h with ⟨factors, degree, rule, tables, reference, harrange, hdegree, hrule,
    htables, hreference, rfl⟩
  rcases ReferenceTensor.entry_ofFn hreference with ⟨hprimary, ha, hentry⟩
  rcases bind_eq_ok.1 harrange with ⟨d, hd, _⟩
  rw [lift_problem_eq_ok] at hd
  have hdims : (drawn c f.cell.dimension factors).dims =
      replicate (factors.map Factor.order).sum f.cell.dimension := by
    rw [dims_drawn, ← total_order, Size.total_eq_sum]
  refine ⟨factors, harrange, hprimary, ha ▸ hdims, fun i hi parts hparts => ?_⟩
  have hmem : parts.flatten.map Fin.val ∈ (drawn c f.cell.dimension factors).tuples := by
    rw [MultiIndex.tuples, hdims]
    exact flatten_mem_axes hparts
  rcases integral_eq_ok (hentry i hi _ hmem) with ⟨hvalue, hreads⟩
  -- The tuple is cut into the axes of the factors again.
  have hfst : tables.map Prod.fst = factors :=
    (map_eq_of_forall₂ htables.flip fun _ _ hx => hx.1).trans (List.map_id factors)
  have hlengths : tables.map (fun x => x.1.order) =
      (parts.map (List.map Fin.val)).map List.length := by
    have horders : Forall₂ (fun x axes => x.1.order = axes.length) tables parts :=
      forall₂_join htables hparts fun factor _ x _ axes hx haxes => by rw [hx.1, haxes]
    rw [List.map_map]
    refine map_eq_of_forall₂ horders fun x axes hx => ?_
    rw [hx, Function.comp_apply, length_map]
  rw [hvalue, hlengths, map_flatten, pieces_flatten]
  have hfits : ∀ factor ∈ factors, ∃ e, f.Fits d m.integral factor e :=
    (Form.arrange_eq_ok hd harrange).2
  -- The integrand is of a degree that the rule is exact for.
  have hdegrees : ∀ factor ∈ factors, ∀ e, f.arguments[factor.argument]? = some e →
      e.degree ≤ 1 := by
    refine forall₂_left htables fun factor x hx e he => ?_
    rcases hx.2 with ⟨e', he', htable⟩
    rw [he] at he'
    cases he'
    exact Tabulator.degree_le_of_isLagrange (Tabulator.lagrange_values htable).1
  have hbound := (Form.totalDegree_integrand i hdegrees hparts).trans
    (Form.sum_factorDegree_le hdegree hestimated harrange)
  rcases Rule.reference_integrates (fun n line => hexact degree n line hdegree) hrule with
    ⟨hlength, hintegral⟩
  rw [← hintegral _ hbound]
  -- Point by point and factor by factor, the tables hold the values of the integrand.
  refine Rule.sum_zipIdx_eq_integrate (F := fun p => (zipWith
    (factorValue f.cell.dimension p i) tables (parts.map (List.map Fin.val))).prod) hlength
    fun w hw point hpoint => ?_
  rw [← hfst]
  refine prod_factorValue (forall₂_join htables hparts ?_)
  rintro _ hfactor ⟨factor, table⟩ hx axes ⟨rfl, e, he, htable⟩ haxes
  rcases hfits factor hfactor with ⟨e', hfits⟩
  rw [hfits.argument, Option.some.injEq] at he
  subst he
  rcases hreads w hw _ hx with ⟨k, hk, _, hlt⟩
  exact factorValue_eq_valueAt hfits (hnodal e' (mem_of_getElem? hfits.argument)) htable hpoint
    hk hlt haxes

end TensorTerms

/-- The estimated degree makes reference tensors exact. If the arguments of a form are nodal and
    the Gauss rules are exact, then the entries of the reference tensor of a monomial that does not
    ask for a degree of its own are integrals: for a tuple of basis functions, and for axes of the
    derivatives of each factor, the entry is the integral over the reference cell or the facet of
    the product of the reference derivatives of these basis functions along these axes. -/
theorem tensorTerms_exact [CharZero K] {gauss : Gauss.Source K} {f : Form K}
    {ms : List (Monomial K)} {facet : Option Nat} {primary : MultiIndex} {c c' : Allocator}
    {terms : List (TensorTerm K)} (hnodal : ∀ e ∈ f.arguments, e.IsNodal)
    (hexact : ∀ m ∈ ms, f.GaussExact gauss facet m)
    (h : (tensorTerms gauss Tabulator.lagrange f ms facet primary).run c = (.ok terms, c')) :
    List.Forall₂ (fun m t => m.quadratureDegree = none →
      ∃ factors, f.arrange m = .ok factors ∧ t.reference.i = primary ∧
        t.reference.a.dims = List.replicate (factors.map Factor.order).sum f.cell.dimension ∧
        ∀ i ∈ primary.tuples, ∀ parts : List (List (Fin f.cell.dimension)),
          List.Forall₂ (fun factor axes => axes.length = factor.order) factors parts →
            t.reference.entry i (parts.flatten.map Fin.val) =
              f.cell.regionIntegral facet (f.integrand i factors parts)) ms terms := by
  have hterms := (List.forall₂_and_left _ _).2 ⟨hexact, Drawing.run_mapM_eq_ok h⟩
  refine hterms.imp fun m t hterm hestimated => ?_
  rcases hterm with ⟨hm, c₁, c₂, ht⟩
  exact TensorTerms.entry_eq_regionIntegral hnodal hm hestimated ht

/-- A scalar function and a piecewise constant coefficient against a derivative of a vector field,
    on the boundary. -/
def boundaryTransport : Form ℚ :=
  ⟨"transport", .triangle, 2,
    [⟨.lagrange, .triangle, 1, [], [], .affine, Element.affineDofs 3 0⟩,
      ⟨.vectorLagrange, .triangle, 1, [2], [2], .affine,
        Element.affineDofs 3 0 ++ Element.affineDofs 3 1⟩,
      ⟨.discontinuousLagrange, .triangle, 0, [], [], .affine, Element.affineDofs 1 0⟩],
    [⟨.exteriorFacet, 0, 3, none, [⟨1, 1, [0], none⟩, ⟨2, 0, [], none⟩, ⟨0, 0, [], none⟩]⟩]⟩

/-- The contracted terms of the transport on the third facet, with the midpoint rule. -/
def transportTerms : Except Failure (List (TensorTerm ℚ)) × Allocator :=
  (tensorTerms (fun _ => [(1 / 2, 1)]) Tabulator.lagrange boundaryTransport
    boundaryTransport.monomials (some 2)
    (MultiIndex.primary {} boundaryTransport.argumentDims).1).run {}

/-- Arguments of all three families on a facet, where one point is enough. -/
theorem tensorTerms_exact_transport : ∃ t c', transportTerms = (.ok [t], c') ∧
    t.reference.a.dims = [2] ∧ ∀ i ∈ Tuple.all [3, 6, 1], ∀ axis : Fin 2,
      t.reference.entry i [axis] = Shape.triangle.regionIntegral (some 2)
        (boundaryTransport.integrand i [⟨0, 0, [], none⟩, ⟨1, 1, [0], none⟩, ⟨2, 0, [], none⟩]
          [[], [axis], []]) := by
  have hnodal : ∀ e ∈ boundaryTransport.arguments, e.IsNodal := by
    refine List.forall_mem_cons.2 ⟨⟨.triangle, 1, Or.inl (by decide +kernel)⟩, ?_⟩
    refine List.forall_mem_cons.2
      ⟨⟨.triangle, 1, Or.inr (Or.inr ⟨2, by decide +kernel⟩)⟩, ?_⟩
    exact List.forall_mem_singleton.2 ⟨.triangle, 0, Or.inr (Or.inl (by decide +kernel))⟩
  have hexact : ∀ m ∈ boundaryTransport.monomials,
      boundaryTransport.GaussExact (fun _ => [(1 / 2, 1)]) (some 2) m := by
    refine List.forall_mem_singleton.2 fun degree n line hdegree hn hline => ?_
    -- The degree is one, and on an edge one point is enough for it.
    have hone : degree = 1 := (Except.ok.inj hdegree).symm
    subst hone
    have hpoint : n = 1 := (Except.ok.inj hn).symm
    subst hpoint
    have hmidpoint : Gauss.rule (fun _ => [(1 / 2, 1)]) 1 = .ok [((1 : ℚ) / 2, (1 : ℚ))] := by
      decide +kernel
    rw [hmidpoint, Except.ok.injEq] at hline
    subst hline
    intro k hk
    interval_cases k <;> norm_num
  cases hterms : transportTerms with
  | mk result c' =>
    have hok : transportTerms.1.isOk = true := by decide +kernel
    rw [hterms] at hok
    rcases exists_of_isOk hok with ⟨terms, rfl⟩
    rcases List.forall₂_cons_left_iff.1 (tensorTerms_exact hnodal hexact hterms) with
      ⟨t, rest, ht, hrest, rfl⟩
    rw [List.forall₂_nil_left_iff] at hrest
    subst hrest
    rcases ht rfl with ⟨factors, harrange, _, hdims, hentry⟩
    have hfactors : factors = [⟨0, 0, [], none⟩, ⟨1, 1, [0], none⟩, ⟨2, 0, [], none⟩] :=
      (Except.ok.inj harrange).symm
    subst hfactors
    refine ⟨t, c', rfl, hdims, fun i hi axis => hentry i hi [[], [axis], []] ?_⟩
    exact .cons rfl (.cons rfl (.cons rfl .nil))

end WeakForm
