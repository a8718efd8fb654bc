import WeakForm.Proofs.CollapsedRules
import WeakForm.Proofs.Exponents
import WeakForm.Proofs.Guarantees

/-!
# Tables without faults

From the elements and the monomials of a form to the tables of its factors, nothing
goes wrong that is not a problem of the input. There are three kinds of reasons.

The elements are not arbitrary records but come from the constructors. So their sizes
fit, and those that the Lagrange tabulator knows have basis functions with a single
component, which is within the size of the element. The other elements never get
beyond the tabulator.

The sizes that depend on the form are assumed to fit: the degree of a rule, its number
of points, the number of derivatives of an order, and the size of a table. Everything
else is computed from them.

Exponents of geometry symbols grow with every product. They are counted apart for the
scale factor, which occurs once, and for all other symbols, which occur once for each
derivative. So derivatives up to the full range of the word are possible.

## Theorems

* `Form.arrange_sound`: Arranging the factors of a monomial has no faults.
* `Rule.reference_sound`: There is a rule for every degree that is not too large.
* `expandFactor_sound`: The tables of a factor.
-/

namespace WeakForm

open List Success Ensures Size GeometryMonomial

variable {α : Type}

namespace Element

/-- The elements that come from a constructor, applied to sizes. -/
inductive Constructed : Element → Prop
  | lagrange {cell : Shape} {degree : Nat} {e : Element} (h : Element.lagrange cell degree = .ok e) :
      Constructed e
  | discontinuous {cell : Shape} {degree : Nat} {e : Element}
      (h : Element.discontinuous cell degree = .ok e) : Constructed e
  | vector {cell : Shape} {degree components : Nat} {e : Element}
      (hcomponents : components < Size.limit)
      (h : Element.vector cell degree components = .ok e) : Constructed e
  | raviartThomas (cell : Shape) {gdim : Nat} (hgdim : gdim < Size.limit) :
      Constructed (Element.raviartThomas cell gdim)
  | nedelec (cell : Shape) {gdim : Nat} (hgdim : gdim < Size.limit) :
      Constructed (Element.nedelec cell gdim)

/-- Elements whose basis functions have one component, which is not transformed. -/
structure Componentwise (e : Element) : Prop where
  shape : e.referenceShape = e.valueShape
  dofs : ∀ data ∈ e.dofs, ∃ c < max e.valueShape.prod 1, data = ⟨.affine, c, c, 1⟩

variable {cell : Shape} {degree : Nat} {e : Element} {family : Family} {components : Nat}

theorem scalar_eq_ok (h : scalar family cell degree = .ok e) :
    ∃ n, e = ⟨family, cell, degree, [], [], .affine, affineDofs n 0⟩ := by
  rcases bind_eq_ok.1 h with ⟨n, _, h⟩
  exact ⟨n, (pure_eq_ok.1 h).symm⟩

theorem vector_eq_ok (h : vector cell degree components = .ok e) :
    ∃ n, e = ⟨.vectorLagrange, cell, degree, [components], [components], .affine,
      (range components).flatMap (affineDofs n)⟩ := by
  rcases bind_eq_ok.1 h with ⟨n, _, h⟩
  exact ⟨n, (pure_eq_ok.1 h).symm⟩

theorem componentwise_scalar (h : scalar family cell degree = .ok e) : e.Componentwise := by
  rcases scalar_eq_ok h with ⟨n, rfl⟩
  exact ⟨rfl, fun data hdata => ⟨0, by simp, eq_of_mem_replicate hdata⟩⟩

theorem componentwise_vector (h : vector cell degree components = .ok e) : e.Componentwise := by
  rcases vector_eq_ok h with ⟨n, rfl⟩
  refine ⟨rfl, fun data hdata => ?_⟩
  rcases mem_flatMap.1 hdata with ⟨c, hc, hdata⟩
  refine ⟨c, ?_, eq_of_mem_replicate hdata⟩
  have hlt := mem_range.1 hc
  simp only [prod_cons, prod_nil, Nat.mul_one]
  omega

namespace Constructed

variable {e : Element} (h : e.Constructed)

include h

theorem extent_lt : extent e.valueShape < limit := by
  have hone : 1 < limit := by decide
  have hsingle : ∀ n, n < limit → extent [n] < limit := by
    intro n hn
    rw [extent_cons, extent_nil, Nat.mul_one]
    exact Nat.max_lt.2 ⟨hone, hn⟩
  cases h with
  | lagrange h | discontinuous h =>
    rcases scalar_eq_ok h with ⟨n, rfl⟩
    exact hone
  | vector hcomponents h =>
    rcases vector_eq_ok h with ⟨n, rfl⟩
    exact hsingle _ hcomponents
  | raviartThomas cell hgdim | nedelec cell hgdim => exact hsingle _ hgdim

theorem physicalSize : e.physicalSize = .ok e.valueShape.prod :=
  product_of_extent h.extent_lt

theorem size_lt : max e.valueShape.prod 1 < limit :=
  Nat.max_lt.2 ⟨Nat.lt_of_le_of_lt (prod_le_extent _) h.extent_lt, by decide⟩

theorem componentwise (hknown : Tabulator.isLagrange e = true) : e.Componentwise := by
  cases h with
  | lagrange h | discontinuous h => exact componentwise_scalar h
  | vector _ h => exact componentwise_vector h
  | raviartThomas cell _ | nedelec cell _ => cases hknown

end Constructed
end Element

/-- The number of derivatives of all factors. -/
def Monomial.order (m : Monomial α) : Nat := (m.factors.map Factor.order).sum

namespace Form

variable {f : Form α} {m : Monomial α} {factors : List Factor}

theorem checkFactor_sound (harguments : ∀ e ∈ f.arguments, e.Constructed) (d : Dimensions)
    (before : List Factor) (factor : Factor) :
    Outcome.Sound True (fun _ => True) (f.checkFactor d m before factor) := by
  unfold checkFactor
  simp only
  split
  · trivial
  · next e he =>
    have hsize := (harguments e (mem_of_getElem? he)).physicalSize
    split
    · trivial
    · split
      · trivial
      -- The size of the element is the only number that has to be computed.
      · refine bind_lift hsize ?_
        split
        · trivial
        · split
          · trivial
          · split <;> trivial

theorem checkFactors_sound (harguments : ∀ e ∈ f.arguments, e.Constructed) (d : Dimensions)
    (before factors : List Factor) :
    Outcome.Sound True (fun _ => True) (f.checkFactors d m before factors) := by
  induction factors generalizing before with
  | nil => trivial
  | cons factor rest ih =>
    rw [checkFactors]
    exact bind (checkFactor_sound harguments d before factor) fun _ _ => ih _

theorem arrange_sound (harguments : ∀ e ∈ f.arguments, e.Constructed) (m : Monomial α) :
    Outcome.Sound (∃ p, f.arrange m = .error (.problem p)) (fun factors => f.arrange m = .ok factors)
      (f.arrange m) := by
  have hsound : Outcome.Sound True (fun _ => True) (f.arrange m) := by
    unfold arrange
    refine bind (P := fun _ => True) ?_ fun d _ => ?_
    · cases f.dims <;> trivial
    refine bind (checkFactors_sound harguments d [] m.factors) fun _ _ => ?_
    refine (Ensures.mapM (R := fun _ _ => True) fun argument _ => ?_).mono fun _ _ => trivial
    split <;> trivial
  cases h : f.arrange m with
  | ok factors => exact rfl
  | error e =>
    cases e with
    | problem p => exact ⟨p, rfl⟩
    | fault fault =>
      rw [h] at hsound
      exact hsound.elim

theorem arrange_subperm (h : f.arrange m = .ok factors) : factors.Subperm m.factors := by
  have hnodup : factors.Nodup :=
    Nodup.of_map Factor.argument (arrange_arguments h ▸ nodup_range)
  exact subperm_of_subset hnodup (mem_of_mem_arrange h)

/-- What the arranged factors count for together is at most what all factors count for. -/
theorem sum_arrange_le (count : Factor → Nat) (h : f.arrange m = .ok factors) :
    (factors.map count).sum ≤ (m.factors.map count).sum := by
  rcases arrange_subperm h with ⟨kept, hperm, hsub⟩
  rw [← (hperm.map count).sum_eq]
  exact (hsub.map count).sum_le_sum fun _ _ => Nat.zero_le _

theorem sum_order_le (h : f.arrange m = .ok factors) :
    (factors.map Factor.order).sum ≤ m.order := sum_arrange_le Factor.order h

/-- The degree that a monomial is integrated with, as a number of any size. -/
def degree (f : Form α) (m : Monomial α) : Nat :=
  m.quadratureDegree.getD (m.factors.map f.factorDegree).sum

theorem gdim_eq {d : Dimensions} (h : f.dims = .ok d) : f.geometricDimension = d.gdim := by
  unfold dims Dimensions.of at h
  split at h
  · rw [← Except.ok.inj h]
  · cases h

theorem quadratureDegree_of_lt (h : f.degree m < limit) :
    f.quadratureDegree m = .ok (f.degree m) := by
  unfold quadratureDegree degree at *
  cases hdegree : m.quadratureDegree with
  | some degree => rfl
  | none =>
    rw [hdegree, Option.getD_none] at h
    exact sum_of_lt h

end Form

namespace Shape

variable [Scalar α]

theorem regionDimension_le (s : Shape) (facet : Option Nat) : s.regionDimension facet ≤ 3 := by
  unfold regionDimension
  cases s <;> split <;> decide

theorem facetVertices_of_lt {s : Shape} {facet : Nat} (h : facet < s.facetCount) :
    ∃ vertices, s.facetVertices facet = .ok vertices ∧ vertices.length = s.dimension := by
  have htriangle : ∀ facet < 3, ((range 3).filter (· ≠ facet)).length = 2 := by decide
  have htetrahedron : ∀ facet < 4, ((range 4).filter (· ≠ facet)).length = 3 := by decide
  unfold facetVertices
  rw [if_pos h]
  cases s with
  | interval => exact ⟨[facet], rfl, rfl⟩
  | triangle => exact ⟨_, rfl, htriangle facet h⟩
  | tetrahedron => exact ⟨_, rfl, htetrahedron facet h⟩

theorem sure_facetPoint {s : Shape} {vertices : List Nat} (hvertices : vertices.length = s.dimension)
    {point : List α} (hpoint : point.length = s.dimension - 1) :
    Checked.Sure (fun image => image.length = s.dimension) (s.facetPoint vertices point) := by
  have hpos := s.dimension_pos
  unfold facetPoint
  refine bind (sure_entryAt (hvertices ▸ hpos)) fun origin _ => ?_
  refine Ensures.foldlM (by rw [length_map, length_range]) fun x hx image himage => ?_
  have hk := mem_range.1 (of_mem_zip hx).1
  refine bind (sure_entryAt (by omega)) fun vertex _ => ?_
  refine pure ?_
  rw [length_zipWith, himage, length_map, length_range, Nat.min_self]

end Shape

namespace Rule

/-- The number of points along an axis, as a number of any size. -/
def axisPoints (degree dimension : Nat) : Nat := max ((degree + dimension + 1) / 2) 1

variable [Scalar α] {source : Gauss.Source α} {dimension degree : Nat}

/-- There is a rule with `n` points along each axis. In dimension zero there is one point, and no
    axis. -/
theorem collapsed_sound {n : Nat} (hdimension : dimension ≤ 3) (hpos : 0 < n)
    (hn : dimension ≠ 0 → n < Gauss.capacity) :
    Outcome.Sound False (Shaped ((source n).length ^ dimension) dimension)
      (collapsed source dimension n) := by
  have hline : dimension ≠ 0 → Outcome.Sound False (fun line => line.length = (source n).length)
      (liftM (Gauss.rule source n) : Outcome _) := by
    intro hne
    refine lift ?_
    unfold Gauss.rule
    refine bind (Checked.sure_require (decide_eq_true hpos)) fun _ _ => ?_
    exact bind (Checked.sure_bound (hn hne)) fun _ _ => pure (Gauss.length_symmetrize _)
  rcases (by omega : dimension = 0 ∨ dimension = 1 ∨ dimension = 2 ∨ dimension = 3) with
    rfl | rfl | rfl | rfl
  · refine pure ⟨rfl, rfl, fun point hpoint => ?_⟩
    rw [mem_singleton.1 hpoint]
    rfl
  · exact bind (hline (by decide)) fun line hlength => hlength ▸ shaped_interval line
  · exact bind (hline (by decide)) fun line hlength => hlength ▸ shaped_triangle line
  · exact bind (hline (by decide)) fun line hlength => hlength ▸ shaped_tetrahedron line

theorem pointsPerAxis_of_lt (hdimension : dimension ≤ 3) (hdegree : degree + 4 < limit) :
    pointsPerAxis degree dimension = .ok (axisPoints degree dimension) := by
  refine bind_eq_ok.2 ⟨degree + dimension, add_of_lt (by omega), ?_⟩
  exact bind_eq_ok.2 ⟨degree + dimension + 1, add_of_lt (by omega), rfl⟩

theorem simplex_sound (hdimension : dimension ≤ 3) (hdegree : degree + 4 < limit)
    (hn : dimension ≠ 0 → axisPoints degree dimension < Gauss.capacity) : Outcome.Sound False
      (Shaped ((source (axisPoints degree dimension)).length ^ dimension) dimension)
      (simplex source dimension degree) := by
  unfold simplex
  exact bind_lift (pointsPerAxis_of_lt hdimension hdegree)
    (collapsed_sound hdimension (Nat.le_max_right _ 1) hn)

theorem reserve_of_lt {shape : Shape} {facet : Option Nat} (hdegree : degree + 4 < limit)
    (h : axisPoints degree (shape.regionDimension facet) ^ shape.regionDimension facet <
      Tuple.capacity) : reserve shape facet degree = .ok () :=
  bind_eq_ok.2 ⟨_, pointsPerAxis_of_lt (shape.regionDimension_le facet) hdegree,
    Tuple.reserve_of_lt (Nat.le_max_right _ 1) h⟩

theorem reference_sound {shape : Shape} {facet : Option Nat}
    (hsource : ∀ n, (source n).length = n) (hfacet : ∀ k ∈ facet, k < shape.facetCount)
    (hdegree : degree + 4 < limit)
    (hn : shape.regionDimension facet ≠ 0 →
      axisPoints degree (shape.regionDimension facet) < Gauss.capacity) :
    Outcome.Sound False (Shaped (axisPoints degree (shape.regionDimension facet) ^
        shape.regionDimension facet) shape.dimension) (reference source shape facet degree) := by
  have hsimplex : Outcome.Sound False _ (simplex source (shape.regionDimension facet) degree) :=
    simplex_sound (shape.regionDimension_le facet) hdegree hn
  rw [hsource] at hsimplex
  cases facet with
  | none => exact hsimplex
  | some k =>
    rcases Shape.facetVertices_of_lt (hfacet k rfl) with ⟨vertices, hvertices, hlength⟩
    unfold reference
    refine bind hsimplex fun r hr => ?_
    refine bind (P := Forall₂ (fun _ image => image.length = shape.dimension)
      r.points) (lift ?_) fun points hpoints => ?_
    · unfold Shape.facetPoints
      refine bind_ok hvertices ?_
      exact Ensures.mapM fun point hpoint => Shape.sure_facetPoint hlength (hr.coordinates point hpoint)
    · refine pure ⟨hr.weights, hpoints.length_eq.symm.trans hr.points, ?_⟩
      exact forall₂_left hpoints.flip fun _ _ h => h

end Rule

namespace Table

variable {points dofs derivatives components : Nat}

/-- The sizes of a table. -/
structure Shaped (points dofs derivatives components : Nat) (t : Table α) : Prop where
  points : t.points = points
  dofs : t.dofs = dofs
  derivatives : t.derivatives = derivatives
  components : t.components = components

theorem product_of_lt (hderivatives : 0 < derivatives) (hcomponents : 0 < components)
    (hpoints : points < limit) (hsize : points * dofs * derivatives * components < capacity) :
    Size.product [points, dofs, derivatives, components] =
      .ok (points * dofs * derivatives * components) := by
  have hcapacity : capacity < limit := by decide
  have h₃ := Nat.lt_of_le_of_lt (Nat.le_mul_of_pos_right (points * dofs * derivatives) hcomponents)
    hsize
  have h₂ := Nat.lt_of_le_of_lt (Nat.le_mul_of_pos_right (points * dofs) hderivatives) h₃
  refine foldlM_cons_eq_ok.2 ⟨points, (mul_of_lt (by omega)).trans (by rw [Nat.one_mul]), ?_⟩
  refine foldlM_cons_eq_ok.2 ⟨_, mul_of_lt (by omega), ?_⟩
  refine foldlM_cons_eq_ok.2 ⟨_, mul_of_lt (by omega), ?_⟩
  exact foldlM_cons_eq_ok.2 ⟨_, mul_of_lt (by omega), rfl⟩

theorem sure_ofFn (hderivatives : 0 < derivatives) (hcomponents : 0 < components)
    (hpoints : points < limit) (hsize : points * dofs * derivatives * components < capacity)
    (f : Nat → Nat → Nat → Nat → α) : Checked.Sure (Shaped points dofs derivatives components)
      (ofFn points dofs derivatives components f) := by
  unfold ofFn
  refine bind_ok (product_of_lt hderivatives hcomponents hpoints hsize) ?_
  exact bind (Checked.sure_bound hsize) fun _ _ => pure ⟨rfl, rfl, rfl, rfl⟩

end Table

/-- The table of an element that the tabulator knows. The other elements are a problem. -/
theorem Tabulator.lagrange_sound [Scalar α] {e : Element} (he : e.Constructed)
    {points : List (List α)} (hpoints : ∀ point ∈ points, point.length = e.cell.dimension)
    {order : Nat} (horder : order < 2 ^ 31) (haxes : e.cell.dimension ^ order < Tuple.capacity)
    (hcount : points.length < limit)
    (hsize : points.length * e.spaceDimension * e.cell.dimension ^ order *
      max e.referenceShape.prod 1 < Table.capacity) : Outcome.Sound (isLagrange e = false)
      (fun t => isLagrange e = true ∧ t.Shaped points.length e.spaceDimension
        (e.cell.dimension ^ order) (max e.valueShape.prod 1)) (lagrange e points order) := by
  have hpos := e.cell.dimension_pos
  unfold lagrange
  simp only
  split
  · next hknown =>
    have hcomponentwise := he.componentwise hknown
    rw [hcomponentwise.shape] at hsize
    have hsizes : e.referenceSize = .ok e.valueShape.prod := by
      rw [Element.referenceSize, hcomponentwise.shape]
      exact he.physicalSize
    have hderivatives := Tuple.axesCount_of_lt hpos (Nat.lt_trans horder (by decide))
      (Nat.lt_trans haxes (by decide))
    split
    · next point hpoint =>
      have hwrong := find?_some hpoint
      exact absurd (hpoints point (mem_of_find?_eq_some hpoint)) (of_decide_eq_true hwrong)
    · refine bind_lift hsizes (bind_lift (Tuple.reserve_of_lt hpos haxes)
        (bind_lift hderivatives ?_))
      split
      · refine (lift (Table.sure_ofFn (Nat.pow_pos hpos) (Nat.le_max_right _ 1) hcount hsize
          _)).mono fun t ht => ?_
        exact ⟨hknown, ht⟩
      -- Every basis function has its component within the size of the element.
      · next hoffsets =>
        refine absurd ?_ hoffsets
        rw [Bool.or_eq_true, all_eq_true]
        refine Or.inr fun data hdata => ?_
        rcases hcomponentwise.dofs data hdata with ⟨c, hc, rfl⟩
        exact decide_eq_true hc
  · next hknown => exact (Bool.not_eq_true _).mp hknown

/-- Exponents of a canonical product that are at most `scales` for the scale factor and at most
    `orders` for all other symbols. -/
structure Powers.AtMost (scales orders : Nat) (p : Powers) : Prop where
  canonical : p.Canonical
  scale : (p.exponent .scale).natAbs ≤ scales
  other : ∀ s ≠ .scale, (p.exponent s).natAbs ≤ orders

namespace GeometryMonomial

theorem reserve_of_lt {dim order : Nat} (hdim : 0 < dim) (h : dim ^ order < capacity) :
    reserve dim order = .ok () :=
  bind_eq_ok.2 ⟨_, Size.pow_of_lt hdim (Nat.lt_trans h (by decide)), if_pos h⟩

theorem atMost_constant (x : α) : (constant x).powers.AtMost 0 0 :=
  ⟨Powers.canonical_nil, Nat.le_refl 0, fun _ _ => Nat.le_refl 0⟩

variable [Scalar α]

theorem atMost_scale : (ofSymbol .scale : GeometryMonomial α).powers.AtMost 1 0 where
  canonical := canonical_power .scale 1
  scale := by rw [ofSymbol, exponent_power, if_pos rfl]; decide
  other := fun s hs => by rw [ofSymbol, exponent_power, if_neg hs]; exact Nat.le_refl 0

theorem atMost_inverse (side : Option Side) (row col : Nat) :
    (ofSymbol (.inverse side row col) : GeometryMonomial α).powers.AtMost 0 1 where
  canonical := canonical_power _ 1
  scale := by rw [ofSymbol, exponent_power, if_neg (by simp)]; exact Nat.le_refl 0
  other := fun s _ => by
    rw [ofSymbol, exponent_power]
    split <;> decide

theorem sure_mul {a b : GeometryMonomial α} {i j k l : Nat} (ha : a.powers.AtMost i j)
    (hb : b.powers.AtMost k l) (hscales : i + k < 2 ^ 31) (horders : j + l < 2 ^ 31) :
    Checked.Sure (fun c => c.powers.AtMost (i + k) (j + l)) (a.mul b) := by
  have hfits : ∀ s, Powers.fits (a.powers.exponent s + b.powers.exponent s) = true := by
    intro s
    unfold Powers.fits
    rw [Bool.and_eq_true, decide_eq_true_iff, decide_eq_true_iff]
    by_cases hs : s = .scale
    · subst hs
      have h₁ := ha.scale
      have h₂ := hb.scale
      omega
    · have h₁ := ha.other s hs
      have h₂ := hb.other s hs
      omega
  rcases mul_canonical ha.canonical hb.canonical hfits with ⟨c, hc, hcanonical, _, hexponent⟩
  refine .of_ok hc ⟨hcanonical, ?_, fun s hs => ?_⟩
  · rw [hexponent]
    exact Nat.le_trans (Int.natAbs_add_le _ _) (Nat.add_le_add ha.scale hb.scale)
  · rw [hexponent]
    exact Nat.le_trans (Int.natAbs_add_le _ _) (Nat.add_le_add (ha.other s hs) (hb.other s hs))

end GeometryMonomial

namespace Expand

variable [Scalar α] {d : Dimensions} {side : Option Side} {g : List Nat}

/-- The factor of a reference derivative has one symbol for each axis. -/
theorem sure_derivativeEntry {t : List Nat} {order : Nat} (ht : t.length = order)
    (horder : order < 2 ^ 31) :
    Checked.Sure (fun (m : GeometryMonomial α) => m.powers.AtMost 0 order)
      (derivativeEntry (MapEntries.symbolic d side) g t) := by
  -- Along the loop the bound grows by one with every axis.
  have hfold : ∀ (xs : List (Nat × Nat)) (n : Nat) (m : GeometryMonomial α), m.powers.AtMost 0 n →
      n + xs.length ≤ order → Checked.Sure (fun (m : GeometryMonomial α) => m.powers.AtMost 0 order)
        (xs.foldlM (fun entry (x : Nat × Nat) => do
          (MapEntries.symbolic d side).mul entry (← (MapEntries.symbolic d side).inverse x.1 x.2)) m) := by
    intro xs
    induction xs with
    | nil =>
      intro n m hm hn
      exact ⟨hm.canonical, hm.scale, fun s hs => Nat.le_trans (hm.other s hs) hn⟩
    | cons x xs ih =>
      intro n m hm hn
      rw [length_cons] at hn
      rw [foldlM_cons]
      refine bind (sure_mul hm
        (atMost_inverse side x.1 x.2) (by decide) (by omega)) fun c hc => ?_
      exact ih (n + 1) c hc (by omega)
  refine hfold (t.zip g) 0 _ (atMost_constant 1) ?_
  rw [Nat.zero_add, length_zip, ht]
  exact Nat.min_le_left order g.length

theorem sure_derivativeRow {order : Nat} (horder : order < 2 ^ 31) :
    Checked.Sure (fun (chains : List (GeometryMonomial α)) => chains.length = d.tdim ^ order ∧
        ∀ m ∈ chains, m.powers.AtMost 0 order)
      (derivativeRow order (MapEntries.symbolic d side) g) := by
  refine (Ensures.mapM (R := fun _ (m : GeometryMonomial α) => m.powers.AtMost 0 order)
    fun t ht => sure_derivativeEntry (Tuple.mem_axes_iff.1 ht).1 horder).mono fun chains hchains => ?_
  refine ⟨?_, forall₂_left hchains.flip fun _ _ h => h⟩
  rw [← hchains.length_eq]
  exact Tuple.length_axes d.tdim order

theorem dofContributions_sound {factor : Factor} {t : Table α} {axes : Checked (List Nat)}
    (haxes : axes = .ok g) (horder : factor.order < 2 ^ 31) {k c dofs size : Nat}
    (hshaped : ∃ points, t.Shaped points dofs (d.tdim ^ factor.order) size) (hk : k < dofs)
    (hc : c < size) (hsize : size < limit) :
    Outcome.Sound False (fun xs => ∀ x ∈ xs, x.1.AtMost 0 factor.order)
      (dofContributions factor t (MapEntries.symbolic d factor.side) axes k ⟨.affine, c, c, 1⟩) := by
  rcases hshaped with ⟨points, ht⟩
  unfold dofContributions
  refine bind_lift (add_of_lt (a := c) (b := 1) (by omega)) ?_
  split
  · refine bind (P := fun mapped => mapped.scale = .constant 1 ∧ mapped.row = [.constant 1])
      (pure ⟨rfl, rfl⟩) fun mapped hmapped => ?_
    refine bind_lift haxes ?_
    refine bind (lift (sure_derivativeRow horder)) fun chains hchains => ?_
    have hreads : checkReads t k ⟨.affine, c, c, 1⟩ chains.length = .ok () := by
      refine Checked.require_eq_ok.2 ?_
      rw [Bool.or_eq_true, Bool.and_eq_true, Bool.and_eq_true, decide_eq_true_iff,
        decide_eq_true_iff, decide_eq_true_iff, decide_eq_true_iff, ht.dofs, ht.derivatives,
        ht.components, hchains.1]
      exact Or.inr ⟨⟨hk, Nat.le_refl _⟩, hc⟩
    refine bind_lift hreads ?_
    refine bind (Ensures.mapM (R := fun _ ys => ∀ y ∈ ys, y.1.AtMost 0 factor.order)
      fun x hx => ?_) fun lists hlists => ?_
    -- Neither the scale nor the row of the mapping has a symbol.
    · have hchain := hchains.2 x.1 (fst_mem_of_mem_zipIdx hx)
      refine (Ensures.mapM (R := fun _ y => y.1.AtMost 0 factor.order) fun y hy => ?_).mono
        fun ys hys => forall₂_left hys.flip fun _ _ h => h
      rcases y with ⟨entry, j⟩
      have hentry := fst_mem_of_mem_zipIdx hy
      rw [hmapped.2, mem_singleton] at hentry
      subst hentry
      rw [hmapped.1]
      refine bind (lift (sure_mul hchain
        (atMost_constant 1) (by decide) horder)) fun scaled hscaled => ?_
      exact bind (lift (sure_mul hscaled
        (atMost_constant 1) (by decide) horder)) fun c hc => pure hc
    · refine pure fun z hz => ?_
      rcases mem_flatten.1 hz with ⟨ys, hys, hz⟩
      exact forall₂_left hlists.flip (fun _ _ h => h) ys hys z hz
  · exact pure nofun

end Expand

/-- A table with a row for each point, and an entry of the row for each basis function, whose
    geometry has bounded exponents. -/
structure ScaledTable.Shaped (points dofs orders : Nat) (x : ScaledTable α) : Prop where
  points : x.values.length = points
  dofs : ∀ row ∈ x.values, row.length = dofs
  geometry : x.geometry.powers.AtMost 0 orders

theorem expandFactor_sound [Scalar α] {f : Form α} {d : Dimensions} {integral : Integral}
    {factor : Factor} {e : Element} (hfits : f.Fits d integral factor e)
    (he : e.Constructed) (hknown : Tabulator.isLagrange e = true) (horder : factor.order < 2 ^ 31)
    (haxes : d.gdim ^ factor.order < Tuple.capacity)
    (hchains : d.tdim ^ factor.order < GeometryMonomial.capacity) {t : Table α} {points : Nat}
    (ht : t.Shaped points e.spaceDimension (d.tdim ^ factor.order) (max e.valueShape.prod 1))
    (epsilon : α) :
    Outcome.Sound False (fun tables => ∀ x ∈ tables, x.Shaped points e.spaceDimension factor.order)
      (expandFactor e factor t d epsilon) := by
  have hpos : 0 < d.gdim := Nat.lt_of_lt_of_le d.tdim_pos d.tdim_le
  have hnumber := Tuple.axesNumber_of_lt hfits.axes (Nat.lt_trans haxes (by decide))
  have hentry := entryAt_eq_ok.2 (Tuple.get_axesNumber hnumber hfits.axes)
  unfold expandFactor
  refine bind_lift (Tuple.reserve_of_lt hpos haxes) ?_
  refine bind_lift (GeometryMonomial.reserve_of_lt d.tdim_pos hchains) (bind_lift hnumber ?_)
  refine bind (Ensures.mapM (R := fun _ xs => ∀ x ∈ xs, x.1.AtMost 0 factor.order)
    fun x hx => ?_) fun lists hlists => ?_
  · rcases x with ⟨data, k⟩
    rcases (he.componentwise hknown).dofs data (fst_mem_of_mem_zipIdx hx) with ⟨c, hc, rfl⟩
    have hk : k < e.spaceDimension := (mem_zipIdx' hx).1
    exact Expand.dofContributions_sound hentry horder ⟨points, ht⟩ hk hc he.size_lt
  -- The powers of a table are those of one of its contributions.
  · refine pure fun x hx => ?_
    rcases mem_filterMap.1 hx with ⟨y, hy, hyx⟩
    have hpowers : y.1.AtMost 0 factor.order :=
      Expand.forall_mem_foldl (forall_mem_flatten.2 (forall₂_left hlists.flip fun _ _ h => h))
        (forall_mem_nil _) y hy
    have hshape := Expand.shape_values t epsilon y.2
    rw [ht.points, ht.dofs] at hshape
    simp only at hyx
    split at hyx
    · cases hyx
      exact ⟨hshape.1, hshape.2, hpowers⟩
    · cases hyx

end WeakForm
