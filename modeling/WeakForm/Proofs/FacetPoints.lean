import WeakForm.Proofs.SoundTables

/-!
# Quadrature points on the facet between two cells

An integral over the facet between two cells reads tables of both cells in one loop
over points. That is right only if the points with one number are one point of space,
seen from either side. Each cell numbers its own vertices and facets, maps the rule of
the reference facet into its own reference cell, and maps from there into space.

Both maps are affine, and an affine map is known by what it does to vertices. So all
that is said about a point here is said in barycentric terms: which vertices it combines
with which weights. The map onto a facet sends the vertices of the reference facet to
those of the facet in order (`facetPoint_eq_combination`), the map of the cell sends
reference vertices to vertices (`toPhysical_combination`), and neither changes a weight.
What is left are the vertices of the facet, which the two cells share.

## Theorems

* `combination_congr`: Vertices with the same coordinates combine to the same point.
* `SharedFacet.facetDeterminant_eq`: Both cells measure the facet alike.
* `SharedFacet.points_coincide`: Rules on both sides have the same weights and points.
-/

namespace WeakForm

open List Success Shape

variable {K : Type} [Field K]

variable {vertices : List Nat} {s : Shape}

namespace Geometry

theorem checkVertices_eq_ok {α : Type} {x : Grid α} {d : Dimensions} :
    checkVertices x d = .ok () ↔ x.rows = d.gdim ∧ x.cols = d.tdim + 1 := by
  rw [checkVertices, Checked.require_eq_ok, Bool.and_eq_true, decide_eq_true_iff,
    decide_eq_true_iff]

variable {x : Grid K}

section

/-- The barycentric weights of a point of a simplex, each with the vertex it belongs to. -/
def barycentric (point : List K) (vertices : List Nat) : List (K × Nat) :=
  ((1 - point.sum) :: point).zip vertices

/-- The combination of vertices of a cell with given weights. -/
def combination (x : Grid K) (ws : List (K × Nat)) : List K :=
  (List.range x.rows).map fun g => (ws.map fun w => w.1 * x.entry g w.2).sum

theorem sum_barycentric {point : List K} (h : vertices.length = point.length + 1) :
    ((barycentric point vertices).map Prod.fst).sum = 1 := by
  rw [barycentric, map_fst_zip (by rw [length_cons, h]), sum_cons, sub_add_cancel]

theorem combination_congr {y : Grid K} (hrows : y.rows = x.rows) {vs ws : List Nat}
    (h : Forall₂ (fun v w => x.column v = y.column w) vs ws) (point : List K) :
    combination y (barycentric point ws) = combination x (barycentric point vs) := by
  unfold combination
  rw [hrows]
  refine map_congr_left fun axis haxis => congrArg List.sum ?_
  unfold barycentric
  generalize (1 - point.sum) :: point = weights
  -- The vertices are compared one by one, each with the weight at its place.
  induction h generalizing weights with
  | nil => simp only [zip_nil_right, map_nil]
  | @cons v w vs ws hvw _ ih =>
    cases weights with
    | nil => rfl
    | cons c weights =>
      have hentry : x.entry axis v = y.entry axis w := by
        have hget := congrArg (fun column => column[axis]?) hvw
        simpa [Grid.column, hrows, mem_range.1 haxis] using hget
      rw [zip_cons_cons, zip_cons_cons, map_cons, map_cons, hentry, ih]

end

variable [LinearOrder K] [Root K] {point : List K}

theorem foldlM_edges (n origin : Nat) {others : List Nat} {k : Nat}
    (hothers : ∀ j, vertices[k + j + 1]? = others[j]?) (hlength : others.length = point.length)
    (start : Nat → K) :
    ((List.range' k point.length).zip point).foldlM (fun (x : List K) (y : Nat × K) => (do
        let vertex ← entryAt vertices (y.1 + 1) let edge := (List.range n).map fun axis =>
          (vertexCoordinate vertex axis - vertexCoordinate origin axis : K)
        return zipWith (fun x e => x + e * y.2) x edge : Checked (List K)))
      ((List.range n).map start) =
    .ok ((List.range n).map fun axis => start axis + ((point.zip others).map fun w =>
      w.1 * (vertexCoordinate w.2 axis - vertexCoordinate origin axis)).sum) := by
  induction point generalizing k others start with
  | nil =>
    simp only [zip_nil_left, map_nil, sum_nil, add_zero]
    rfl
  | cons c point ih =>
    rcases others with _ | ⟨vertex, others⟩
    · simp at hlength
    have hvertex : entryAt vertices (k + 1) = .ok vertex := by
      rw [entryAt_eq_ok]
      exact hothers 0
    have hrest : ∀ j, vertices[k + 1 + j + 1]? = others[j]? := by
      intro j
      rw [show k + 1 + j + 1 = k + (j + 1) + 1 by omega, hothers (j + 1), getElem?_cons_succ]
    rw [length_cons, range'_succ, zip_cons_cons, foldlM_cons_eq_ok]
    refine ⟨(List.range n).map fun axis => start axis +
      c * (vertexCoordinate vertex axis - vertexCoordinate origin axis), ?_, ?_⟩
    · refine bind_eq_ok.2 ⟨vertex, hvertex, ?_⟩
      rw [pure_eq_ok, zipWith_map_left, zipWith_map_right, zipWith_self]
      simp only [mul_comm]
    · rw [ih hrest (by simpa using hlength)]
      simp only [zip_cons_cons, map_cons, sum_cons, add_assoc]

/-- The image of a point of the reference facet combines the vertices of the facet, with the weights
    that the point has on the reference facet. -/
theorem facetPoint_eq_combination (h : vertices.length = point.length + 1) :
    s.facetPoint vertices point = .ok ((range s.dimension).map fun axis =>
      ((barycentric point vertices).map fun w => w.1 * vertexCoordinate w.2 axis).sum) := by
  rcases vertices with _ | ⟨origin, others⟩
  · simp at h
  rw [length_cons, Nat.add_right_cancel_iff] at h
  have hothers : ∀ j, (origin :: others)[0 + j + 1]? = others[j]? := by
    intro j
    rw [Nat.zero_add, getElem?_cons_succ]
  have hedges := foldlM_edges s.dimension origin hothers h
    fun axis => (vertexCoordinate origin axis : K)
  rw [← range_eq_range'] at hedges
  unfold facetPoint
  refine bind_eq_ok.2 ⟨origin, rfl, hedges.trans ?_⟩
  refine congrArg Except.ok (map_congr_left fun axis _ => ?_)
  -- The edges all start at the first vertex, which keeps the weight that is left over.
  have hweights : ((point.zip others).map fun w => w.1 *
      (vertexCoordinate origin axis : K)).sum =
      point.sum * vertexCoordinate origin axis := by
    rw [sum_map_mul_right, map_fst_zip h.ge]
  have hsplit : ((point.zip others).map fun w => w.1 *
      (vertexCoordinate w.2 axis - vertexCoordinate origin axis : K)).sum +
        point.sum * vertexCoordinate origin axis =
      ((point.zip others).map fun w => w.1 * (vertexCoordinate w.2 axis : K)).sum := by
    rw [← hweights, ← sum_map_add]
    simp only [mul_sub, sub_add_cancel]
  rw [barycentric, zip_cons_cons, map_cons, sum_cons, ← hsplit]
  ring

/-- The map of a cell, written as steps along the edges from the first vertex. -/
theorem toPhysical_eq_ok (h : point.length < x.cols) :
    toPhysical x point = .ok ((range x.rows).map fun g => x.entry g 0 +
      (((range point.length).zip point).map fun y =>
        (x.entry g (y.1 + 1) - x.entry g 0) * y.2).sum) := by
  unfold toPhysical
  refine bind_eq_ok.2 ⟨(), Checked.bound_eq_ok.2 h, ?_⟩
  rw [pure_eq_ok]
  refine map_congr_left fun g _ => ?_
  -- What the first vertex loses to the others is the sum of the coordinates.
  have hfirst : (((range point.length).zip point).map fun y => x.entry g 0 * y.2).sum =
      x.entry g 0 * point.sum := by
    rw [sum_map_mul_left, map_snd_zip (by rw [length_range])]
  have hsplit : (((range point.length).zip point).map fun y =>
      (x.entry g (y.1 + 1) - x.entry g 0) * y.2).sum + x.entry g 0 * point.sum =
      (((range point.length).zip point).map fun y => x.entry g (y.1 + 1) * y.2).sum := by
    rw [← hfirst, ← sum_map_add]
    simp only [sub_mul, sub_add_cancel]
  rw [Scalar.foldl_add_eq_sum, Scalar.sum_eq_sum, ← hsplit]
  ring

theorem steps_to_vertex {n v : Nat} (h : v ≤ n) (f : Nat → K) : f 0 + ((range n).map fun axis =>
      (f (axis + 1) - f 0) * vertexCoordinate v axis).sum = f v := by
  cases v with
  | zero =>
    -- The origin has no coordinate other than zero.
    have hzero : ∀ axis, (vertexCoordinate 0 axis : K) = 0 :=
      fun axis => if_neg (Nat.succ_ne_zero axis).symm
    simp [hzero]
  | succ v =>
    have hone : ∀ axis, (vertexCoordinate (v + 1) axis : K) = if axis = v then 1 else 0 := by
      intro axis
      simp only [vertexCoordinate, Nat.add_right_cancel_iff, eq_comm]
    have hcount : (range n).count v = 1 :=
      count_eq_one_of_mem nodup_range (mem_range.2 h)
    simp only [hone, mul_ite, mul_one, mul_zero]
    rw [sum_map_ite_eq, hcount]
    simp

/-- The map of a cell sends a combination of reference vertices to the same combination of the
    vertices of the cell. -/
theorem toPhysical_combination {n : Nat} (hcols : x.cols = n + 1) {ws : List (K × Nat)}
    (hone : (ws.map Prod.fst).sum = 1) (hws : ∀ w ∈ ws, w.2 ≤ n) :
    toPhysical x ((range n).map fun axis =>
      (ws.map fun w => w.1 * vertexCoordinate w.2 axis).sum) = .ok (combination x ws) := by
  rw [toPhysical_eq_ok (by simp [hcols])]
  refine congrArg Except.ok (map_congr_left fun g _ => ?_)
  rw [length_map, length_range, map_zip_eq_zipWith, zipWith_map_right, zipWith_self]
  -- Every vertex is reached by steps of its own, so the sums over axes and weights can be swapped.
  have hvertex : ∀ w ∈ ws, w.1 * x.entry g w.2 = w.1 * x.entry g 0 +
      ((range n).map fun axis => (x.entry g (axis + 1) - x.entry g 0) *
        (w.1 * vertexCoordinate w.2 axis)).sum := by
    intro w hw
    rw [← steps_to_vertex (hws w hw) (x.entry g), mul_add, ← sum_map_mul_left]
    simp only [mul_left_comm]
  rw [map_congr_left hvertex, sum_map_add, sum_map_mul_right, hone, one_mul, sum_comm]
  simp only [sum_map_mul_left, Function.curry]

end Geometry

theorem Dimensions.dimension_shape (d : Dimensions) : d.shape.dimension = d.tdim := by
  cases d using Dimensions.pairs <;> rfl

variable {facet : Nat}

/-- A facet has as many vertices as the cell has dimensions, and they are vertices of the cell. -/
theorem Shape.facetVertices_spec (h : s.facetVertices facet = .ok vertices) :
    vertices.length = s.dimension ∧ ∀ v ∈ vertices, v ≤ s.dimension := by
  by_cases hlt : facet < s.facetCount
  · rcases facetVertices_of_lt hlt with ⟨vertices', h', hlength⟩
    rw [h] at h'
    cases h'
    refine ⟨hlength, fun v hv => ?_⟩
    unfold facetVertices at h
    rw [if_pos hlt] at h
    cases s with
    | interval =>
      rw [← Except.ok.inj h, mem_singleton] at hv
      rw [hv]
      exact Nat.le_of_lt_succ hlt
    | triangle | tetrahedron =>
      rw [← Except.ok.inj h, mem_filter, mem_range] at hv
      exact Nat.le_of_lt_succ hv.1
  · unfold facetVertices at h
    rw [if_neg hlt] at h
    cases h

namespace Rule

variable {α : Type} [Scalar α] {source : Gauss.Source α} {degree : Nat} {dimension : Nat}
  {q : Rule α}

theorem length_of_mem_simplex (h : simplex source dimension degree = .ok q) :
    ∀ point ∈ q.points, point.length = dimension := by
  rcases bind_eq_ok.1 h with ⟨n, _, h⟩
  rcases collapsed_eq_ok h with ⟨rfl, rfl⟩ | ⟨line, _, hr⟩
  · exact forall_mem_singleton.2 rfl
  · exact hr.coordinates

/-- There is a rule of each degree that leaves the number of points along an axis in bounds. -/
theorem exists_simplex (hdimension : dimension ≤ 3)
    (hdegree : degree + dimension + 1 < 2 * Gauss.capacity) :
    ∃ q, simplex source dimension degree = .ok q := by
  have hcapacity : 2 * Gauss.capacity + 4 < Size.limit := by decide
  have hlt : axisPoints degree dimension < Gauss.capacity := by
    have hone : 1 < Gauss.capacity := by decide
    exact max_lt (by omega) hone
  have hsound : Outcome.Sound False _ (simplex source dimension degree) :=
    simplex_sound hdimension (by omega) fun _ => hlt
  rcases hsound.exists_of_not id with ⟨q, hq, _⟩
  exact ⟨q, hq⟩

/-- The rule of a facet has the weights of the rule on the reference facet, and the images of its
    points. -/
theorem reference_facet (h : simplex source (s.dimension - 1) degree = .ok q)
    (hvertices : s.facetVertices facet = .ok vertices) {image : List α → List α}
    (himage : ∀ point ∈ q.points, s.facetPoint vertices point = .ok (image point)) :
    reference source s (some facet) degree = .ok ⟨q.weights, q.points.map image⟩ := by
  refine bind_eq_ok.2 ⟨q, h, bind_eq_ok.2 ⟨q.points.map image, lift_fault_eq_ok.2 ?_, rfl⟩⟩
  exact bind_eq_ok.2 ⟨vertices, hvertices, mapM_eq_ok_map himage⟩

end Rule

namespace Geometry

variable [LinearOrder K] [Root K]

/-- The rule of a facet, and where the map of the cell puts its points: where their weights on the
    reference facet put them among the vertices of the facet. -/
theorem toPhysical_facetPoints {x : Grid K} (hcols : x.cols = s.dimension + 1)
    (hvertices : s.facetVertices facet = .ok vertices) {source : Gauss.Source K} {degree : Nat}
    {q : Rule K}
    (hq : Rule.simplex source (s.dimension - 1) degree = .ok q) : ∃ image : List K → List K,
      Rule.reference source s (some facet) degree = .ok ⟨q.weights, q.points.map image⟩ ∧
      ∀ point ∈ q.points,
        toPhysical x (image point) = .ok (combination x (barycentric point vertices)) := by
  rcases facetVertices_spec hvertices with ⟨hlength, hle⟩
  have hpos := s.dimension_pos
  have hcount : ∀ point ∈ q.points, vertices.length = point.length + 1 := by
    intro point hpoint
    rw [Rule.length_of_mem_simplex hq point hpoint]
    omega
  refine ⟨_, Rule.reference_facet hq hvertices fun point hpoint =>
    facetPoint_eq_combination (hcount point hpoint), fun point hpoint => ?_⟩
  refine toPhysical_combination hcols (sum_barycentric (hcount point hpoint)) fun w hw => ?_
  exact hle w.2 (of_mem_zip hw).2

theorem edge_eq_zipWith (x : Grid K) (start stop : Nat) :
    edge x start stop = zipWith (· - ·) (x.column stop) (x.column start) := by
  rw [edge, Grid.column, Grid.column, zipWith_map_left, zipWith_map_right, zipWith_self]

/-- Two cells with a facet in common. The facet is number `f` of the first cell and number `g` of
    the second, and its vertices, listed in the order of either cell, have the same coordinates. -/
structure SharedFacet (d : Dimensions) (x y : Grid K) (f g : Nat) (vs ws : List Nat) : Prop where
  left : checkVertices x d = .ok ()
  right : checkVertices y d = .ok ()
  left_vertices : d.shape.facetVertices f = .ok vs
  right_vertices : d.shape.facetVertices g = .ok ws
  coordinates : List.Forall₂ (fun v w => x.column v = y.column w) vs ws

namespace SharedFacet

variable {d : Dimensions} {x y : Grid K} {f g : Nat} {vs ws : List Nat}

theorem facetDeterminant_eq (h : SharedFacet d x y f g vs ws) :
    ∃ det, facetDeterminant x d f = .ok det ∧ facetDeterminant y d g = .ok det := by
  rcases h with ⟨hx, hy, hvs, hws, hcoordinates⟩
  have hedge : ∀ {v v' w w' : Nat}, x.column v = y.column w → x.column v' = y.column w' →
      edge y w w' = edge x v v' := by
    intro v v' w w' hv hv'
    rw [edge_eq_zipWith, edge_eq_zipWith, hv, hv']
  have hlength := (facetVertices_spec hvs).1
  rw [d.dimension_shape] at hlength
  have hpos := d.tdim_pos
  have hle := d.tdim_le.trans d.gdim_le
  unfold facetDeterminant
  rw [hx, hy, hvs, hws]
  rcases (by omega : d.tdim = 1 ∨ d.tdim = 2 ∨ d.tdim = 3) with hdim | hdim | hdim
  · rw [hdim]
    exact ⟨1, rfl, rfl⟩
  · rw [hdim] at hlength ⊢
    rcases length_eq_two.1 hlength with ⟨v, v', rfl⟩
    rcases hcoordinates with _ | ⟨hv, _ | ⟨hv', _ | _⟩⟩
    refine ⟨Scalar.norm (edge x v v'), rfl, ?_⟩
    rw [← hedge hv hv']
    rfl
  · rw [hdim] at hlength ⊢
    rcases length_eq_three.1 hlength with ⟨v, v', v'', rfl⟩
    rcases hcoordinates with _ | ⟨hv, _ | ⟨hv', _ | ⟨hv'', _ | _⟩⟩⟩
    refine ⟨Scalar.norm (cross (edge x v v') (edge x v v'')), rfl, ?_⟩
    rw [← hedge hv hv', ← hedge hv hv'']
    rfl

/-- The rules on both sides of a facet have the same weights, and their points with one number are
    one point of space: the combination of the vertices of the facet by the point of the reference
    facet. Both sides measure the facet alike. -/
theorem points_coincide (h : SharedFacet d x y f g vs ws) (source : Gauss.Source K) (degree : Nat) :
    (degree + d.tdim < 2 * Gauss.capacity →
      ∃ q, Rule.simplex source (d.shape.dimension - 1) degree = .ok q) ∧
    ∀ q, Rule.simplex source (d.shape.dimension - 1) degree = .ok q →
      ∃ r s det, Rule.reference source d.shape (some f) degree = .ok r ∧
        Rule.reference source d.shape (some g) degree = .ok s ∧
        r.weights = q.weights ∧ s.weights = q.weights ∧
        r.points.length = q.points.length ∧ s.points.length = q.points.length ∧
        (∀ (p : Nat) (point : List K), q.points[p]? = some point →
          ∃ a b, r.points[p]? = some a ∧ s.points[p]? = some b ∧
            toPhysical x a = .ok (combination x (barycentric point vs)) ∧
            toPhysical y b = .ok (combination x (barycentric point vs))) ∧
        facetDeterminant x d f = .ok det ∧ facetDeterminant y d g = .ok det := by
  have hdimension := d.dimension_shape
  have hpos := d.tdim_pos
  have hle := d.tdim_le.trans d.gdim_le
  refine ⟨fun hdegree => Rule.exists_simplex (by omega) (by omega), fun q hq => ?_⟩
  rcases checkVertices_eq_ok.1 h.left with ⟨hrows, hcols⟩
  rcases checkVertices_eq_ok.1 h.right with ⟨hrows', hcols'⟩
  rcases toPhysical_facetPoints (by rw [hcols, hdimension]) h.left_vertices hq with
    ⟨image, hr, himage⟩
  rcases toPhysical_facetPoints (by rw [hcols', hdimension]) h.right_vertices hq with
    ⟨image', hs, himage'⟩
  rcases h.facetDeterminant_eq with ⟨det, hdet, hdet'⟩
  refine ⟨_, _, det, hr, hs, rfl, rfl, List.length_map _, List.length_map _, ?_, hdet, hdet'⟩
  intro p point hpoint
  have hmem := List.mem_of_getElem? hpoint
  refine ⟨image point, image' point, ?_, ?_, himage point hmem, ?_⟩
  · rw [List.getElem?_map, hpoint, Option.map_some]
  · rw [List.getElem?_map, hpoint, Option.map_some]
  · rw [himage' point hmem, combination_congr (hrows'.trans hrows.symm) h.coordinates]

/-- Two tetrahedra on either side of a facet that has different numbers in them. -/
theorem points_coincide_tetrahedra :
    let x : Grid ℚ := ⟨3, 4, #[#[0, 2, 0, 1], #[0, 0, 3, 1], #[0, 0, 0, 4]]⟩
    let y : Grid ℚ := ⟨3, 4, #[#[2, 0, 5, 1], #[0, 3, 5, 1], #[0, 0, 5, 4]]⟩
    let d : Dimensions := ⟨3, 3, by decide, by decide, by decide⟩
    let source : Gauss.Source ℚ := fun _ => [(1 / 4, 1 / 2), (3 / 4, 1 / 2)]
    ∃ q r s det, Rule.simplex source 2 1 = .ok q ∧
      Rule.reference source .tetrahedron (some 0) 1 = .ok r ∧
      Rule.reference source .tetrahedron (some 2) 1 = .ok s ∧
      r.weights = q.weights ∧ s.weights = q.weights ∧
      r.points.length = q.points.length ∧ s.points.length = q.points.length ∧
      (∀ (p : Nat) (point : List ℚ), q.points[p]? = some point →
        ∃ a b, r.points[p]? = some a ∧ s.points[p]? = some b ∧
          toPhysical x a = .ok (combination x (barycentric point [1, 2, 3])) ∧
          toPhysical y b = .ok (combination x (barycentric point [1, 2, 3]))) ∧
      facetDeterminant x d 0 = .ok det ∧ facetDeterminant y d 2 = .ok det := by
  intro x y d source
  have hfacet : SharedFacet d x y 0 2 [1, 2, 3] [0, 1, 3] := by
    refine ⟨rfl, rfl, rfl, rfl, ?_⟩
    refine .cons (by decide +kernel) (.cons (by decide +kernel) (.cons (by decide +kernel) .nil))
  have hall := points_coincide hfacet source 1
  rcases hall.1 (by decide) with ⟨q, hq⟩
  rcases hall.2 q hq with ⟨r, s, det, hr⟩
  exact ⟨q, r, s, det, hq, hr⟩

end SharedFacet
end Geometry
end WeakForm
