import WeakForm.Proofs.FacetNormals
import WeakForm.Proofs.PassageFacets

/-!
# Values of normals

What the names of geometry code stand for once its declarations hold, for the normal of a
facet. Code and affine geometry turn the normal away from the vertex that is not on the
facet. On the minus side of a facet between two cells the normal is that of the plus side,
turned around.

On a surface the formulas are not the same. Both turn the edge about the normal of the
plane by a right angle. The code divides the result by the length of the edge and looks in
which direction it points before that; the affine geometry brings it to length one and looks
afterwards. The results agree because a turn keeps lengths, and because the turned edge of a
triangle that is not degenerate does point to one of the two sides.

## Theorems

* `Passage.hasNormal`: The normal is declared.
-/

namespace WeakForm

open List Success WeakForm.Geometry Binding

namespace Passage

section

variable {s : Situation ℝ} {σ : Bindings ℝ} {d : Dimensions} {side : Option Side} {name : String}
  {a : List ℝ} {outward : Bool} {n v0 : Nat} {layout : Layout} {y : ℝ}

/-- The name of a component of the normal. On a line there is just one. -/
def normalName (d : Dimensions) (side : Option Side) (axis : Nat) : String :=
  if d.gdim = 1 then s!"n{Side.suffix side}" else s!"n{Side.suffix side}{axis}"

/-- Names stand for the normal of the facet, turned around on the minus side. -/
def HasNormal (s : Situation ℝ) (σ : Bindings ℝ) (d : Dimensions) (side : Option Side) : Prop :=
  ∃ n, Geometry.facetNormal (s.cell (facetSide side)) d s.facet = .ok n ∧
    List.Forall₂ σ.Has ((List.range d.gdim).map (normalName d side))
      (if side = some .minus then Geometry.negate n else n)

/-- Code chooses between the components of a normal and their negatives, by the direction and the
    side at once. -/
theorem forall₂_directed {name : Nat → String} (ha : a.length = n)
    (h : ∀ g < n, σ.Has (name g) (if outward = decide (side = some .minus)
      then -coordinate a g else coordinate a g)) : Forall₂ σ.Has ((range n).map name)
      (if side = some .minus then negate (if outward then a else negate a)
      else if outward then a else negate a) := by
  have hmap := eq_map_coordinate ha
  have hnegate : negate a = (range n).map fun g => -coordinate a g := by
    conv_lhs => rw [hmap]
    rw [negate, map_map]
    rfl
  have htwice : negate (negate a) = a := by simp [negate]
  have hall : ∀ f : Nat → ℝ, (∀ g < n, σ.Has (name g) (f g)) →
      Forall₂ σ.Has ((range n).map name) ((range n).map f) := by
    intro f hf
    rw [forall₂_map_left_iff, forall₂_map_right_iff, forall₂_same]
    exact fun g hg => hf g (mem_range.1 hg)
  -- Each of the two turns the normal around, so both together leave it as it is.
  by_cases hm : side = some .minus
  · cases outward with
    | true =>
      rw [if_pos hm, if_pos rfl, hnegate]
      exact hall _ fun g hg => (h g hg).of_eq (if_pos (by simp [hm]))
    | false =>
      rw [if_pos hm, if_neg Bool.false_ne_true, htwice, hmap]
      exact hall _ fun g hg => (h g hg).of_eq (if_neg (by simp [hm]))
  · cases outward with
    | true =>
      rw [if_neg hm, if_pos rfl, hmap]
      exact hall _ fun g hg => (h g hg).of_eq (if_neg (by simp [hm]))
    | false =>
      rw [if_neg hm, if_neg Bool.false_ne_true, hnegate]
      exact hall _ fun g hg => (h g hg).of_eq (if_pos (by simp [hm]))

theorem has_directed {a b : Term} {formula : Formula}
    (hformula : formula = .directed (decide (side = some .minus)) a b ∨
      formula = .turned (decide (side = some .minus)) a b)
    (hdirection : σ.get flag? directionName = some outward)
    (h : (Step.define true name layout formula).Holds s σ)
    (ha : Term.eval (σ.valueOf s) a = y) (hb : Term.eval (σ.valueOf s) b = -y) :
    σ.Has name (if outward = decide (side = some .minus) then -y else y) := by
  refine h.has.of_eq ?_
  rcases hformula with rfl | rfl <;> rw [Formula.eval, hdirection, Option.getD_some, ha, hb]
  by_cases hm : side = some .minus <;> cases outward <;> simp [hm]

/-- The way from the first vertex of the facet to the vertex that is not on it. -/
theorem eval_away (hfacet : σ.get vertex? (Cpp.facetVariable side) = some s.facet)
    (hv0 : σ.get vertex? "v0" = some v0) (g : Nat) : Term.eval (σ.valueOf s)
      (.group (namedVertex side (Cpp.facetVariable side) g - namedVertex side "v0" g)) =
      (s.cell side).entry g s.facet - (s.cell side).entry g v0 := by
  rw [← valueOf_namedVertex hv0 (s := s), ← valueOf_namedVertex hfacet (s := s)]
  rfl

/-- The test whether a vector points away from the vertex that is not on the facet. -/
theorem direction_of_holds {name : Nat → String} (hrows : (s.cell side).rows = 3)
    (ha : a.length = 3) (hname : ∀ g < 3, σ.Has (name g) (coordinate a g))
    (hfacet : σ.get vertex? (Cpp.facetVariable side) = some s.facet)
    (hv0 : σ.get vertex? "v0" = some v0)
    (h : (Step.direction (.negative (total ((range 3).map fun g => scalar (name g) *
      .group (namedVertex side (Cpp.facetVariable side) g -
        namedVertex side "v0" g))))).Holds s σ) : σ.get flag? directionName =
      some (Scalar.lt (Scalar.dot a (edge (s.cell side) v0 s.facet)) 0) := by
  refine h.direction.trans (congrArg (fun y => some (Scalar.lt y 0)) ?_)
  refine Term.eval_dot (by decide) ha ((length_edge _ _ _).trans hrows)
    (fun g hg => (hname g hg).valueOf (s := s)) fun g hg => ?_
  rw [coordinate_edge (by rwa [hrows])]
  exact eval_away hfacet hv0 g

/-- A component divided by the facet determinant, and its negative. -/
theorem eval_quotient {g : Nat} {det : ℝ} (hdet : σ.Has "det" det)
    (hname : σ.Has name (coordinate a g)) : Term.eval (σ.valueOf s) (scalar name / scalar "det") =
        coordinate (divide a det) g ∧ Term.eval (σ.valueOf s) (-scalar name / scalar "det") =
        -coordinate (divide a det) g := by
  rw [coordinate_divide, ← hname.valueOf (s := s), ← hdet.valueOf (s := s)]
  exact ⟨rfl, neg_div _ _⟩

section

variable (hfacet : σ.get vertex? (Cpp.facetVariable (facetSide side)) = some s.facet)

include hfacet

theorem hasNormal_line (hs : s.Fits .line)
    (h : ∀ step ∈ facetNormalSteps .line side, step.Holds s σ) : HasNormal s σ .line side := by
  obtain ⟨hdirection, _, hn⟩ := forall_iff_forall_mem.2 h
  have hdirection := hdirection.direction
  rw [Test.eval, hfacet, Option.getD_some] at hdirection
  have hcheck := checkVertices_eq_ok.2 ⟨hs.rows (facetSide side), hs.cols (facetSide side)⟩
  refine ⟨_, facetNormal_line hcheck (Nat.lt_succ_of_le hs.facet), ?_⟩
  rw [outward_axis (hs.rows (facetSide side))]
  refine forall₂_directed rfl fun g hg => ?_
  rw [Nat.lt_one_iff.1 hg]
  refine has_directed (.inl rfl) (hdirection.trans ?_) hn decimal_one (congrArg Neg.neg decimal_one)
  rcases Nat.le_one_iff_eq_zero_or_eq_one.1 hs.facet with hzero | hzero <;> rw [hzero] <;> rfl

theorem hasNormal_plane (hs : s.Fits .plane)
    (hdet : ∀ step ∈ facetDeterminantSteps .plane (facetSide side), step.Holds s σ)
    (h : ∀ step ∈ facetNormalSteps .plane side, step.Holds s σ) : HasNormal s σ .plane side := by
  obtain ⟨hdirection, _, hn0, hn1⟩ := forall_iff_forall_mem.2 h
  rcases has_edge hs hfacet hdet with ⟨v0, v1, hrow, hv0, hdx, hdet⟩
  have hcheck := checkVertices_eq_ok.2 ⟨hs.rows (facetSide side), hs.cols (facetSide side)⟩
  set x := s.cell (facetSide side)
  set e := coordinate (edge x v0 v1)
  have h0 : σ.valueOf s (.scalar "dx0") = e 0 := (hdx 0 (by decide)).valueOf
  have h1 : σ.valueOf s (.scalar "dx1") = e 1 := (hdx 1 (by decide)).valueOf
  set outward := Scalar.lt (e 1 * (x.entry 0 s.facet - x.entry 0 v0) -
    e 0 * (x.entry 1 s.facet - x.entry 1 v0)) 0 with houtward
  have hdirection : σ.get flag? directionName = some outward := by
    rw [houtward, ← eval_away hfacet hv0, ← eval_away hfacet hv0, ← h0, ← h1]
    exact hdirection.direction
  refine ⟨_, bind_eq_ok.2 ⟨(), hcheck, bind_eq_ok.2 ⟨_, hrow, rfl⟩⟩, forall₂_directed rfl ?_⟩
  intro g hg
  -- Only the second component of the turned edge has a sign of its own.
  interval_cases g
  · refine has_directed (.inl rfl) hdirection hn0 (congrArg₂ (· / ·) h1 hdet.valueOf) ?_
    change -σ.valueOf s (.scalar "dx1") / σ.valueOf s (.scalar "det") = -(e 1 / _)
    rw [h1, hdet.valueOf, neg_div]
  · refine has_directed (.inl rfl) hdirection hn1 ?_ ?_
    · change -σ.valueOf s (.scalar "dx0") / σ.valueOf s (.scalar "det") = -e 0 / _
      rw [h0, hdet.valueOf]
    · change σ.valueOf s (.scalar "dx0") / σ.valueOf s (.scalar "det") = -(-e 0 / _)
      rw [h0, hdet.valueOf, neg_div, neg_neg]

theorem hasNormal_solid (hs : s.Fits .solid)
    (hdet : ∀ step ∈ facetDeterminantSteps .solid (facetSide side), step.Holds s σ)
    (h : ∀ step ∈ facetNormalSteps .solid side, step.Holds s σ) : HasNormal s σ .solid side := by
  obtain ⟨hdirection, _, hn0, hn1, hn2⟩ := forall_iff_forall_mem.2 h
  rcases has_face hs hfacet hdet with ⟨v0, v1, v2, hrow, hv0, ha, hdet⟩
  have hrows := hs.rows (facetSide side)
  have hcheck := checkVertices_eq_ok.2 ⟨hrows, hs.cols (facetSide side)⟩
  set x := s.cell (facetSide side)
  set a := cross (edge x v0 v1) (edge x v0 v2)
  refine ⟨_, facetNormal_solid hcheck hrow, ?_⟩
  rw [outward_eq]
  refine forall₂_directed rfl fun g hg => ?_
  have hstep : (Step.define true s!"n{Side.suffix side}{g}" .wide
      (.directed (decide (side = some .minus)) (scalar s!"a{g}" / scalar "det")
        (-scalar s!"a{g}" / scalar "det"))).Holds s σ := by
    interval_cases g
    · exact hn0
    · exact hn1
    · exact hn2
  rcases eval_quotient hdet (ha g hg) with ⟨hcomponent, hopposite⟩
  exact has_directed (.inl rfl) (direction_of_holds hrows rfl ha hfacet hv0 hdirection) hstep hcomponent
    hopposite

/-- At the ends of a curve the normal is the unit vector along the cell. -/
theorem hasNormal_curve {hle : n + 2 ≤ 3} (hs : s.Fits (.curve n hle))
    (h : ∀ step ∈ facetNormalSteps (.curve n hle) side, step.Holds s σ) :
    HasNormal s σ (.curve n hle) side := by
  rcases forall_mem_append.1 h with ⟨h, hn⟩
  rcases forall_mem_append.1 h with ⟨h, hlength⟩
  rcases forall_mem_append.1 h with ⟨_, hraw⟩
  have hrows := hs.rows (facetSide side)
  have hcheck := checkVertices_eq_ok.2 ⟨hrows, hs.cols (facetSide side)⟩
  rcases Shape.facetVertices_of_lt (s := .interval) (Nat.lt_succ_of_le hs.facet) with
    ⟨row, hrow, _⟩
  have hopposite : Shape.interval.oppositeVertex s.facet = .ok (1 - s.facet) := if_pos hs.facet
  set x := s.cell (facetSide side)
  set a := if s.facet = 0 then edge x 1 0 else edge x 0 1 with ha
  have hraw : ∀ g < n + 2, σ.Has s!"_n{Side.suffix side}{g}" (coordinate a g) := by
    intro g hg
    refine (hraw _ (mem_map.2 ⟨g, mem_range.2 hg, rfl⟩)).has.of_eq ?_
    rw [Formula.eval, hfacet, Option.getD_some, ha, apply_ite (coordinate · g),
      coordinate_edge (by rwa [hrows]), coordinate_edge (by rwa [hrows])]
    rfl
  have hsize : a.length = n + 2 := by
    rw [ha, apply_ite List.length, length_edge, length_edge, ite_self, hrows]
  have hlength : σ.Has s!"n{Side.suffix side}_length" (Scalar.norm a) :=
    (forall_mem_singleton.1 hlength).has.of_eq
      (Term.eval_norm (Nat.succ_ne_zero (n + 1)) hsize fun g hg => (hraw g hg).valueOf (s := s))
  -- There is nothing to be tested: the vector along the cell points out of it at both ends.
  refine ⟨if true then Geometry.normalize a else negate (Geometry.normalize a), ?_,
    forall₂_directed ((length_divide _ _).trans hsize) ?_⟩
  · exact bind_eq_ok.2 ⟨(), hcheck, bind_eq_ok.2 ⟨row, hrow, bind_eq_ok.2 ⟨_, hopposite, rfl⟩⟩⟩
  · intro g hg
    refine (hn _ (mem_map.2 ⟨g, mem_range.2 hg, rfl⟩)).has.of_eq ?_
    rw [Geometry.normalize, coordinate_divide, ← (hraw g hg).valueOf (s := s),
      ← hlength.valueOf (s := s)]
    by_cases hm : side = some .minus
    · simp only [hm, decide_true, if_true]
      exact neg_div _ _
    · simp only [hm, decide_false, Bool.false_eq_true, Bool.true_eq_false, if_false]
      rfl

omit hfacet in
/-- On a surface the edge is turned about the normal of the plane. -/
theorem has_rotated {e : List ℝ} (hrows : (s.cell (facetSide side)).rows = 3) (he : e.length = 3)
    (hdx : ∀ g < 3, σ.Has s!"dx{g}" (coordinate e g))
    (h : ∀ step ∈ facetNormalSteps .surface side, step.Holds s σ) :
    ∀ g < 3, σ.Has s!"_n{Side.suffix side}{g}" (coordinate (Geometry.rotate
      (Geometry.normalize (cross (edge (s.cell (facetSide side)) 0 1)
        (edge (s.cell (facetSide side)) 0 2))) e) g) := by
  obtain ⟨_, _, _, c0, c1, c2, hlength, k0, k1, k2, halong, r0, r1, r2, _⟩ :=
    forall_iff_forall_mem.2 h
  set x := s.cell (facetSide side)
  set r := Side.suffix side
  set c := cross (edge x 0 1) (edge x 0 2)
  have hc : ∀ g < 3, σ.Has s!"_k{r}{g}" (coordinate c g) := by
    intro g hg
    have ha : (nextAxes g).1 < x.rows := hrows ▸ (nextAxes_lt g).1
    have hb : (nextAxes g).2 < x.rows := hrows ▸ (nextAxes_lt g).2
    rw [coordinate_cross _ _ hg]
    simp only [coordinate_edge ha, coordinate_edge hb]
    interval_cases g
    · exact c0.has
    · exact c1.has
    · exact c2.has
  have hlength : σ.Has s!"_k{r}_length" (Scalar.norm c) :=
    hlength.has.of_eq (Term.eval_norm (by decide) rfl fun g hg => (hc g hg).valueOf (s := s))
  have hk : ∀ g < 3, σ.Has s!"k{r}{g}" (coordinate (Geometry.normalize c) g) := by
    intro g hg
    rw [Geometry.normalize, coordinate_divide, ← (hc g hg).valueOf (s := s),
      ← hlength.valueOf (s := s)]
    interval_cases g
    · exact k0.has
    · exact k1.has
    · exact k2.has
  have hsize : (Geometry.normalize c).length = 3 := length_divide _ _
  have halong : σ.Has s!"k{r}dote" (Scalar.dot (Geometry.normalize c) e) :=
    halong.has.of_eq (Term.eval_dot (by decide) hsize he
      (fun g hg => (hk g hg).valueOf (s := s)) fun g hg => (hdx g hg).valueOf (s := s))
  intro g hg
  have ha := (nextAxes_lt g).1
  have hb := (nextAxes_lt g).2
  rw [coordinate_rotate hsize _ hg, coordinate_cross _ _ hg, ← (hk _ ha).valueOf (s := s),
    ← (hk _ hb).valueOf (s := s), ← (hdx _ ha).valueOf (s := s), ← (hdx _ hb).valueOf (s := s),
    ← (hk g hg).valueOf (s := s), ← halong.valueOf (s := s)]
  interval_cases g
  · exact r0.has
  · exact r1.has
  · exact r2.has

theorem hasNormal_surface (hs : s.Fits .surface)
    (hcell : (Geometry.inverseJacobian (Geometry.jacobian (s.cell (facetSide side)) .surface)
      .surface).1 ≠ 0)
    (hdet : ∀ step ∈ facetDeterminantSteps .surface (facetSide side), step.Holds s σ)
    (h : ∀ step ∈ facetNormalSteps .surface side, step.Holds s σ) :
    HasNormal s σ .surface side := by
  obtain ⟨_, _, _, _, _, _, _, _, _, _, _, _, _, _, _, hdirection, n0, n1, n2⟩ :=
    forall_iff_forall_mem.2 h
  rcases has_edge hs hfacet hdet with ⟨v0, v1, hrow, hv0, hdx, hdet⟩
  have hrows : (s.cell (facetSide side)).rows = 3 := hs.rows (facetSide side)
  have hcheck := checkVertices_eq_ok.2 ⟨hs.rows (facetSide side), hs.cols (facetSide side)⟩
  rw [inverseJacobian_surface hrows] at hcell
  -- This is where the cell must not be degenerate.
  rcases rotate_edge hrows hrow hcell with ⟨hnorm, hdot⟩
  rw [← hdot, abs_ne_zero] at hcell
  have ha := has_rotated hrows ((length_edge _ v0 v1).trans hrows) hdx h
  set x := s.cell (facetSide side)
  set a := Geometry.rotate (Geometry.normalize (cross (edge x 0 1)
    (edge x 0 2))) (edge x v0 v1)
  have hasize : a.length = 3 := Geometry.length_rotate (length_divide _ _) _
  -- The code divides by the length of the edge, which is that of the turned edge.
  rw [← hnorm] at hdet
  refine ⟨_, facetNormal_surface hcheck hrow hcell, ?_⟩
  rw [outward_eq]
  refine forall₂_directed ((length_divide _ _).trans hasize) fun g hg => ?_
  have hstep : (Step.define true s!"n{Side.suffix side}{g}" .wide
      (.turned (decide (side = some .minus)) (scalar s!"_n{Side.suffix side}{g}" / scalar "det")
        (-scalar s!"_n{Side.suffix side}{g}" / scalar "det"))).Holds s σ := by
    interval_cases g
    · exact n0
    · exact n1
    · exact n2
  rcases eval_quotient hdet (ha g hg) with ⟨hcomponent, hopposite⟩
  exact has_directed (.inr rfl) (direction_of_holds hrows hasize ha hfacet hv0 hdirection) hstep hcomponent
    hopposite

theorem hasNormal (hs : s.Fits d)
    (hcell : (Geometry.inverseJacobian (Geometry.jacobian (s.cell (facetSide side)) d) d).1 ≠ 0)
    (hdet : ∀ step ∈ facetDeterminantSteps d (facetSide side), step.Holds s σ)
    (h : ∀ step ∈ facetNormalSteps d side, step.Holds s σ) : HasNormal s σ d side := by
  cases d using Dimensions.pairs with
  | line => exact hasNormal_line hfacet hs h
  | planeCurve | spaceCurve => exact hasNormal_curve hfacet hs h
  | plane => exact hasNormal_plane hfacet hs hdet h
  | surface => exact hasNormal_surface hfacet hs hcell hdet h
  | solid => exact hasNormal_solid hfacet hs hdet h

end

end

end Passage

end WeakForm
