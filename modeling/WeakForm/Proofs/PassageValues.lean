import WeakForm.Proofs.PassageScopes
import WeakForm.Proofs.PseudoInverse

/-!
# Values of cell quantities

What the names of geometry code stand for once its declarations hold, for the quantities of
a cell: the Jacobian with its determinant and inverse, the volume, the circumradius and the
physical coordinates of a point. They are those that the affine geometry computes from the
same vertices.

Declarations are equations between the values of names, so the formulas of the code can be
put into one another. The formulas of both sides are then compared. They differ in the order
of factors, in sums that are written out or taken over axes, and in the literals.

## Main definitions

* `Passage.HasJacobian`, `Passage.HasInverse`: Names stand for a Jacobian, for a determinant
  and an inverse.

## Theorems

* `Passage.hasJacobian`: The Jacobian is declared.
* `Passage.has_volume`, `Passage.has_circumradius`: So are the volume and the circumradius.
* `Passage.has_point`: So are the physical coordinates of the current point.
-/

namespace WeakForm

open List Success WeakForm.Geometry Term Grid

theorem Grid.ofFn_congr {α : Type} {rows cols : Nat} {f f' : Nat → Nat → α}
    (h : ∀ i < rows, ∀ j < cols, f i j = f' i j) : ofFn rows cols f = ofFn rows cols f' := by
  unfold ofFn
  congr 1
  refine congrArg Array.ofFn (funext fun i => ?_)
  exact congrArg Array.ofFn (funext fun j => h i i.isLt j j.isLt)

theorem Bindings.Has.of_eq {α : Type} {σ : Bindings α} {name : String} {x y : α}
    (h : σ.Has name x) (hxy : x = y) : σ.Has name y := hxy ▸ h

theorem decimal_one : (Scalar.decimal 10 1 : ℝ) = 1 := by
  rw [decimal_eq]
  norm_num

/-! ## Sums and lengths -/

namespace Term

variable {v : Quantity → ℝ}

theorem eval_foldl_add {β : Type} (f : β → Term) (xs : List β) (e : Term) :
    eval v (xs.foldl (fun e x => e + f x) e) = eval v e + (xs.map fun x => eval v (f x)).sum := by
  induction xs generalizing e with
  | nil => rw [foldl_nil, map_nil, sum_nil, add_zero]
  | cons x xs ih =>
    rw [foldl_cons, ih, map_cons, sum_cons, ← add_assoc]
    rfl

theorem eval_total {es : List Term} (h : es ≠ []) :
    eval v (Passage.total es) = (es.map (eval v)).sum := by
  cases es with
  | nil => exact absurd rfl h
  | cons e es => exact eval_foldl_add id es e

theorem eval_total_range {n : Nat} (h : n ≠ 0) (f : Nat → Term) :
    eval v (Passage.total ((range n).map f)) = ((range n).map fun i => eval v (f i)).sum := by
  rw [eval_total (by simpa using h), map_map]
  rfl

theorem eval_sumOfSquares {n : Nat} (h : n ≠ 0) (f : Nat → Term) :
    eval v (Passage.sumOfSquares ((range n).map f)) =
      ((range n).map fun i => eval v (f i) * eval v (f i)).sum := by
  rw [Passage.sumOfSquares, map_map]
  exact eval_total_range h _

end Term

namespace Term

variable {v : Quantity → ℝ} {n : Nat} {f g : Nat → Term} {a b : List ℝ}

theorem eval_norm (hn : n ≠ 0) (ha : a.length = n) (hf : ∀ i < n, eval v (f i) = coordinate a i) :
    eval v (.sqrt (Passage.sumOfSquares ((range n).map f))) = Scalar.norm a := by
  rw [eq_map_coordinate ha, Geometry.norm_map]
  refine congrArg Real.sqrt ((eval_sumOfSquares hn f).trans ?_)
  refine congrArg List.sum (map_congr_left fun i hi => ?_)
  rw [hf i (mem_range.1 hi)]

theorem eval_dot (hn : n ≠ 0) (ha : a.length = n) (hb : b.length = n)
    (hf : ∀ i < n, eval v (f i) = coordinate a i) (hg : ∀ i < n, eval v (g i) = coordinate b i) :
    eval v (Passage.total ((range n).map fun i => f i * g i)) = Scalar.dot a b := by
  rw [eq_map_coordinate ha, eq_map_coordinate hb, dot_map]
  refine (eval_total_range hn _).trans ?_
  refine congrArg List.sum (map_congr_left fun i hi => ?_)
  rw [← hf i (mem_range.1 hi), ← hg i (mem_range.1 hi)]
  rfl

end Term

/-! ## The Jacobian -/

namespace Passage

section

variable {s : Situation ℝ} {σ : Bindings ℝ} {d : Dimensions} {side : Option Side} {a b : Nat}

def HasJacobian (σ : Bindings ℝ) (d : Dimensions) (side : Option Side) (jac : Grid ℝ) : Prop :=
  ∀ g < d.gdim, ∀ t < d.tdim, σ.Has (Cpp.symbol (.jacobian side g t)) (jac.entry g t)

def HasInverse (σ : Bindings ℝ) (d : Dimensions) (side : Option Side) (inverse : ℝ × Grid ℝ) :
    Prop :=
  σ.Has (nameDet side) inverse.1 ∧
    ∀ t < d.tdim, ∀ g < d.gdim, σ.Has (nameK side t g) (inverse.2.entry t g)

theorem hasJacobian (h : ∀ step ∈ jacobianSteps d side, step.Holds s σ) :
    HasJacobian σ d side (Geometry.jacobian (s.cell side) d) := by
  intro g hg t ht
  have hmem : constant (Cpp.symbol (.jacobian side g t)) (vertex side (t + 1) g - vertex side 0 g) ∈
      jacobianSteps d side := by
    refine mem_append_right _ (mem_flatMap.2 ⟨g, mem_range.2 hg, ?_⟩)
    exact mem_map.2 ⟨t, mem_range.2 ht, rfl⟩
  rw [Geometry.jacobian, entry_ofFn _ hg ht]
  exact (h _ hmem).has

/-- An entry of the Jacobian, as its name has it. -/
noncomputable def namedJ (s : Situation ℝ) (σ : Bindings ℝ) (side : Option Side) (g t : Nat) : ℝ :=
  σ.valueOf s (.scalar (Cpp.symbol (.jacobian side g t)))

theorem HasJacobian.eq_ofFn {f : Nat → Nat → ℝ}
    (h : HasJacobian σ d side (Grid.ofFn d.gdim d.tdim f)) :
    Grid.ofFn d.gdim d.tdim f = Grid.ofFn d.gdim d.tdim (namedJ s σ side) := by
  refine Grid.ofFn_congr fun g hg t ht => ?_
  rw [namedJ, (h g hg t ht).valueOf, entry_ofFn _ hg ht]

theorem hasInverse_line (h : ∀ step ∈ inverseJacobianSteps .line side, step.Holds s σ) :
    HasInverse σ .line side (Geometry.inverseJacobian (Grid.ofFn 1 1 (namedJ s σ side)) .line) := by
  obtain ⟨_, hdet, _, _, hK⟩ := forall_iff_forall_mem.2 h
  set j := namedJ s σ side
  have hdet : σ.Has (nameDet side) (j 0 0) := hdet.has
  have hK : σ.Has (nameK side 0 0)
      (Scalar.decimal 10 1 / σ.valueOf s (.scalar (nameDet side))) := hK.has
  simp (disch := decide) only [HasInverse, Geometry.inverseJacobian, entry_ofFn]
  refine ⟨hdet, ?_⟩
  intro t ht g hg
  rw [entry_ofFn _ ht hg]
  interval_cases t
  interval_cases g
  refine hK.of_eq ?_
  rw [hdet.valueOf, decimal_one]

theorem hasInverse_plane (h : ∀ step ∈ inverseJacobianSteps .plane side, step.Holds s σ) :
    HasInverse σ .plane side
      (Geometry.inverseJacobian (Grid.ofFn 2 2 (namedJ s σ side)) .plane) := by
  obtain ⟨_, hdet, _, _, h00, h01, h10, h11⟩ := forall_iff_forall_mem.2 h
  set j := namedJ s σ side
  have hdet : σ.Has (nameDet side) (j 0 0 * j 1 1 - j 0 1 * j 1 0) := hdet.has
  simp (disch := decide) only [HasInverse, Geometry.inverseJacobian, entry_ofFn]
  refine ⟨hdet, ?_⟩
  intro t ht g hg
  rw [entry_ofFn _ ht hg, ← hdet.valueOf (s := s)]
  interval_cases t <;> interval_cases g
  · exact h00.has
  · exact h01.has
  · exact h10.has
  · exact h11.has

/-- The cofactors in three dimensions are declared in cyclic order of the axes. -/
theorem has_cofactor (h : ∀ step ∈ inverseJacobianSteps .solid side, step.Holds s σ) (ha : a < 3)
    (hb : b < 3) : σ.Has s!"d{Side.suffix side}_{a}{b}"
      ((cofactors (Grid.ofFn 3 3 (namedJ s σ side)).entry).entry a b) := by
  obtain ⟨_, c00, c01, c02, c10, c11, c12, c20, c21, c22, _⟩ := forall_iff_forall_mem.2 h
  set j := namedJ s σ side
  rw [cofactors, entry_ofFn _ ha hb]
  simp (disch := decide) only [entry_ofFn]
  interval_cases a <;> interval_cases b
  · exact c00.has
  · exact c01.has
  · exact c02.has
  -- In the second row the code takes the last axis before the first one.
  · refine c10.has.of_eq ?_
    change j 2 1 * j 0 2 - j 2 2 * j 0 1 = j 0 2 * j 2 1 - j 0 1 * j 2 2
    ring
  · refine c11.has.of_eq ?_
    change j 2 2 * j 0 0 - j 2 0 * j 0 2 = j 0 0 * j 2 2 - j 0 2 * j 2 0
    ring
  · refine c12.has.of_eq ?_
    change j 2 0 * j 0 1 - j 2 1 * j 0 0 = j 0 1 * j 2 0 - j 0 0 * j 2 1
    ring
  · exact c20.has
  · exact c21.has
  · exact c22.has

theorem hasInverse_solid (h : ∀ step ∈ inverseJacobianSteps .solid side, step.Holds s σ) :
    HasInverse σ .solid side
      (Geometry.inverseJacobian (Grid.ofFn 3 3 (namedJ s σ side)) .solid) := by
  have hc : ∀ a < 3, ∀ b < 3, σ.valueOf s (.scalar s!"d{Side.suffix side}_{a}{b}") =
      (cofactors (Grid.ofFn 3 3 (namedJ s σ side)).entry).entry a b :=
    fun a ha b hb => (has_cofactor h ha hb).valueOf
  obtain ⟨_, _, _, _, _, _, _, _, _, _, _, _, hdet, _, _, k00, k01, k02, k10, k11, k12, k20, k21,
    k22⟩ := forall_iff_forall_mem.2 h
  set c := (cofactors (Grid.ofFn 3 3 (namedJ s σ side)).entry).entry
  set j := namedJ s σ side
  have hdet : σ.Has (nameDet side) (j 0 0 * c 0 0 + j 1 0 * c 1 0 + j 2 0 * c 2 0) := by
    rw [← hc 0 (by decide) 0 (by decide), ← hc 1 (by decide) 0 (by decide),
      ← hc 2 (by decide) 0 (by decide)]
    exact hdet.has
  simp (disch := decide) only [HasInverse, Geometry.inverseJacobian, entry_ofFn]
  refine ⟨hdet, ?_⟩
  intro t ht g hg
  rw [entry_ofFn _ ht hg, ← hdet.valueOf (s := s)]
  change σ.Has _ (c g t / _)
  rw [← hc g hg t ht]
  interval_cases t <;> interval_cases g
  · exact k00.has
  · exact k01.has
  · exact k02.has
  · exact k10.has
  · exact k11.has
  · exact k12.has
  · exact k20.has
  · exact k21.has
  · exact k22.has

theorem map_columns {rows cols : Nat} (ha : a < cols) (hb : b < cols) (j : Nat → Nat → ℝ) :
    (range rows).map (fun g =>
      (Grid.ofFn rows cols j).entry g a * (Grid.ofFn rows cols j).entry g b) =
    (range rows).map fun g => j g a * j g b := by
  refine map_congr_left fun g hg => ?_
  rw [entry_ofFn _ (mem_range.1 hg) ha, entry_ofFn _ (mem_range.1 hg) hb]

theorem hasInverse_curve {n : Nat} {hle : n + 2 ≤ 3}
    (h : ∀ step ∈ inverseJacobianSteps (.curve n hle) side, step.Holds s σ) :
    HasInverse σ (.curve n hle) side
      (Geometry.inverseJacobian (Grid.ofFn (n + 2) 1 (namedJ s σ side)) (.curve n hle)) := by
  rcases forall_mem_append.1 h with ⟨hfront, hK⟩
  obtain ⟨_, hsquare, hdet, _⟩ := forall_iff_forall_mem.2 hfront
  set j := namedJ s σ side
  have hsquare : σ.Has s!"detJ2{Side.suffix side}"
      ((range (n + 2)).map fun g => j g 0 * j g 0).sum :=
    hsquare.has.of_eq (eval_sumOfSquares (Nat.succ_ne_zero (n + 1)) _)
  simp only [HasInverse, Geometry.inverseJacobian, Scalar.sum_eq_sum,
    map_columns (show 0 < 1 by decide) (show 0 < 1 by decide)]
  rw [← hsquare.valueOf (s := s)]
  refine ⟨hdet.has, ?_⟩
  intro t ht g hg
  rw [entry_ofFn _ ht hg, entry_ofFn _ hg (by decide), Nat.lt_one_iff.1 ht]
  exact (hK _ (mem_map.2 ⟨g, mem_range.2 hg, rfl⟩)).has

theorem hasInverse_surface (h : ∀ step ∈ inverseJacobianSteps .surface side, step.Holds s σ) :
    HasInverse σ .surface side
      (Geometry.inverseJacobian (Grid.ofFn 3 2 (namedJ s σ side)) .surface) := by
  obtain ⟨_, m0, m1, m2, hsquare, hdet, _, _, hn1, hn2, hm, hden, _, _, k00, k01, k02, k10, k11,
    k12⟩ := forall_iff_forall_mem.2 h
  set j := namedJ s σ side
  have m0 : σ.Has s!"d{Side.suffix side}_{0}" (j 1 0 * j 2 1 - j 2 0 * j 1 1) := m0.has
  have m1 : σ.Has s!"d{Side.suffix side}_{1}" (-(j 0 0 * j 2 1 - j 2 0 * j 0 1)) := m1.has
  have m2 : σ.Has s!"d{Side.suffix side}_{2}" (j 0 0 * j 1 1 - j 1 0 * j 0 1) := m2.has
  have hn1 : σ.Has s!"n{Side.suffix side}_1" ((range 3).map fun g => j g 0 * j g 0).sum :=
    hn1.has.of_eq (eval_sumOfSquares (by decide) _)
  have hn2 : σ.Has s!"n{Side.suffix side}_2" ((range 3).map fun g => j g 1 * j g 1).sum :=
    hn2.has.of_eq (eval_sumOfSquares (by decide) _)
  have hm : σ.Has s!"m{Side.suffix side}" ((range 3).map fun g => j g 0 * j g 1).sum :=
    hm.has.of_eq (eval_total_range (by decide) _)
  have hden : σ.Has s!"den{Side.suffix side}"
      (σ.valueOf s (.scalar s!"n{Side.suffix side}_1") *
        σ.valueOf s (.scalar s!"n{Side.suffix side}_2") -
      σ.valueOf s (.scalar s!"m{Side.suffix side}") *
        σ.valueOf s (.scalar s!"m{Side.suffix side}")) := hden.has
  have hdet : σ.Has (nameDet side)
      (Real.sqrt (σ.valueOf s (.scalar s!"detJ2{Side.suffix side}"))) := hdet.has
  have hsquare := hsquare.has.of_eq ((eval_sumOfSquares (by decide) _).trans
    (sum_range_three _))
  rw [hsquare.valueOf] at hdet
  simp (disch := decide) only [HasInverse, Geometry.inverseJacobian, Scalar.sum_eq_sum, map_columns,
    entry_ofFn]
  constructor
  · rw [← m0.valueOf (s := s), ← m1.valueOf (s := s), ← m2.valueOf (s := s)]
    exact hdet
  · intro t ht g hg
    rw [entry_ofFn _ ht hg, ← hn1.valueOf (s := s), ← hn2.valueOf (s := s), ← hm.valueOf (s := s),
      ← hden.valueOf (s := s), entry_ofFn _ hg (by decide), entry_ofFn _ hg (by decide)]
    interval_cases t <;> interval_cases g
    -- Both rows have the common factors in the same places.
    · exact k00.has
    · exact k01.has
    · exact k02.has
    · exact k10.has
    · exact k11.has
    · exact k12.has

/-- The determinant and the inverse that are declared are those of the Jacobian that is
    declared. -/
theorem hasInverse (hj : ∀ step ∈ jacobianSteps d side, step.Holds s σ)
    (h : ∀ step ∈ inverseJacobianSteps d side, step.Holds s σ) :
    HasInverse σ d side (Geometry.inverseJacobian (Geometry.jacobian (s.cell side) d) d) := by
  rw [Geometry.jacobian, (hasJacobian hj).eq_ofFn (s := s)]
  cases d using Dimensions.pairs with
  | line => exact hasInverse_line h
  | planeCurve | spaceCurve => exact hasInverse_curve h
  | plane => exact hasInverse_plane h
  | surface => exact hasInverse_surface h
  | solid => exact hasInverse_solid h

/-! ## Measures of the cell -/

theorem has_scale (h : ∀ step ∈ scaleFactor.steps d none, step.Holds s σ) {det : ℝ}
    (hdet : σ.Has (nameDet none) det) : σ.Has "det" |det| := by
  obtain ⟨_, hscale⟩ := forall_iff_forall_mem.2 h
  rw [← hdet.valueOf (s := s)]
  exact hscale.has

theorem has_volume (h : ∀ step ∈ cellVolumeSteps d side, step.Holds s σ) {det : ℝ}
    (hdet : σ.Has (nameDet side) det) :
    σ.Has s!"volume{Side.suffix side}" (Geometry.cellVolume det d.tdim) := by
  obtain ⟨_, hvolume⟩ := forall_iff_forall_mem.2 h
  refine hvolume.has.of_eq ?_
  rw [← hdet.valueOf (s := s)]
  set x := σ.valueOf s (.scalar (nameDet side))
  cases d using Dimensions.pairs with
  | line | planeCurve | spaceCurve => exact (mul_one |x|).symm
  | plane | surface =>
    change |x| / Scalar.decimal 20 1 = |x| * Scalar.decimal 5 1
    rw [decimal_eq, decimal_eq]
    norm_num
    ring
  | solid =>
    change |x| / Scalar.decimal 60 1 = |x| * (1 / Scalar.decimal 6 0)
    rw [decimal_eq, decimal_eq]
    norm_num
    ring

theorem has_length {name : String} (hs : (s.cell side).rows = d.gdim)
    (h : (constant name (.sqrt (sumOfSquares ((range d.gdim).map fun g =>
      .group (vertex side b g - vertex side a g))))).Holds s σ) :
    σ.Has name (Scalar.norm (edge (s.cell side) a b)) := by
  refine h.has.of_eq ?_
  have hpos : d.gdim ≠ 0 := Nat.ne_of_gt (d.tdim_pos.trans d.tdim_le)
  refine eval_norm hpos ((length_edge _ a b).trans hs) fun g hg => ?_
  rw [coordinate_edge (by rwa [hs])]
  rfl

theorem has_circumradius (hs : (s.cell side).rows = d.gdim)
    (h : ∀ step ∈ circumradiusSteps d side, step.Holds s σ) (hdet : σ.Has (nameDet side)
      (Geometry.inverseJacobian (Geometry.jacobian (s.cell side) d) d).1)
    (hvolume : σ.Has s!"volume{Side.suffix side}" (Geometry.cellVolume
      (Geometry.inverseJacobian (Geometry.jacobian (s.cell side) d) d).1 d.tdim)) :
    σ.Has s!"circumradius{Side.suffix side}" (Geometry.circumradius (s.cell side) d) := by
  rw [Geometry.circumradius]
  generalize (Geometry.inverseJacobian (Geometry.jacobian (s.cell side) d) d).1 = det at *
  generalize hv : Geometry.cellVolume det d.tdim = volume at *
  have hforall := forall_iff_forall_mem.2 h
  clear h hv
  set r := Side.suffix side
  cases d using Dimensions.pairs with
  | line | planeCurve | spaceCurve =>
    obtain ⟨_, hradius⟩ := hforall
    rw [← hdet.valueOf (s := s)]
    exact hradius.has
  | plane | surface =>
    obtain ⟨_, h12, h02, h01, _, hradius⟩ := hforall
    have h12 : σ.Has s!"v{1}v{2}{r}" _ := has_length hs h12
    have h02 : σ.Has s!"v{0}v{2}{r}" _ := has_length hs h02
    have h01 : σ.Has s!"v{0}v{1}{r}" _ := has_length hs h01
    simp only
    rw [← hvolume.valueOf (s := s), ← h12.valueOf (s := s), ← h02.valueOf (s := s),
      ← h01.valueOf (s := s)]
    exact hradius.has
  | solid =>
    obtain ⟨_, h12, h02, h01, h03, h13, h23, hla, hlb, hlc, hhalf, harea, _, hradius⟩ := hforall
    have h12 : σ.Has s!"v{1}v{2}{r}" _ := has_length hs h12
    have h02 : σ.Has s!"v{0}v{2}{r}" _ := has_length hs h02
    have h01 : σ.Has s!"v{0}v{1}{r}" _ := has_length hs h01
    have h03 : σ.Has s!"v{0}v{3}{r}" _ := has_length hs h03
    have h13 : σ.Has s!"v{1}v{3}{r}" _ := has_length hs h13
    have h23 : σ.Has s!"v{2}v{3}{r}" _ := has_length hs h23
    simp only
    rw [← hvolume.valueOf (s := s), ← h12.valueOf (s := s), ← h02.valueOf (s := s),
      ← h01.valueOf (s := s), ← h03.valueOf (s := s), ← h13.valueOf (s := s),
      ← h23.valueOf (s := s)]
    set v := fun name => σ.valueOf s (.scalar name)
    have hla : σ.Has s!"la{r}" (v s!"v{1}v{2}{r}" * v s!"v{0}v{3}{r}") := hla.has
    have hlb : σ.Has s!"lb{r}" (v s!"v{0}v{2}{r}" * v s!"v{1}v{3}{r}") := hlb.has
    have hlc : σ.Has s!"lc{r}" (v s!"v{0}v{1}{r}" * v s!"v{2}v{3}{r}") := hlc.has
    have hhalf : σ.Has s!"s{r}"
        (Scalar.decimal 5 1 * (v s!"la{r}" + v s!"lb{r}" + v s!"lc{r}")) := hhalf.has
    have harea : σ.Has s!"area{r}" (Real.sqrt (v s!"s{r}" * (v s!"s{r}" - v s!"la{r}") *
        (v s!"s{r}" - v s!"lb{r}") * (v s!"s{r}" - v s!"lc{r}"))) := harea.has
    refine hradius.has.of_eq ?_
    change v s!"area{r}" / (Scalar.decimal 60 1 * v s!"volume{r}") = _
    rw [show v s!"area{r}" = _ from harea.valueOf, show v s!"s{r}" = _ from hhalf.valueOf,
      show v s!"la{r}" = _ from hla.valueOf, show v s!"lb{r}" = _ from hlb.valueOf,
      show v s!"lc{r}" = _ from hlc.valueOf,
      show (Scalar.decimal 60 1 : ℝ) = Scalar.ofNat 6 from ?_]
    · rfl
    · rw [ofNat_eq, decimal_eq]
      norm_num

/-! ## Points -/

theorem has_point (hs : s.Fits d) (hj : ∀ step ∈ jacobianSteps d side, step.Holds s σ)
    (h : ∀ step ∈ pointCoordinatesSteps d side, step.Holds s σ) :
    ∃ X, toPhysical (s.cell side) s.point = .ok X ∧
      Forall₂ σ.Has ((range d.gdim).map (entryName side)) X := by
  have hlength : s.point.length < (s.cell side).cols := by
    rw [hs.point, hs.cols]
    exact Nat.lt_succ_self d.tdim
  refine ⟨_, toPhysical_eq_ok hlength, ?_⟩
  rw [hs.rows, forall₂_map_left_iff, forall₂_map_right_iff, forall₂_same]
  intro g hg
  have hentry := h _ (mem_append_right _ (mem_map.2 ⟨g, hg, rfl⟩))
  refine hentry.pointEntry.of_eq ?_
  -- The code adds the columns of the Jacobian to the first vertex, one by one.
  rw [eval_foldl_add, zip_range, map_map, hs.point]
  refine congrArg₂ (· + ·) rfl (congrArg List.sum (map_congr_left fun t ht => ?_))
  have hjacobian := hasJacobian hj g (mem_range.1 hg) t (mem_range.1 ht)
  change namedJ s σ side g t * s.point[t]?.getD 0 = _
  rw [namedJ, hjacobian.valueOf, Geometry.jacobian, entry_ofFn _ (mem_range.1 hg) (mem_range.1 ht)]
  rfl

end

end Passage

end WeakForm
