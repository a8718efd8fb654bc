import WeakForm.Proofs.PassageNormals
import WeakForm.Proofs.Preludes

/-!
# Geometry code computes the affine geometry

The quantities that geometry code declares are written twice: as formulas in the text of
passages, and as functions of the affine geometry. This module puts the pieces together.
Running the text of a passage behind that of all those it needs declares what the affine
geometry gives for the same cells, the same facet and the same point, for all pairs of
dimensions and both sides of a facet between two cells.

That the text is read as it is meant, and can be run at all, is a matter of names and kinds,
and computed for each passage once (`readable_all`, `scope_chain`). The orientation is the one
passage that changes a name, and it comes last.

## Theorems

* `Passage.complete_singleton`: The chain of a passage is its completion.
* `Passage.execute_program`: The text of a passage is read as its statements.
* `Passage.binds_of_holds`: A passage whose declarations hold declares what it should.
* `Passage.run_turn`: The orientation turns the determinant, or refuses the cell.
* `Passage.run_declares_quantities`: Running a passage declares what the affine geometry gives.
-/

namespace WeakForm

open List Success WeakForm.Geometry Bindings

namespace Passage

/-- A passage behind all those it needs. -/
def chain : Passage → List Passage
  | jacobian => [jacobian]
  | inverseJacobian => [jacobian, inverseJacobian]
  | orientation => [jacobian, inverseJacobian, orientation]
  | scaleFactor => [jacobian, inverseJacobian, scaleFactor]
  | facetDeterminant => [jacobian, facetDeterminant]
  | facetNormal => [jacobian, facetDeterminant, facetNormal]
  | cellVolume => [jacobian, inverseJacobian, cellVolume]
  | circumradius => [jacobian, inverseJacobian, cellVolume, circumradius]
  | facetArea => [jacobian, facetDeterminant, facetArea]
  | pointCoordinates => [jacobian, pointCoordinates]

theorem complete_singleton (p : Passage) : complete [p] = p.chain := by
  rw [complete, mergeSort_singleton]
  cases p <;> simp [visit_eq, required, chain]

/-- What a passage needs needs nothing else, and neither turns the determinant nor sets the scale
    factor. -/
theorem mem_chain {p q : Passage} (h : q ∈ p.chain) :
    q.chain ⊆ p.chain ∧ (q = orientation → p = orientation) ∧
      (q = scaleFactor → p = scaleFactor) := by
  revert q
  cases p <;> decide

/-- The text of a passage, behind that of all those it needs. -/
def program (p : Passage) (d : Dimensions) (side : Option Side) : String :=
  String.join ((complete [p]).map fun q => q.text d side)

def chainStatements (p : Passage) (d : Dimensions) (side : Option Side) : List Statement :=
  p.chain.flatMap fun q => (q.steps d side).flatMap Step.statements

theorem readable_all : ∀ d ∈ Dimensions.all, ∀ p ∈ all,
    ∀ side ∈ [none, some Side.plus, some .minus], (p.steps d side).all Step.isReadable = true := by
  intro d _
  cases d using Dimensions.pairs <;> decide +kernel

theorem scope_chain : ∀ d ∈ Dimensions.all, ∀ side ∈ [none, some Side.plus, some .minus],
    ∀ p ∈ all, p ≠ .orientation → (p = .scaleFactor → side = none) →
    ((Scope.start side).after d (p.chainStatements d side)).isSome = true := by
  intro d _
  cases d using Dimensions.pairs <;> decide +kernel

/-- The statements that turn the determinant, behind the one that names the marker. -/
def turnStatements (side : Option Side) : List Statement :=
  (Step.orientation side).statements.drop 2

theorem scope_marker : ∀ d ∈ Dimensions.all, ∀ side ∈ [none, some Side.plus, some .minus],
    ((Scope.start side).after d (inverseJacobian.chainStatements d side ++
      (Step.orientation side).statements.take 2)).isSome = true := by
  intro d _
  cases d using Dimensions.pairs <;> decide +kernel

theorem execute_program {α : Type} [Scalar α] (p : Passage) (d : Dimensions) (side : Option Side)
    (s : Situation α) (σ : Bindings α) : Cpp.execute s (p.program d side) σ =
      Statement.run s (p.chainStatements d side) (σ, .outside) >>= Cpp.finish := by
  refine Cpp.execute_of_read ?_ σ
  have hreadable : (p.chain.flatMap fun q => q.steps d side).all Step.isReadable = true := by
    rw [all_flatMap, all_eq_true]
    exact fun q _ => readable_all d d.mem_all q (mem_all q) side (mem_sides side)
  have hread := Step.read_steps hreadable
  rw [program, lines_text, complete_singleton]
  simpa only [lines, chainStatements, flatMap_assoc] using hread

section

variable {s : Situation ℝ} {σ : Bindings ℝ} {d : Dimensions} {p : Passage} {side : Option Side}

/-- The determinant of the cell that a passage leaves. On manifold cells the orientation turns
    it. -/
noncomputable def determinant (p : Passage) (d : Dimensions) (s : Situation ℝ) : Except Problem ℝ :=
  let det := (Geometry.inverseJacobian (Geometry.jacobian (s.cell s.side) d) d).1
  if p = orientation ∧ d.isManifold then Geometry.orient det (s.marker s.side) else .ok det

/-- What a passage declares, given the determinant of the cell. -/
def Binds (p : Passage) (d : Dimensions) (s : Situation ℝ) (det : ℝ) (σ : Bindings ℝ) : Prop :=
  let x := s.cell s.side
  let facetCell := s.cell (facetSide s.side)
  let jac := Geometry.jacobian x d
  match p with
  | jacobian => HasJacobian σ d s.side jac
  | inverseJacobian | orientation =>
    HasInverse σ d s.side (det, (Geometry.inverseJacobian jac d).2)
  | scaleFactor => σ.Has "det" |det|
  | facetDeterminant =>
    ∃ c, Geometry.facetDeterminant facetCell d s.facet = .ok c ∧ σ.Has "det" c
  | facetNormal => HasNormal s σ d s.side
  | cellVolume => σ.Has s!"volume{Side.suffix s.side}" (Geometry.cellVolume det d.tdim)
  | circumradius => σ.Has s!"circumradius{Side.suffix s.side}" (Geometry.circumradius x d)
  | facetArea => ∃ c, Geometry.facetDeterminant facetCell d s.facet = .ok c ∧
    σ.Has "facet_area" (Geometry.facetArea c d.tdim)
  | pointCoordinates => ∃ X, Geometry.toPhysical x s.point = .ok X ∧
    List.Forall₂ σ.Has ((List.range d.gdim).map (entryName s.side)) X

theorem holds_of_chain (h : ∀ st ∈ p.chainStatements d side, st.Holds s σ) :
    ∀ q ∈ p.chain, ∀ step ∈ q.steps d side, step.Holds s σ :=
  fun q hq step hstep st hst =>
    h st (mem_flatMap.2 ⟨q, hq, mem_flatMap.2 ⟨step, hstep, hst⟩⟩)

theorem holds_of_scope (hs : s.Fits d) {sts : List Statement}
    (h : ((Scope.start s.side).after d sts).isSome = true) :
    ∃ σ, Statement.run s sts (start s, .outside) = .ok (σ, .outside) ∧
      σ.get Binding.vertex? (Cpp.facetVariable (facetSide s.side)) = some s.facet ∧
      ∀ st ∈ sts, st.Holds s σ := by
  rcases Option.isSome_iff_exists.1 h with ⟨Γ, hΓ⟩
  rcases run_of_scope hs (Scope.covers_start hs) hΓ with ⟨σ, hrun, hextends, hholds, _⟩
  refine ⟨σ, hrun, hextends.get ?_, hholds⟩
  rw [Bindings.get, start, if_pos rfl]
  rfl

theorem binds_of_holds (hs : s.Fits d)
    (hcell : (Geometry.inverseJacobian (Geometry.jacobian (s.cell (facetSide s.side)) d) d).1 ≠ 0)
    (hfacet : σ.get Binding.vertex? (Cpp.facetVariable (facetSide s.side)) = some s.facet)
    (hp : p ≠ orientation) (hscale : p = scaleFactor → s.side = none)
    (h : ∀ st ∈ p.chainStatements d s.side, st.Holds s σ) :
    p.Binds d s (Geometry.inverseJacobian (Geometry.jacobian (s.cell s.side) d) d).1 σ := by
  have hchain := holds_of_chain h
  cases p with
  | jacobian => exact hasJacobian (hchain jacobian (by decide))
  | inverseJacobian =>
    exact hasInverse (hchain jacobian (by decide)) (hchain inverseJacobian (by decide))
  | orientation => exact absurd rfl hp
  | scaleFactor =>
    -- The scale factor is read from the determinant without a side.
    have hdet := (hasInverse (hchain jacobian (by decide)) (hchain inverseJacobian (by decide))).1
    rw [Binds]
    generalize (Geometry.inverseJacobian (Geometry.jacobian (s.cell s.side) d) d).1 = det at *
    rw [hscale rfl] at hdet
    exact has_scale (d := d) (hchain scaleFactor (by decide)) hdet
  | facetDeterminant =>
    exact has_facetDeterminant hs hfacet (hchain facetDeterminant (by decide))
  | facetNormal =>
    exact hasNormal hfacet hs hcell (hchain facetDeterminant (by decide))
      (hchain facetNormal (by decide))
  | cellVolume =>
    have hdet := (hasInverse (hchain jacobian (by decide)) (hchain inverseJacobian (by decide))).1
    exact has_volume (hchain cellVolume (by decide)) hdet
  | circumradius =>
    have hdet := (hasInverse (hchain jacobian (by decide)) (hchain inverseJacobian (by decide))).1
    exact has_circumradius (hs.rows s.side) (hchain circumradius (by decide)) hdet
      (has_volume (hchain cellVolume (by decide)) hdet)
  | facetArea =>
    rcases has_facetDeterminant hs hfacet (hchain facetDeterminant (by decide)) with ⟨c, hc, hdet⟩
    exact ⟨c, hc, has_facetArea (hchain facetArea (by decide)) hdet⟩
  | pointCoordinates =>
    exact has_point hs (hchain jacobian (by decide)) (hchain pointCoordinates (by decide))

theorem changeable_of_holds (hd : d.isManifold = true)
    (h : ∀ step ∈ inverseJacobianSteps d side, step.Holds s σ) {det : ℝ}
    (hdet : σ.Has (nameDet side) det) : σ (nameDet side) = some (.scalar det false) := by
  have hdefined : ∃ x, σ (nameDet side) = some (.scalar x false) := by
    have hforall := forall_iff_forall_mem.2 h
    cases d using Dimensions.pairs with
    | line | plane | solid => cases hd
    | planeCurve | spaceCurve => exact ⟨_, hforall.2.2.1.define⟩
    | surface => exact ⟨_, hforall.2.2.2.2.2.1.define⟩
  rcases hdefined with ⟨x, hx⟩
  rw [Has, Bindings.get, hx] at hdet
  rw [hx, Option.some.inj hdet]

/-- Behind the name of the marker, the text multiplies the determinant or throws a text as the
    affine geometry turns it or refuses the cell. -/
theorem run_turn {x : ℝ} {marker : Int}
    (hmarker : σ (Step.markerName side) = some (.marker marker))
    (hx : σ (nameDet side) = some (.scalar x false)) :
    Statement.run s (turnStatements side) (σ, .outside) >>= Cpp.finish =
      match orient x marker with
      | .error e => .error (.thrown e.message)
      | .ok det => .ok (σ.set (nameDet side) (.scalar det false)) := by
  have hmarks : ∀ value : Nat,
      σ.marks (Step.markerName side) value = .ok (decide (marker = value)) := by
    intro value
    rw [Bindings.marks, Bindings.get, hmarker]
    rfl
  have hscale : Statement.perform s σ (.scale (nameDet side) (-1)) =
      .ok (σ.set (nameDet side) (.scalar (-x) false)) := by
    have hdet : WeakForm.declared (σ.get Binding.changeable? (nameDet side)) = .ok x := by
      rw [Bindings.get, hx]
      rfl
    rw [Statement.perform, hdet]
    refine congrArg (fun y => Except.ok (σ.set (nameDet side) (.scalar y false))) ?_
    rw [if_pos (by decide), ofNat_eq]
    norm_num
  have hsame : σ.set (nameDet side) (.scalar x false) = σ := by
    funext n
    rw [Bindings.set]
    split
    · next hn => rw [hn, hx]
    · rfl
  have hfirst : Statement.step s (σ, .outside) (.condition false (Step.markerName side) 0) =
      .ok (σ, .under (decide (marker = 0)) (decide (marker = 0))) :=
    Statement.step_condition (hmarks 0)
  rw [turnStatements, Step.statements, orient]
  by_cases hzero : marker = 0
  · rw [decide_eq_true hzero] at hfirst
    rw [if_pos hzero, List.drop, List.drop, List.drop, Statement.run, foldlM_cons, hfirst]
    rfl
  · rw [decide_eq_false hzero] at hfirst
    have helse : Statement.step s (σ, .behind false) (.condition true (Step.markerName side) 1) =
        .ok (σ, .under (decide (marker = 1)) (decide (marker = 1))) :=
      Statement.step_else false (hmarks 1)
    have hlast : Statement.step s (σ, .under (decide (marker = 1)) (decide (marker = 1)))
        (.scale (nameDet side) (-1)) =
          .ok (σ.set (nameDet side) (.scalar (if marker = 1 then -x else x) false),
            .behind (decide (marker = 1))) := by
      by_cases hone : marker = 1
      · rw [decide_eq_true hone, if_pos hone, Statement.step_under_true rfl, hscale]
        rfl
      · rw [decide_eq_false hone, if_neg hone, hsame, Statement.step_under_false rfl]
    have hvalue : (if marker = 1 then .ok (-x) else .ok x : Except Problem ℝ) =
        .ok (if marker = 1 then -x else x) := (apply_ite Except.ok _ _ _).symm
    rw [if_neg hzero, hvalue]
    refine bind_eq_ok.2 ⟨(_, .behind (decide (marker = 1))), ?_, rfl⟩
    refine foldlM_cons_eq_ok.2 ⟨_, hfirst, foldlM_cons_eq_ok.2 ⟨(σ, .behind false), rfl, ?_⟩⟩
    refine foldlM_cons_eq_ok.2 ⟨_, rfl, foldlM_cons_eq_ok.2 ⟨_, helse, ?_⟩⟩
    exact foldlM_cons_eq_ok.2 ⟨_, hlast, rfl⟩

theorem has_set {name : String} {b : Binding ℝ} {n : String} {x : ℝ} (hn : n ≠ name)
    (h : σ.Has n x) : (σ.set name b).Has n x := by
  rwa [Has, Bindings.get, Bindings.set, if_neg hn]

theorem symbol_ne_nameDet {symbol : Symbol} (h : symbol.OneDigit) (hne : symbol ≠ .determinant side) :
    Cpp.symbol symbol ≠ nameDet side := by
  intro heq
  have hread := Cpp.symbolOf?_symbol h
  rw [heq, nameDet, Cpp.symbolOf?_symbol (s := .determinant side) trivial] at hread
  exact hne (Option.some.inj hread).symm

theorem hasInverse_set {jac : Grid ℝ} {inverse : ℝ × Grid ℝ} (det : ℝ)
    (hj : HasJacobian σ d side jac) (h : HasInverse σ d side inverse) :
    HasJacobian (σ.set (nameDet side) (.scalar det false)) d side jac ∧
      HasInverse (σ.set (nameDet side) (.scalar det false)) d side (det, inverse.2) := by
  have hdigit : ∀ {i}, i < d.gdim → i < 10 := fun hi => hi.trans_le (d.gdim_le.trans (by decide))
  have hdigit' : ∀ {i}, i < d.tdim → i < 10 := fun hi => hdigit (hi.trans_le d.tdim_le)
  refine ⟨?_, ?_, ?_⟩
  · intro g hg t ht
    exact has_set (symbol_ne_nameDet ⟨hdigit hg, hdigit' ht⟩ (by simp)) (hj g hg t ht)
  · rw [Has, Bindings.get, Bindings.set, if_pos rfl]
    rfl
  · intro t ht g hg
    exact has_set (symbol_ne_nameDet ⟨hdigit' ht, hdigit hg⟩ (by simp)) (h.2 t ht g hg)

theorem chainStatements_orientation (d : Dimensions) (side : Option Side) :
    orientation.chainStatements d side = inverseJacobian.chainStatements d side ++
      if d.isManifold then (Step.orientation side).statements else [] := by
  by_cases hd : d.isManifold = true <;> simp [chainStatements, chain, steps, hd]

/-- What the orientation and the passages it needs declare has to do with the Jacobian, its inverse
    and the determinant only. -/
theorem binds_of_mem_chain_orientation {det : ℝ}
    (hj : HasJacobian σ d s.side (Geometry.jacobian (s.cell s.side) d))
    (hinverse : HasInverse σ d s.side
      (det, (Geometry.inverseJacobian (Geometry.jacobian (s.cell s.side) d) d).2)) :
    ∀ q ∈ orientation.chain, q.Binds d s det σ := by
  intro q hq
  simp only [chain, mem_cons, not_mem_nil, or_false] at hq
  rcases hq with rfl | rfl | rfl
  · exact hj
  · exact hinverse
  · exact hinverse

/-- Behind the inverse Jacobian the orientation changes the determinant, or nothing. -/
theorem execute_orientation (hs : s.Fits d) : match orientation.determinant d s with
    | .error e => Cpp.execute s (orientation.program d s.side) (start s) =
        .error (.thrown e.message)
    | .ok det => ∃ σ, Cpp.execute s (orientation.program d s.side) (start s) = .ok σ ∧
        ∀ q ∈ orientation.chain, q.Binds d s det σ := by
  rw [execute_program, chainStatements_orientation, determinant]
  by_cases hd : d.isManifold = true
  · rcases holds_of_scope hs (scope_marker d d.mem_all s.side (mem_sides s.side)) with
      ⟨σ, hrun, _, hholds⟩
    have hchain := holds_of_chain fun st hst => hholds st (mem_append_left _ hst)
    have hj := hasJacobian (hchain jacobian (by decide))
    have hinverse := hasInverse (hchain jacobian (by decide)) (hchain inverseJacobian (by decide))
    have hmarker : σ (Step.markerName s.side) = some (.marker (s.marker s.side)) := by
      rcases hholds (.marker (Step.markerName s.side) s.side)
        (mem_append_right _ (by simp [Step.statements])) with ⟨o, ho, hσ⟩
      cases ho
      exact hσ _ rfl
    have hturn := run_turn (s := s) hmarker
      (changeable_of_holds hd (hchain inverseJacobian (by decide)) hinverse.1)
    rw [if_pos hd, if_pos ⟨rfl, hd⟩, ← take_append_drop 2 (Step.orientation s.side).statements,
      ← append_assoc, Statement.run, foldlM_append, ← Statement.run, hrun]
    cases horient : orient (Geometry.inverseJacobian (Geometry.jacobian (s.cell s.side) d) d).1
        (s.marker s.side) with
    | error e =>
      rw [horient] at hturn
      exact hturn
    | ok det =>
      rw [horient] at hturn
      rcases hasInverse_set det hj hinverse with ⟨hj, hinverse⟩
      exact ⟨_, hturn, binds_of_mem_chain_orientation hj hinverse⟩
  · rcases holds_of_scope hs (scope_chain d d.mem_all s.side (mem_sides s.side) inverseJacobian
      (mem_all _) (by decide) fun h => absurd h (by decide)) with ⟨σ, hrun, _, hholds⟩
    have hchain := holds_of_chain hholds
    rw [if_neg hd, if_neg fun h => hd h.2, append_nil, hrun]
    exact ⟨σ, rfl, binds_of_mem_chain_orientation (hasJacobian (hchain jacobian (by decide)))
      (hasInverse (hchain jacobian (by decide)) (hchain inverseJacobian (by decide)))⟩

/-- Running the text of a passage, behind that of all those it needs, declares what the affine
    geometry gives. A cell without orientation is refused where the orientation matters, and
    nowhere else. -/
theorem run_declares_quantities (p : Passage) (d : Dimensions) (s : Situation ℝ) (hs : s.Fits d)
    (hcell : (Geometry.inverseJacobian (Geometry.jacobian (s.cell (facetSide s.side)) d) d).1 ≠ 0)
    (hscale : p = scaleFactor → s.side = none) :
    match p.determinant d s with
    | .error e =>
      Cpp.execute s (p.program d s.side) (Bindings.start s) = .error (.thrown e.message)
    | .ok det =>
      ∃ σ, Cpp.execute s (p.program d s.side) (Bindings.start s) = .ok σ ∧
        ∀ q ∈ complete [p], q.Binds d s det σ := by
  rw [complete_singleton]
  by_cases hp : p = orientation
  · subst hp
    exact execute_orientation hs
  · have hdet : p.determinant d s =
        .ok (Geometry.inverseJacobian (Geometry.jacobian (s.cell s.side) d) d).1 :=
      if_neg fun h => hp h.1
    rw [hdet]
    have hscope := scope_chain d d.mem_all s.side (mem_sides s.side) p (mem_all p) hp hscale
    rcases holds_of_scope hs hscope with ⟨σ, hrun, hfacet, hholds⟩
    refine ⟨σ, ?_, fun q hq => ?_⟩
    · rw [execute_program, hrun]
      rfl
    -- What an earlier passage of the chain declares rests on a part of the chain.
    · rcases mem_chain hq with ⟨hsubset, horientation, hscaleFactor⟩
      refine binds_of_holds hs hcell hfacet (fun h => hp (horientation h))
        (fun h => hscale (hscaleFactor h)) fun st hst => ?_
      rcases List.mem_flatMap.1 hst with ⟨r, hr, hst⟩
      exact hholds st (List.mem_flatMap.2 ⟨r, hsubset hr, hst⟩)

end

/-- The minus side of an edge between two triangles in space, of which the one on the plus side has
    the edge opposite to its second vertex. -/
noncomputable def ridge : Situation ℝ where
  side := some .minus
  cell
    | some .minus => Grid.ofFn 3 3 fun g v => if v + g = 3 then 1 else 0
    | _ => Grid.ofFn 3 3 fun g v => if v = g + 1 then 1 else 0
  facet := 1
  marker := fun _ => 0
  point := [0, 0]

theorem run_declares_quantities_ridge :
    ridge.Fits .surface ∧
      (Geometry.inverseJacobian
        (Geometry.jacobian (ridge.cell (facetSide ridge.side)) .surface) .surface).1 ≠ 0 ∧
      ∃ σ, Cpp.execute ridge (facetNormal.program .surface ridge.side) (Bindings.start ridge) =
          .ok σ ∧
        ∀ q ∈ complete [facetNormal], q.Binds .surface ridge (Geometry.inverseJacobian
          (Geometry.jacobian (ridge.cell ridge.side) .surface) .surface).1 σ := by
  have hfits : ridge.Fits .surface := by
    refine ⟨?_, ?_, by decide, rfl⟩ <;> rintro (_ | _ | _) <;> rfl
  have hcell : (Geometry.inverseJacobian
      (Geometry.jacobian (ridge.cell (facetSide ridge.side)) .surface) .surface).1 ≠ 0 := by
    have hrows : (ridge.cell (facetSide ridge.side)).rows = 3 := rfl
    have hentry : ∀ g < 3, ∀ v < 3,
        (ridge.cell (facetSide ridge.side)).entry g v = if v = g + 1 then 1 else 0 :=
      fun g hg v hv => Grid.entry_ofFn _ hg hv
    rw [Geometry.inverseJacobian_surface hrows]
    refine (Geometry.norm_pos_of_dot_ne_zero (b := [0, 0, 1]) rfl rfl ?_).ne'
    simp (disch := decide) only [Geometry.edge_three hrows, Geometry.cross_three,
      Geometry.dot_three, hentry]
    norm_num
  exact ⟨hfits, hcell, run_declares_quantities facetNormal _ ridge hfits hcell nofun⟩

end Passage

end WeakForm
