import WeakForm.Code.Quadrature
import WeakForm.Proofs.Success

/-!
# Arranged factors and their tables

Everything that is generated for a monomial starts with its factors in the order of the
arguments. A monomial that fits its form has one factor for each argument, with its
component and axes in range and a side exactly on interior facets; the lemmas here say
so once, in the form that later arguments read it.

The tables of a monomial come with the points they were tabulated at and the offset of
their entries. Both depend on the side of the factor only, which `placement` expresses.

## Theorems

* `Form.checkFactors_eq_ok`: All factors of a checked monomial fit.
* `quadratureTerm_eq_ok`: What the tables of a monomial consist of.
-/

namespace WeakForm

open List Success

namespace Form

variable {α : Type} {f : Form α} {d : Dimensions} {m : Monomial α} {factors : List Factor}
  {before : List Factor} {u : Unit} (h : f.arrange m = .ok factors)

/-- A factor that refers to an argument on the cell of the form, with component and axes in
    range, and with a side exactly on interior facets. -/
structure Fits (f : Form α) (d : Dimensions) (integral : Integral) (factor : Factor) (e : Element) :
    Prop where
  argument : f.arguments[factor.argument]? = some e
  cell : e.cell = f.cell
  component : ∃ size, e.physicalSize = .ok size ∧ factor.component < max size 1
  axes : ∀ axis ∈ factor.derivatives, axis < d.gdim
  side : factor.side.isSome = decide (integral = .interiorFacet)

theorem tdim_eq (h : f.dims = .ok d) : f.cell.dimension = d.tdim := by
  unfold dims Dimensions.of at h
  split at h
  · rw [← Except.ok.inj h]
  · cases h

theorem checkFactor_eq_ok {factor : Factor} (h : f.checkFactor d m before factor = .ok u) :
    ∃ e, f.Fits d m.integral factor e := by
  unfold checkFactor at h
  simp only at h
  split at h
  · cases h
  -- Each check either throws or leaves its condition behind.
  · next e he =>
    split at h
    · cases h
    · next hcell =>
      split at h
      · cases h
      · rcases bind_eq_ok.1 h with ⟨size, hsize, hrest⟩
        split at hrest
        · cases hrest
        · next hcomponent =>
          split at hrest
          · cases hrest
          · next haxes =>
            split at hrest
            · next hside =>
              refine ⟨e, he, not_not.1 hcell, ⟨size, lift_fault_eq_ok.1 hsize, Nat.not_le.1 hcomponent⟩,
                ?_, hside⟩
              intro axis haxis
              rw [find?_eq_none] at haxes
              exact Nat.not_le.1 fun hle => haxes axis haxis (decide_eq_true hle)
            · cases hrest

theorem checkFactors_eq_ok (h : f.checkFactors d m before factors = .ok u) :
    ∀ factor ∈ factors, ∃ e, f.Fits d m.integral factor e := by
  induction factors generalizing before u with
  | nil =>
    intro factor hfactor
    cases hfactor
  | cons x xs ih =>
    rw [checkFactors] at h
    rcases bind_eq_ok.1 h with ⟨_, hx, hrest⟩
    intro factor hfactor
    rcases mem_cons.1 hfactor with rfl | hfactor
    · exact checkFactor_eq_ok hx
    · exact ih hrest factor hfactor

include h

theorem arrange_find :
    Forall₂ (fun k factor => m.factors.find? (fun x => x.argument = k) = some factor)
      (range f.rank) factors := by
  rcases bind_eq_ok.1 h with ⟨_, _, h⟩
  rcases bind_eq_ok.1 h with ⟨_, _, h⟩
  refine (mapM_eq_ok.1 h).imp fun k factor hk => ?_
  split at hk
  · next x hx =>
    rw [hx, Except.ok.inj hk]
  · cases hk

theorem arrange_arguments : factors.map Factor.argument = range f.rank := by
  rw [← forall₂_eq_eq_eq, forall₂_map_left_iff]
  refine (arrange_find h).flip.imp fun factor k hk => ?_
  have hargument := find?_some hk
  exact of_decide_eq_true hargument

theorem mem_of_mem_arrange : ∀ factor ∈ factors, factor ∈ m.factors :=
  forall₂_left (arrange_find h).flip fun _ _ hk => mem_of_find?_eq_some hk

omit h in
/-- The factors of a monomial that fits its form: one for each argument, in their order. -/
theorem arrange_eq_ok (hd : f.dims = .ok d) (h : f.arrange m = .ok factors) :
    factors.map Factor.argument = range f.rank ∧
      ∀ factor ∈ factors, ∃ e, f.Fits d m.integral factor e := by
  refine ⟨arrange_arguments h, fun factor hfactor => ?_⟩
  have hmem := mem_of_mem_arrange h factor hfactor
  rcases bind_eq_ok.1 h with ⟨d', hd', h⟩
  rw [lift_problem_eq_ok, hd] at hd'
  cases hd'
  rcases bind_eq_ok.1 h with ⟨_, hcheck, _⟩
  exact checkFactors_eq_ok hcheck factor hmem

end Form

section

variable {α : Type}

/-- The points that a factor is tabulated at, and the offset of its entries: factors on the minus
    side have their own points, and entries behind those of the plus side. -/
def placement (e : Element) (rule : Rule α) (minus : Option (Rule α)) (side : Option Side) :
    List (List α) × Nat :=
  match side, minus with
  | some .minus, some minus => (minus.points, e.spaceDimension)
  | _, _ => (rule.points, 0)

/-- Without a second cell all factors have the points of the rule, and no offset. -/
theorem placement_none (e : Element) (rule : Rule α) (side : Option Side) :
    placement e rule none side = (rule.points, 0) := by
  rcases side with _ | (_ | _) <;> rfl

variable [Scalar α]

theorem quadratureTerm_eq_ok {s : Setting α} {f : Form α} {d : Dimensions} {m : Monomial α}
    {facets : Facets} {t : TermTables α} (h : quadratureTerm s f d m facets = .ok t) :
    ∃ factors degree rule minus, f.arrange m = .ok factors ∧ f.quadratureDegree m = .ok degree ∧
      Rule.reference s.gauss f.cell facets.1 degree = .ok rule ∧
      facets.2.mapM (fun facet => Rule.reference s.gauss f.cell (some facet) degree) = .ok minus ∧
      t.weights = rule.weights ∧ Forall₂ (fun factor (x : List (ScaledTable α) × Nat) =>
        ∃ e reference, f.arguments[factor.argument]? = some e ∧
          x.2 = (placement e rule minus factor.side).2 ∧
          s.tabulator e (placement e rule minus factor.side).1 factor.order = .ok reference ∧
          expandFactor e factor reference d s.options.epsilon = .ok x.1) factors t.factors := by
  unfold quadratureTerm at h
  rcases bind_eq_ok.1 h with ⟨factors, hfactors, h⟩
  rcases bind_eq_ok.1 h with ⟨degree, hdegree, h⟩
  rcases bind_eq_ok.1 h with ⟨_, _, h⟩
  rcases bind_eq_ok.1 h with ⟨rule, hrule, h⟩
  rcases bind_eq_ok.1 h with ⟨minus, hminus, h⟩
  rcases bind_eq_ok.1 h with ⟨tables, htables, h⟩
  rw [pure_eq_ok] at h
  refine ⟨factors, degree, rule, minus, hfactors, lift_fault_eq_ok.1 hdegree, hrule, hminus, ?_, ?_⟩
  · rw [← h]
  · rw [← h]
    refine (mapM_eq_ok.1 htables).imp fun factor x hx => ?_
    rcases bind_eq_ok.1 hx with ⟨e, he, hx⟩
    rcases bind_eq_ok.1 hx with ⟨reference, hreference, hx⟩
    rcases bind_eq_ok.1 hx with ⟨expanded, hexpanded, hx⟩
    cases hx
    exact ⟨e, reference, entryAt_eq_ok.1 (lift_fault_eq_ok.1 he), rfl, hreference, hexpanded⟩

end
end WeakForm
