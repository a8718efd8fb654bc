import WeakForm.Proofs.Independence
import WeakForm.Proofs.Representations
import WeakForm.Proofs.SoundTables

/-!
# The order of factors

A product does not depend on the order of its factors, and neither does anything that is
generated for it. A monomial is checked factor by factor, with an early end at the first
defect and with missing arguments noticed only behind the last factor, so which defect is
reported does depend on the order. Whether there is one does not: the monomials that pass are
those whose factors are the arguments in some order, each of them in range (`Accepts`). This
is a condition on the factors as a collection.

From there on the order is gone. The arranged factors are known from the collection, since
each of them is the only one of its argument, and the degree of a monomial is a sum. A
monomial is met through its arranged factors, its degree and what is not a factor
(`Interchangeable`), so replacing it by one with the same factors changes no routine.

## Main definitions

* `Form.Accepts`: The monomials that fit a form, whatever the order of their factors.

## Theorems

* `Form.checkFactors_eq_ok_iff`: What checking the factors one by one amounts to.
* `Form.arrange_iff`: The monomials that can be arranged are those that fit.
* `Form.arrange_filter`: An arranged factor is the only one of its argument.
* `Form.interchangeable_of_reordered`: The order of factors is not met.
* `Compiler.compile_interchangeable`: Interchangeable monomials have equal routines.
* `Form.accepts_in_any_order`: Validation, degrees and routines ignore the order.
-/

namespace WeakForm

open List Success

theorem Size.sum_eq_ofNat (ns : List Nat) : Size.sum ns = Size.ofNat ns.sum := by
  have hloop : ∀ (ns : List Nat) (start : Nat), start < Size.limit →
      ns.foldlM Size.add start = Size.ofNat (start + ns.sum) := by
    intro ns
    induction ns with
    | nil =>
      intro start hstart
      exact (if_pos hstart).symm
    | cons n ns ih =>
      intro start _
      rw [foldlM_cons, sum_cons, ← Nat.add_assoc]
      by_cases hfits : start + n < Size.limit
      · rw [Size.add, Size.ofNat, if_pos hfits]
        exact ih (start + n) hfits
      -- What is too large already does not become smaller.
      · rw [Size.add, Size.ofNat, if_neg hfits, Size.ofNat, if_neg (by omega)]
        rfl
  rw [Size.sum, hloop ns 0 (by decide), Nat.zero_add]

namespace Form

variable {α : Type} {f : Form α} {d : Dimensions} {m : Monomial α} {factor : Factor}
  {factors : List Factor}

/-! ## What the check establishes -/

theorem checkFactor_eq_ok_iff {before : List Factor} : f.checkFactor d m before factor = .ok () ↔
      (∃ e, f.Fits d m.integral factor e) ∧ ∀ other ∈ before, other.argument ≠ factor.argument := by
  constructor
  · intro h
    refine ⟨checkFactor_eq_ok h, ?_⟩
    -- The repetition is looked for before anything is read off the element.
    unfold checkFactor at h
    simp only at h
    split at h
    · cases h
    · split at h
      · cases h
      · split at h
        · cases h
        · next hnew =>
          intro other hother hsame
          exact hnew (any_eq_true.2 ⟨other, hother, decide_eq_true hsame⟩)
  · rintro ⟨⟨e, hfits⟩, hnew⟩
    rcases hfits.component with ⟨size, hsize, hcomponent⟩
    have hfirst : (before.any fun other => other.argument = factor.argument) = false := by
      rw [any_eq_false]
      exact fun other hother hsame => hnew other hother (of_decide_eq_true hsame)
    have haxes : (factor.derivatives.find? fun axis => d.gdim ≤ axis) = none := by
      rw [find?_eq_none]
      exact fun axis haxis hle => Nat.not_le.2 (hfits.axes axis haxis) (of_decide_eq_true hle)
    unfold checkFactor
    simp only [hfits.argument]
    rw [if_neg (not_not.2 hfits.cell), hfirst, if_neg Bool.false_ne_true]
    refine bind_eq_ok.2 ⟨size, lift_fault_eq_ok.2 hsize, ?_⟩
    rw [if_neg (Nat.not_le.2 hcomponent), haxes]
    exact if_pos hfits.side

theorem checkFactors_eq_ok_iff {before : List Factor} : f.checkFactors d m before factors = .ok () ↔
      (∀ factor ∈ factors, (∃ e, f.Fits d m.integral factor e) ∧
        ∀ other ∈ before, other.argument ≠ factor.argument) ∧
      (factors.map Factor.argument).Nodup := by
  induction factors generalizing before with
  | nil => simp [checkFactors]
  | cons x xs ih =>
    rw [checkFactors, bind_eq_ok, forall_mem_cons, map_cons, nodup_cons]
    constructor
    · rintro ⟨_, hx, hxs⟩
      rcases ih.1 hxs with ⟨hfits, hnodup⟩
      refine ⟨⟨checkFactor_eq_ok_iff.1 hx, fun factor hfactor => ?_⟩, fun hmem => ?_, hnodup⟩
      · refine ⟨(hfits factor hfactor).1, fun other hother => ?_⟩
        exact (hfits factor hfactor).2 other (mem_append_left [x] hother)
      · rcases mem_map.1 hmem with ⟨y, hy, hsame⟩
        exact (hfits y hy).2 x (mem_append_right before mem_cons_self) hsame.symm
    · rintro ⟨⟨hx, hxs⟩, hnew, hnodup⟩
      refine ⟨(), checkFactor_eq_ok_iff.2 hx, ih.2 ⟨fun factor hfactor => ?_, hnodup⟩⟩
      refine ⟨(hxs factor hfactor).1, fun other hother => ?_⟩
      rcases mem_append.1 hother with hother | hother
      · exact (hxs factor hfactor).2 other hother
      · rw [mem_singleton.1 hother]
        exact fun hsame => hnew (mem_map.2 ⟨factor, hfactor, hsame.symm⟩)

/-! ## The monomials that fit -/

/-- A monomial that fits a form: the dimensions of the form are supported, the factors are the
    arguments in some order, and each factor is on the cell of the form, with component and axes in
    range and with a side exactly on interior facets. -/
structure Accepts (f : Form α) (m : Monomial α) : Prop where
  dims : 1 ≤ f.cell.dimension ∧ f.cell.dimension ≤ f.geometricDimension ∧ f.geometricDimension ≤ 3
  arguments : (m.factors.map Factor.argument).Perm (List.range f.rank)
  cell : ∀ factor ∈ m.factors, ∀ e, f.arguments[factor.argument]? = some e → e.cell = f.cell
  component : ∀ factor ∈ m.factors, ∀ e, f.arguments[factor.argument]? = some e →
    ∃ size, e.physicalSize = .ok size ∧ factor.component < max 1 size
  axes : ∀ factor ∈ m.factors, ∀ axis ∈ factor.derivatives, axis < f.geometricDimension
  side : ∀ factor ∈ m.factors, factor.side.isSome ↔ m.integral = .interiorFacet

theorem Accepts.dims_eq_ok (h : f.Accepts m) :
    f.dims = .ok ⟨f.cell.dimension, f.geometricDimension, h.dims.1, h.dims.2.1, h.dims.2.2⟩ :=
  dif_pos h.dims

theorem Accepts.fits (h : f.Accepts m) (hd : f.dims = .ok d) (hfactor : factor ∈ m.factors) :
    ∃ e, f.Fits d m.integral factor e := by
  have hargument : factor.argument < f.arguments.length :=
    mem_range.1 (h.arguments.mem_iff.1 (mem_map_of_mem hfactor))
  have he := getElem?_eq_getElem hargument
  rcases h.component factor hfactor _ he with ⟨size, hsize, hcomponent⟩
  rw [h.dims_eq_ok] at hd
  cases hd
  refine ⟨_, he, h.cell factor hfactor _ he, ⟨size, hsize, max_comm 1 size ▸ hcomponent⟩,
    h.axes factor hfactor, ?_⟩
  rw [Bool.eq_iff_iff, decide_eq_true_iff]
  exact h.side factor hfactor

/-- Factors with pairwise different arguments, and the only one of an argument. -/
theorem filter_argument (h : (factors.map Factor.argument).Nodup) (hfactor : factor ∈ factors) :
    factors.filter (fun x => x.argument = factor.argument) = [factor] := by
  induction factors with
  | nil => cases hfactor
  | cons x xs ih =>
    rw [map_cons, nodup_cons] at h
    rcases mem_cons.1 hfactor with rfl | hmem
    · have hothers : xs.filter (fun x => x.argument = factor.argument) = [] := by
        rw [filter_eq_nil_iff]
        exact fun y hy hsame => h.1 (mem_map.2 ⟨y, hy, of_decide_eq_true hsame⟩)
      rw [filter_cons, hothers, decide_eq_true rfl, if_pos rfl]
    · have hother : x.argument ≠ factor.argument :=
        fun hsame => h.1 (mem_map.2 ⟨factor, hmem, hsame.symm⟩)
      rw [filter_cons, decide_eq_false hother, if_neg Bool.false_ne_true, ih h.2 hmem]

theorem arrange_iff : (∃ factors, f.arrange m = .ok factors) ↔ f.Accepts m := by
  constructor
  · rintro ⟨factors, h⟩
    have harguments := arrange_arguments h
    have hsubset := mem_of_mem_arrange h
    rcases bind_eq_ok.1 h with ⟨d, hd, h⟩
    rcases bind_eq_ok.1 h with ⟨_, hcheck, _⟩
    rw [lift_problem_eq_ok] at hd
    rcases checkFactors_eq_ok_iff.1 hcheck with ⟨hchecked, hnodup⟩
    have hfits := fun factor hfactor => (hchecked factor hfactor).1
    have htdim := tdim_eq hd
    have hgdim := gdim_eq hd
    refine ⟨?_, ?_, ?_, ?_, ?_, ?_⟩
    · rw [htdim, hgdim]
      exact ⟨d.tdim_pos, d.tdim_le, d.gdim_le⟩
    -- No argument occurs twice, none is missing, and there are no others.
    · refine (perm_ext_iff_of_nodup hnodup nodup_range).2 fun k => ?_
      constructor
      · intro hk
        rcases mem_map.1 hk with ⟨factor, hfactor, rfl⟩
        rcases hfits factor hfactor with ⟨e, hfits⟩
        exact mem_range.2 (List.getElem?_eq_some_iff.1 hfits.argument).1
      · intro hk
        rw [← harguments] at hk
        rcases mem_map.1 hk with ⟨factor, hfactor, rfl⟩
        exact mem_map_of_mem (hsubset factor hfactor)
    · intro factor hfactor e he
      rcases hfits factor hfactor with ⟨e', hfits⟩
      rw [hfits.argument, Option.some.injEq] at he
      exact he ▸ hfits.cell
    · intro factor hfactor e he
      rcases hfits factor hfactor with ⟨e', hfits⟩
      rw [hfits.argument] at he
      cases he
      simpa only [max_comm] using hfits.component
    · intro factor hfactor
      rcases hfits factor hfactor with ⟨e, hfits⟩
      rw [hgdim]
      exact hfits.axes
    · intro factor hfactor
      rcases hfits factor hfactor with ⟨e, hfits⟩
      rw [hfits.side, decide_eq_true_iff]
  · intro h
    have hnodup : (m.factors.map Factor.argument).Nodup :=
      h.arguments.nodup_iff.2 nodup_range
    have hcheck := checkFactors_eq_ok_iff.2 ⟨fun factor hfactor =>
      ⟨h.fits h.dims_eq_ok hfactor, fun other hother => absurd hother not_mem_nil⟩, hnodup⟩
    have hfound : ∀ k ∈ range f.rank, ∃ factor,
        (m.factors.find? fun x => x.argument = k) = some factor := by
      intro k hk
      rcases mem_map.1 (h.arguments.mem_iff.2 hk) with ⟨factor, hfactor, rfl⟩
      refine ⟨factor, ?_⟩
      rw [← head?_filter, filter_argument hnodup hfactor, head?_cons]
    unfold arrange
    simp only [bind_eq_ok, lift_problem_eq_ok]
    refine exists_comm.1 ⟨_, exists_and_left.2 ⟨h.dims_eq_ok, ?_⟩⟩
    refine exists_comm.1 ⟨(), exists_and_left.2 ⟨hcheck, mapM_exists _ _ fun k hk => ?_⟩⟩
    rcases hfound k hk with ⟨factor, hfactor⟩
    exact ⟨factor, by rw [hfactor]⟩

theorem arrange_filter (h : f.arrange m = .ok factors) :
    factors.length = f.rank ∧ ∀ k < f.rank, ∃ factor, factors[k]? = some factor ∧
      m.factors.filter (fun x => x.argument = k) = [factor] := by
  have hnodup : (m.factors.map Factor.argument).Nodup :=
    (arrange_iff.1 ⟨factors, h⟩).arguments.nodup_iff.2 nodup_range
  have hfind := arrange_find h
  refine ⟨by rw [← hfind.length_eq, length_range], fun k hk => ?_⟩
  rcases forall₂_get hfind (getElem?_range hk) with ⟨factor, hfactor, hfound⟩
  have hargument : factor.argument = k := of_decide_eq_true (find?_some hfound :)
  refine ⟨factor, hfactor, ?_⟩
  rw [← hargument]
  exact filter_argument hnodup (mem_of_find?_eq_some hfound)

/-! ## Monomials with their factors in another order -/

/-- A monomial, or one that fits with its factors in another order. -/
def Reordered (f : Form α) (m m' : Monomial α) : Prop :=
  m' = m ∨ f.Accepts m ∧ ∃ factors, factors.Perm m.factors ∧ m' = { m with factors := factors }

theorem Accepts.perm (h : f.Accepts m) (hperm : factors.Perm m.factors) :
    f.Accepts { m with factors := factors } where
  dims := h.dims
  arguments := (hperm.map Factor.argument).trans h.arguments
  cell := fun factor hfactor => h.cell factor (hperm.mem_iff.1 hfactor)
  component := fun factor hfactor => h.component factor (hperm.mem_iff.1 hfactor)
  axes := fun factor hfactor => h.axes factor (hperm.mem_iff.1 hfactor)
  side := fun factor hfactor => h.side factor (hperm.mem_iff.1 hfactor)

theorem arrange_perm (h : f.Accepts m) (hperm : factors.Perm m.factors) :
    f.arrange { m with factors := factors } = f.arrange m := by
  rcases arrange_iff.2 h with ⟨arranged, harranged⟩
  rcases arrange_iff.2 (h.perm hperm) with ⟨arranged', harranged'⟩
  rcases arrange_filter harranged with ⟨hlength, hfilter⟩
  rcases arrange_filter harranged' with ⟨hlength', hfilter'⟩
  rw [harranged, harranged', Except.ok.injEq]
  refine ext_getElem? fun k => ?_
  by_cases hk : k < f.rank
  -- Both have the one factor of argument `k` there.
  · rcases hfilter k hk with ⟨factor, hfactor, hone⟩
    rcases hfilter' k hk with ⟨factor', hfactor', hone'⟩
    have hsame := hperm.filter fun x => x.argument = k
    rw [hone, hone', perm_singleton, singleton_inj] at hsame
    rw [hfactor, hfactor', hsame]
  · rw [getElem?_eq_none (by omega), getElem?_eq_none (by omega)]

theorem quadratureDegree_perm (hperm : factors.Perm m.factors) :
    f.quadratureDegree { m with factors := factors } = f.quadratureDegree m := by
  unfold quadratureDegree
  simp only [Size.sum_eq_ofNat, (hperm.map f.factorDegree).sum_eq]

/-- Monomials that are the same to the compiler: they agree in their arranged factors, in their
    degree, and in all that is not a factor. -/
structure Interchangeable (f : Form α) (m m' : Monomial α) : Prop where
  integral : m'.integral = m.integral
  domain : m'.domain = m.domain
  coefficient : m'.coefficient = m.coefficient
  arrange : f.arrange m' = f.arrange m
  quadratureDegree : f.quadratureDegree m' = f.quadratureDegree m

theorem interchangeable_of_reordered {m' : Monomial α} (h : f.Reordered m m') :
    f.Interchangeable m m' := by
  rcases h with rfl | ⟨haccepts, factors, hperm, rfl⟩
  · exact ⟨rfl, rfl, rfl, rfl, rfl⟩
  · exact ⟨rfl, rfl, rfl, arrange_perm haccepts hperm, quadratureDegree_perm hperm⟩

theorem integralsOf_interchangeable {monomials : List (Monomial α)}
    (h : Forall₂ f.Interchangeable f.monomials monomials) :
    Forall₂ (fun x y => y.1 = x.1 ∧ y.2.1 = x.2.1 ∧ Forall₂ f.Interchangeable x.2.2 y.2.2)
      (integralsOf f) (integralsOf { f with monomials := monomials }) := by
  unfold integralsOf
  refine rel_flatMap (R := Eq) (forall₂_refl Integral.all) ?_
  rintro kind _ rfl
  have hms : Forall₂ f.Interchangeable (f.monomials.filter fun m => m.integral = kind)
      (monomials.filter fun m => m.integral = kind) :=
    rel_filter (fun m m' hm => by simp only [hm.integral]) h
  have hlast : (monomials.filter fun m => m.integral = kind).map (fun m => m.domain) =
      (f.monomials.filter fun m => m.integral = kind).map fun m => m.domain :=
    (map_eq_of_forall₂ hms fun m m' hm => hm.domain.symm).symm
  simp only [hlast]
  split
  · exact Forall₂.nil
  · rw [forall₂_map_left_iff, forall₂_map_right_iff]
    refine forall₂_same.2 fun domain _ => ⟨rfl, rfl, ?_⟩
    exact rel_filter (fun m m' hm => by simp only [hm.domain]) hms

end Form

/-! ## Routines of interchangeable monomials -/

section

variable {α : Type} [Scalar α] {f : Form α} {m m' : Monomial α} {ms ms' : List (Monomial α)}

theorem quadratureTerm_interchangeable (h : f.Interchangeable m m') (s : Setting α)
    (d : Dimensions) (facets : Facets) :
    quadratureTerm s f d m' facets = quadratureTerm s f d m facets := by
  unfold quadratureTerm
  rw [h.arrange, h.quadratureDegree]

theorem TensorTerms.term_interchangeable (h : f.Interchangeable m m') (gauss : Gauss.Source α)
    (tabulator : Tabulator α) (facet : Option Nat) (primary : MultiIndex) :
    term gauss tabulator f facet primary m' = term gauss tabulator f facet primary m := by
  unfold term
  rw [h.arrange, h.quadratureDegree, h.coefficient]

theorem quadratureCase_interchangeable (h : Forall₂ f.Interchangeable ms ms') (s : Setting α)
    (d : Dimensions) (kind : Integral) (facets : Facets) :
    quadratureCase s f d kind ms' facets = quadratureCase s f d kind ms facets := by
  have hstore : storeTerms s f d facets ms' = storeTerms s f d facets ms := by
    unfold storeTerms
    -- Terms are stored one by one under their numbers, which are those of the monomials.
    refine (foldlM_eq_of_forall₂ (forall₂_zipIdx h 0) ?_ _).symm
    rintro ⟨m, number⟩ ⟨m', number'⟩ ⟨hm, hnumber⟩ ⟨terms, stores⟩
    simp only at hm hnumber
    simp only [quadratureTerm_interchangeable hm, hm.coefficient, hnumber]
  unfold quadratureCase
  rw [hstore]

theorem contractionCase_interchangeable (h : Forall₂ f.Interchangeable ms ms') (s : Setting α)
    (kind : Integral) (domain : Nat) (primary : MultiIndex) (facet : Option Nat) :
    contractionCase s f kind domain ms' primary facet =
      contractionCase s f kind domain ms primary facet := by
  have hterms : tensorTerms s.gauss s.tabulator f ms' facet primary =
      tensorTerms s.gauss s.tabulator f ms facet primary := by
    unfold tensorTerms
    induction h with
    | nil => rfl
    | cons hxy _ ih =>
      rw [mapM_cons, mapM_cons, TensorTerms.term_interchangeable hxy, ih]
  unfold contractionCase
  rw [hterms, h.length_eq]

namespace Compiler

theorem compileIntegral_interchangeable (h : Forall₂ f.Interchangeable ms ms')
    (s : Setting α) (primary : MultiIndex) (kind : Integral) (domain : Nat) :
    compileIntegral s f primary kind domain ms' = compileIntegral s f primary kind domain ms := by
  have hempty : ms'.isEmpty = ms.isEmpty := by cases h <;> rfl
  have hroutine : integralRoutine s f primary kind domain ms' =
      integralRoutine s f primary kind domain ms := by
    unfold integralRoutine quadratureRoutine contractionRoutine
    simp only [quadratureCase_interchangeable h, contractionCase_interchangeable h, hempty]
  funext allocator
  unfold compileIntegral
  rw [hroutine, hempty]

theorem compileIntegrals_interchangeable
    {integrals integrals' : List (Integral × Nat × List (Monomial α))}
    (h : Forall₂ (fun x y => y.1 = x.1 ∧ y.2.1 = x.2.1 ∧
      Forall₂ f.Interchangeable x.2.2 y.2.2) integrals integrals')
    (s : Setting α) (primary : MultiIndex) (allocator : Allocator) :
    compileIntegrals s f primary integrals' allocator =
      compileIntegrals s f primary integrals allocator := by
  induction h generalizing allocator with
  | nil => rfl
  | @cons x y xs ys hxy _ ih =>
    rcases x with ⟨kind, domain, ms⟩
    rcases y with ⟨kind', domain', ms'⟩
    rcases hxy with ⟨rfl, rfl, hms⟩
    simp only [compileIntegrals, compileIntegral_interchangeable hms, ih]

/-- Integrals are compiled without a look at the list that their monomials were taken from. -/
theorem compileIntegrals_monomials (s : Setting α) (f : Form α) (monomials : List (Monomial α))
    (primary : MultiIndex) (integrals : List (Integral × Nat × List (Monomial α)))
    (allocator : Allocator) :
    compileIntegrals s { f with monomials := monomials } primary integrals allocator =
      compileIntegrals s f primary integrals allocator := by
  induction integrals generalizing allocator with
  | nil => rfl
  | cons x xs ih =>
    rcases x with ⟨kind, domain, ms⟩
    simp only [compileIntegrals, compileIntegral_monomials, ih]

theorem compile_interchangeable {monomials : List (Monomial α)}
    (h : Forall₂ f.Interchangeable f.monomials monomials) (c : Compiler α) :
    c.compile { f with monomials := monomials } = c.compile f := by
  have hprimary : Form.argumentDims { f with monomials := monomials } = f.argumentDims := rfl
  unfold compile
  simp only [hprimary, compileIntegrals_monomials,
    compileIntegrals_interchangeable (Form.integralsOf_interchangeable h)]

end Compiler

/-- Validation accepts exactly the monomials that fit, and the order of their factors has no
    effect. A monomial is arranged if and only if it fits the form, and then the factor at each
    position is the only one of that argument. If monomials that fit have their factors
    reordered, then all monomials have the arrangement and the degree that they had, and every
    compiler makes the same of the form, up to the last character of its routines. -/
theorem Form.accepts_in_any_order (f : Form α) :
    (∀ m, (∃ factors, f.arrange m = .ok factors) ↔ f.Accepts m) ∧
    (∀ m factors, f.arrange m = .ok factors → factors.length = f.rank ∧
      ∀ k < f.rank, ∃ factor, factors[k]? = some factor ∧
        m.factors.filter (fun x => x.argument = k) = [factor]) ∧
    ∀ monomials, List.Forall₂ f.Reordered f.monomials monomials →
      List.Forall₂ (fun m m' =>
        Form.arrange { f with monomials := monomials } m' = f.arrange m ∧
        Form.quadratureDegree { f with monomials := monomials } m' = f.quadratureDegree m)
        f.monomials monomials ∧
      ∀ c : Compiler α, c.compile { f with monomials := monomials } = c.compile f := by
  refine ⟨fun m => arrange_iff, fun m factors => arrange_filter, fun monomials h => ?_⟩
  have hsame := h.imp fun m m' => interchangeable_of_reordered
  refine ⟨hsame.imp fun m m' hm => ?_, Compiler.compile_interchangeable hsame⟩
  rw [arrange_monomials, quadratureDegree_monomials]
  exact ⟨hm.arrange, hm.quadratureDegree⟩

end

/-- The flux through the boundary with given factors, and a monomial that does not fit on another
    domain. -/
def strayFlux (factors : List Factor) : Form ℚ :=
  { boundaryFlux with monomials :=
      [⟨.exteriorFacet, 0, 2, none, factors⟩, { strayMonomial with domain := 1 }] }

/-- Two factors are exchanged, beside a monomial that is refused. -/
theorem accepts_in_any_order_flux :
    (strayFlux [⟨1, 0, [], none⟩, ⟨0, 1, [1], none⟩]).Accepts
      ⟨.exteriorFacet, 0, 2, none, [⟨1, 0, [], none⟩, ⟨0, 1, [1], none⟩]⟩ ∧
    ¬ (strayFlux [⟨1, 0, [], none⟩, ⟨0, 1, [1], none⟩]).Accepts
      { strayMonomial with domain := 1 } ∧
    ∀ c : Compiler ℚ, c.compile (strayFlux [⟨0, 1, [1], none⟩, ⟨1, 0, [], none⟩]) =
      c.compile (strayFlux [⟨1, 0, [], none⟩, ⟨0, 1, [1], none⟩]) := by
  rcases Form.accepts_in_any_order (strayFlux [⟨1, 0, [], none⟩, ⟨0, 1, [1], none⟩]) with
    ⟨haccepts, _, hreordered⟩
  have hflux := (haccepts ⟨.exteriorFacet, 0, 2, none, [⟨1, 0, [], none⟩, ⟨0, 1, [1], none⟩]⟩).1
    ⟨[⟨0, 1, [1], none⟩, ⟨1, 0, [], none⟩], rfl⟩
  refine ⟨hflux, fun hstray => ?_, (hreordered (strayFlux [⟨0, 1, [1], none⟩,
    ⟨1, 0, [], none⟩]).monomials ?_).2⟩
  · rcases (haccepts _).2 hstray with ⟨factors, hfactors⟩
    cases hfactors
  · refine .cons (Or.inr ⟨hflux, _, List.Perm.swap _ _ _, rfl⟩) (.cons (Or.inl rfl) .nil)

end WeakForm
