import WeakForm.Proofs.Accumulation

/-!
# Overwriting and accumulating routines

Whether a routine overwrites the element tensor or adds to it is an option of the
compiler. For the routine of an integral with monomials the option decides: it clears
the tensor in every case before it adds, or it assigns to the tensor nowhere.

An integral without monomials contributes nothing, and its routine clears the tensor
whatever the option says. With the option off, an assembler that accumulates loses what
was in the tensor when it calls that routine.

## Theorems

* `Compiler.compile_resets`: What the routines of a compiled form do to the element tensor.
* `unused_domain_overwrites`: A routine that overwrites although it was asked not to.
-/

namespace WeakForm

open Success

/-- Runs a routine for given facets on an element tensor. -/
def Routine.exec {α : Type} [Scalar α] (v : Symbol → α) (r : Routine α) (facets : Facets)
    (A : List α) : Checked (List α) := do
  let code ← declared (r.body.select facets)
  return (← code.exec v {} A).2

section

variable {K : Type} [Field K] [LinearOrder K] [Root K] {r : Routine K} {s : Setting K} {f : Form K}
  {kind : Integral} {c c' : Allocator} {domain : Nat}

/-- What the monomials of an integral contribute to the element tensor on given facets, entry by
    entry. Nothing in here depends on whether the tensor is cleared. -/
inductive Contribution (s : Setting K) (f : Form K) (kind : Integral) (domain : Nat)
    (ms : List (Monomial K)) (facets : Facets) (v : Symbol → K) : List K → Prop
  | empty : ms = [] → Contribution s f kind domain ms facets v
      (List.replicate (macroDims f kind).prod 0)
  | quadrature {d : Dimensions} {tables : List (TermTables K)} : f.dims = .ok d →
      ms.mapM (fun m => quadratureTerm s f d m facets) = .ok tables →
      Contribution s f kind domain ms facets v ((Tuple.all (macroDims f kind)).map fun M =>
        ((ms.zip tables).map fun x => f.macroEntry v x.1 x.2 M).sum)
  | contraction {c c' : Allocator} {terms : List (TensorTerm K)} {tensor : ElementTensor K}
      {contribution : List K} :
      (tensorTerms s.gauss s.tabulator f ms facets.1
        (MultiIndex.primary .empty f.argumentDims).1).run c = (.ok terms, c') →
      ElementTensor.of terms kind domain (Cpp.style s.number) = .ok tensor →
      tensor.evaluate v = .ok contribution → Contribution s f kind domain ms facets v contribution

/-- A routine whose case for some facets contributes can be run for these facets. -/
theorem Routine.exec_of_contributes {facets : Facets} {code : Code K} {reset : Bool} {size : Nat}
    {v : Symbol → K} {contribution : List K} (hselect : r.body.select facets = some code)
    (h : code.Contributes reset size v contribution) {A : List K} (hA : A.length = size) :
    r.exec v facets A =
      .ok (if reset then contribution else List.zipWith (· + ·) A contribution) := by
  rcases h.exec A hA with ⟨e, hexec⟩
  exact bind_eq_ok.2 ⟨code, declared_eq_ok.2 hselect, bind_eq_ok.2 ⟨_, hexec, rfl⟩⟩

theorem routine_empty {name : String} {case : Facets → Drawing (CaseCode K)}
    (h : (routine s f kind name true case).run c = (.ok r, c')) :
    r.body = .cell (.reset (macroDims f kind).prod) := by
  unfold routine at h
  rcases Drawing.run_bind_eq_ok.1 h with ⟨d, c₁, _, h⟩
  rcases Drawing.run_bind_eq_ok.1 h with ⟨size, c₂, hsize, h⟩
  rw [Drawing.run_ofOutcome, Prod.mk.injEq, lift_fault_eq_ok] at hsize
  rw [Drawing.run_pure, Prod.mk.injEq, Except.ok.injEq] at h
  rw [← h.1, Size.product_eq_prod hsize.1]

theorem integralRoutine_empty {primary : MultiIndex}
    (h : (Compiler.integralRoutine s f primary kind domain []).run c = (.ok r, c')) :
    r.body = .cell (.reset (macroDims f kind).prod) := by
  unfold Compiler.integralRoutine at h
  simp only at h
  split at h
  · exact routine_empty h
  · rcases Drawing.run_bind_eq_ok.1 h with ⟨d, c₁, _, h⟩
    exact routine_empty h

variable [IsStrictOrderedRing K]
variable {numbers : AddSubgroup K} {literal : List Char → Option K}

theorem integralRoutine_contributes {ms : List (Monomial K)} (hms : ms ≠ [])
    (hkind : ∀ m ∈ ms, m.integral = kind) (hgauss : ∀ n, 0 < n → s.gauss n ≠ [])
    (htabulator : ∀ e ∈ f.arguments, s.tabulator.Shaped e)
    (hnumber : Legible s.number numbers literal) (hcoefficients : ∀ m ∈ ms, m.coefficient ∈ numbers)
    (h : (Compiler.integralRoutine s f (MultiIndex.primary .empty f.argumentDims).1 kind domain
      ms).run c = (.ok r, c')) :
    List.Forall₂ (fun facets code => r.body.select facets = some code ∧ ∀ v, ∃ contribution,
        Contribution s f kind domain ms facets v contribution ∧
        code.Contributes s.options.resetTensor (macroDims f kind).prod v contribution)
      (facetCases f.cell kind) r.body.codes := by
  have hempty : ms.isEmpty = false := List.isEmpty_eq_false_iff.2 hms
  unfold Compiler.integralRoutine at h
  simp only at h
  split at h
  · next htensor =>
    unfold contractionRoutine at h
    rw [hempty] at h
    rcases routine_eq_ok h with ⟨_, cases, _, _, _, hcodes, _, hcases⟩
    -- Contractions have one cell, so the element tensor has the dimensions of the arguments.
    have hdims : macroDims f kind = f.argumentDims := by
      rw [Bool.and_eq_true, supportsTensor, Bool.and_eq_true] at htensor
      have hone : kind ≠ .interiorFacet := of_decide_eq_true htensor.2.1
      simp [macroDims, hone]
    rw [hcodes, List.forall₂_map_right_iff]
    refine hcases.imp fun facets x hx => ⟨hx.1, fun v => ?_⟩
    rcases hx.2 with ⟨c₁, c₂, hx⟩
    rcases contractionCase_contributes hms hdims.symm hx v with
      ⟨terms, tensor, contribution, hterms, hof, hevaluate, hcontributes⟩
    exact ⟨contribution, .contraction hterms hof hevaluate, hcontributes⟩
  · unfold quadratureRoutine at h
    rcases Drawing.run_bind_eq_ok.1 h with ⟨d, c₁, hd, h⟩
    rw [Drawing.run_ofOutcome, Prod.mk.injEq, lift_problem_eq_ok] at hd
    rw [hempty] at h
    rcases routine_eq_ok h with ⟨_, cases, _, _, _, hcodes, _, hcases⟩
    rw [hcodes, List.forall₂_map_right_iff]
    refine ((List.forall₂_and_left _ _).2 ⟨fun facets hfacets => hfacets, hcases⟩).imp
      fun facets x hx => ⟨hx.2.1, fun v => ?_⟩
    rcases hx.2.2 with ⟨c₂, c₃, hcase⟩
    rw [Drawing.run_ofOutcome, Prod.mk.injEq] at hcase
    rcases quadratureCase_contributes hd.1 hkind hx.1 hgauss htabulator hnumber hcoefficients hcase.1
      v with ⟨tables, htables, hcontributes⟩
    exact ⟨_, .quadrature hd.1 htables, hcontributes⟩

/-- The option decides whether the routine of an integral overwrites the element tensor, if the
    integral has monomials. With the option on, every case clears all entries before it adds, and
    with the option off no case assigns to an entry. Running the routine leaves the contribution of
    the integral, or adds it to what was there. Without monomials the contribution is zero, and it
    is left in the tensor with the option on and off. -/
theorem Compiler.compile_resets {c : Compiler K} {f : Form K} {result : CompiledForm}
    (hgauss : ∀ n, 0 < n → c.setting.gauss n ≠ [])
    (htabulator : ∀ e ∈ f.arguments, c.setting.tabulator.Shaped e)
    (hnumber : Legible c.setting.number numbers literal)
    (hcoefficients : ∀ m ∈ f.monomials, m.coefficient ∈ numbers)
    (h : (c.compile f).1 = .ok result) {i : CompiledIntegral} (hi : i ∈ result.integrals)
    (hok : ∀ p, i.outcome ≠ .failed p) :
    ∃ r : Routine K, i.code = r.text c.setting.number ∧
      (i.outcome = .empty ↔ ∀ m ∈ f.monomials, ¬ (m.integral = i.kind ∧ m.domain = i.domain)) ∧
      (i.outcome = .empty → r.body.codes = [.reset (macroDims f i.kind).prod]) ∧
      (i.outcome ≠ .empty → ∀ code ∈ r.body.codes, ∃ rest, rest.assigns = false ∧
        code = .seq (if c.setting.options.resetTensor then .reset (macroDims f i.kind).prod
          else .skip) rest) ∧
      ∀ facets ∈ facetCases f.cell i.kind, ∀ v, ∃ contribution,
        Contribution c.setting f i.kind i.domain
          (f.monomials.filter fun m => m.integral = i.kind && m.domain = i.domain) facets v
          contribution ∧
        contribution.length = (macroDims f i.kind).prod ∧
        ∀ A : List K, A.length = (macroDims f i.kind).prod → r.exec v facets A =
          .ok (if i.outcome = .empty ∨ c.setting.options.resetTensor then contribution
            else List.zipWith (· + ·) A contribution) := by
  rcases compile_routine h hi hok with ⟨ms, r, c₁, c₂, hms, hrun, hcode, houtcome⟩
  have hmem : ∀ m, m ∈ ms ↔ m ∈ f.monomials ∧ m.integral = i.kind ∧ m.domain = i.domain := by
    intro m
    rw [hms, List.mem_filter, Bool.and_eq_true, decide_eq_true_iff, decide_eq_true_iff]
  rw [← hms]
  refine ⟨r, hcode, ?_⟩
  by_cases hempty : ms = []
  · -- The routine has one case for all facets, and it clears the tensor.
    subst hempty
    have hbody := integralRoutine_empty hrun
    have hoption : i.outcome = .empty := houtcome
    rw [hbody]
    refine ⟨⟨fun _ m hm hboth => ?_, fun _ => hoption⟩, fun _ => rfl, fun hne => absurd hoption hne,
      fun facets _ v => ⟨_, .empty rfl, List.length_replicate, fun A hA => ?_⟩⟩
    · exact absurd ((hmem m).2 ⟨hm, hboth⟩) List.not_mem_nil
    · rw [if_pos (Or.inl hoption), ← hA]
      have hreset := exec_reset (v := v) (e := {}) rfl A
      refine bind_eq_ok.2 ⟨_, declared_eq_ok.2 ?_, bind_eq_ok.2 ⟨_, hreset, rfl⟩⟩
      rw [hbody, hA]
      rfl
  · have hoption : i.outcome = .emitted r.operations := by
      rw [houtcome, List.isEmpty_eq_false_iff.2 hempty]
      rfl
    have hne : i.outcome ≠ .empty := by simp [hoption]
    have hcases := integralRoutine_contributes hempty (fun m hm => ((hmem m).1 hm).2.1) hgauss
      htabulator hnumber (fun m hm => hcoefficients m ((hmem m).1 hm).1) hrun
    refine ⟨⟨fun hempty => absurd hempty hne, fun hall => ?_⟩, fun hempty => absurd hempty hne,
      fun _ => ?_, fun facets hfacets v => ?_⟩
    · rcases List.exists_mem_of_ne_nil ms hempty with ⟨m, hm⟩
      exact absurd ((hmem m).1 hm).2 (hall m ((hmem m).1 hm).1)
    · -- The shape of the code is the same for all values of the symbols.
      refine forall₂_left hcases.flip fun code facets hcode => ?_
      rcases hcode.2 0 with ⟨_, _, hcontributes⟩
      exact hcontributes.shape
    · rcases List.mem_iff_getElem?.1 hfacets with ⟨n, hn⟩
      rcases forall₂_get hcases hn with ⟨code, _, hselect, hcode⟩
      rcases hcode v with ⟨contribution, hcontribution, hcontributes⟩
      refine ⟨contribution, hcontribution, hcontributes.length, fun A hA => ?_⟩
      rw [Routine.exec_of_contributes hselect hcontributes hA]
      simp [hne]

end

/-- A compiler whose routines are asked to accumulate. -/
def accumulatingCompiler : Compiler ℚ :=
  ⟨⟨⟨2, 0, false, none, .quadrature⟩, wholeText, fun _ => [(1 / 2, 1)], Tabulator.lagrange⟩, {}⟩

theorem mem_of_integral? {x : Checked CompiledForm} (kind : Integral) (domain : Nat)
    {p : CompiledIntegral → Bool} (h : (match x with
      | .ok r => (r.integral? kind domain).any p
      | .error _ => false) = true) :
    ∃ r i, x = .ok r ∧ i ∈ r.integrals ∧ i.kind = kind ∧ i.domain = domain ∧ p i = true := by
  cases x with
  | error e => cases h
  | ok r =>
    rcases (Option.any_eq_true _ _).1 h with ⟨i, hi, hp⟩
    have hboth := List.find?_some hi
    rw [Bool.and_eq_true, decide_eq_true_iff, decide_eq_true_iff] at hboth
    exact ⟨r, i, rfl, List.mem_of_find?_eq_some hi, hboth.1, hboth.2, hp⟩

/-- The domain with a monomial accumulates. -/
theorem compile_resets_slope : ∃ (result : CompiledForm) (i : CompiledIntegral) (r : Routine ℚ),
    (accumulatingCompiler.compile (slopeForm [slopeOn 1])).1 = .ok result ∧
    i ∈ result.integrals ∧ i.domain = 1 ∧ i.outcome ≠ .empty ∧
    i.code = r.text accumulatingCompiler.setting.number ∧
    (∀ code ∈ r.body.codes, ∃ rest, rest.assigns = false ∧ code = .seq .skip rest) ∧
    ∀ v, ∃ contribution : List ℚ, contribution.length = 2 ∧ ∀ A : List ℚ, A.length = 2 →
      r.exec v (none, none) A = .ok (List.zipWith (· + ·) A contribution) := by
  rcases mem_of_integral? .cell 1
    (x := (accumulatingCompiler.compile (slopeForm [slopeOn 1])).1) (p := fun i => match i.outcome with
      | .emitted _ => true
      | _ => false) (by decide +kernel) with ⟨result, i, hresult, hi, hkind, hdomain, hemitted⟩
  have hok : i.outcome ≠ .empty ∧ ∀ p, i.outcome ≠ .failed p := by
    constructor
    · intro h
      rw [h] at hemitted
      exact Bool.false_ne_true hemitted
    · intro p h
      rw [h] at hemitted
      exact Bool.false_ne_true hemitted
  have hnumbers : ∀ m ∈ (slopeForm [slopeOn 1]).monomials,
      m.coefficient ∈ AddSubgroup.zmultiples (1 : ℚ) := by
    intro m hm
    rw [List.mem_singleton.1 hm]
    exact AddSubgroup.mem_zmultiples 1
  rcases Compiler.compile_resets (fun n _ => List.cons_ne_nil _ _)
    (fun e _ => Tabulator.shaped_lagrange e) legible_wholeText hnumbers hresult hi hok.2 with
    ⟨r, hcode, _, _, hshape, hexec⟩
  refine ⟨result, i, r, hresult, hi, hdomain, hok.1, hcode, hshape hok.1, fun v => ?_⟩
  rw [hkind] at hexec
  rcases hexec (none, none) (by decide) v with ⟨contribution, _, hlength, hrun⟩
  refine ⟨contribution, hlength, fun A hA => ?_⟩
  rw [hrun A hA, if_neg (by simp [hok.1, accumulatingCompiler])]

/-- The domain without monomials overwrites although it should contribute nothing. -/
theorem unused_domain_overwrites : ∃ (result : CompiledForm) (i : CompiledIntegral) (r : Routine ℚ),
    (accumulatingCompiler.compile (slopeForm [slopeOn 1])).1 = .ok result ∧
    i ∈ result.integrals ∧ i.domain = 0 ∧ i.outcome = .empty ∧
    i.code = r.text accumulatingCompiler.setting.number ∧
    r.exec (fun _ => 1) (none, none) [1, 1] = .ok [0, 0] := by
  rcases mem_of_integral? .cell 0
    (x := (accumulatingCompiler.compile (slopeForm [slopeOn 1])).1) (p := fun i => match i.outcome with
      | .empty => true
      | _ => false) (by decide +kernel) with ⟨result, i, hresult, hi, hkind, hdomain, hempty⟩
  have houtcome : i.outcome = .empty := by
    split at hempty
    · assumption
    · exact absurd hempty Bool.false_ne_true
  rcases Compiler.compile_routine hresult hi (by simp [houtcome]) with
    ⟨ms, r, c₁, c₂, hms, hrun, hcode, _⟩
  have hnone : ms = [] := by
    rw [hms, hkind, hdomain]
    rfl
  rw [hnone] at hrun
  refine ⟨result, i, r, hresult, hi, hdomain, houtcome, hcode, ?_⟩
  rw [Routine.exec, integralRoutine_empty hrun, hkind]
  decide +kernel

end WeakForm
