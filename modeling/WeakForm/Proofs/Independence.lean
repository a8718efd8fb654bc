import WeakForm.Proofs.Exact
import WeakForm.Compiler
import WeakForm.Proofs.Drawing

/-!
# Integrals are compiled independently

All integrals of a form draw their secondary indices from one allocator, and an integral
that fails leaves it advanced. The routine of an integral therefore starts from an
allocator that depends on all integrals before it. Its text does not.

The argument compares two runs that start from different allocators. `Agree` relates
their results: both fail in the same way, or both succeed with related values. Terms are
related if they differ in the identifiers of their secondary indices only (`Alike`);
`entry_drawn` says that those do not matter for the entries, and the generated code reads
terms through their entries. Everything from there on is equal in both runs.

## Main definitions

* `Call`, `Compiler.after`: A history of calls, and the compiler it leaves.

## Theorems

* `ElementTensor.of_alike`, `Contraction.code_alike`: Alike terms have equal code.
* `Compiler.constant_integralRoutine`: The routine of an integral does not depend on the
  allocator.
* `Compiler.compile_integral_eq`: Nor on other integrals or on earlier calls.
-/

namespace WeakForm

open List Success Drawing

/-- Both computations fail in the same way, or both succeed with related results. -/
def Agree {ε β γ : Type} (R : β → γ → Prop) : Except ε β → Except ε γ → Prop
  | .ok b, .ok c => R b c
  | .error e, .error e' => e = e'
  | _, _ => False

namespace Agree

variable {ε β γ β' γ' : Type} {R : β → γ → Prop} {S : β' → γ' → Prop}

theorem bind {x : Except ε β} {y : Except ε γ} {f : β → Except ε β'} {g : γ → Except ε γ'}
    (h : Agree R x y) (hfg : ∀ b c, R b c → Agree S (f b) (g c)) : Agree S (x >>= f) (y >>= g) := by
  cases x with
  | error e =>
    cases y with
    | error e' => exact h
    | ok c => exact h.elim
  | ok b =>
    cases y with
    | error e' => exact h.elim
    | ok c => exact hfg b c h

theorem refl (x : Except ε β) : Agree Eq x x := by
  cases x with
  | error e => rfl
  | ok b => rfl

theorem eq {x y : Except ε β} (h : Agree Eq x y) : x = y := by
  cases x with
  | error e =>
    cases y with
    | error e' => exact congrArg _ h
    | ok c => exact h.elim
  | ok b =>
    cases y with
    | error e' => exact h.elim
    | ok c => exact congrArg _ h

theorem lift {x : Checked β} {y : Checked γ} (h : Agree R x y) :
    Agree R (liftM x : Outcome β) (liftM y : Outcome γ) := by
  cases x with
  | error e =>
    cases y with
    | error e' => exact congrArg Failure.fault h
    | ok c => exact h.elim
  | ok b =>
    cases y with
    | error e' => exact h.elim
    | ok c => exact h

end Agree

namespace Drawing

variable {β γ β' γ' : Type} {R : β → γ → Prop} {S : β' → γ' → Prop}

/-- Two drawings agree whatever was drawn before either of them. -/
def Steady (R : β → γ → Prop) (x : Drawing β) (y : Drawing γ) : Prop :=
  ∀ c c' : Allocator, Agree R (x.run c).1 (y.run c').1

theorem steady_bind {x : Drawing β} {y : Drawing γ} {f : β → Drawing β'} {g : γ → Drawing γ'}
    (h : Steady R x y) (hfg : ∀ b c, R b c → Steady S (f b) (g c)) :
    Steady S (x >>= f) (y >>= g) := by
  intro c c'
  -- Of the four pairs of results, those that differ in success are ruled out by `hxy`.
  have hxy := h c c'
  rw [run_bind, run_bind]
  revert hxy
  rcases x.run c with ⟨_ | b, c₁⟩ <;> rcases y.run c' with ⟨_ | b', c₁'⟩ <;> intro hxy
  · exact hxy
  · exact hxy.elim
  · exact hxy.elim
  · exact hfg b b' hxy c₁ c₁'

theorem steady_pure {b : β} {c : γ} (h : R b c) : Steady R (pure b) (pure c) := fun _ _ => h

theorem steady_ofOutcome {x : Outcome β} {y : Outcome γ} (h : Agree R x y) :
    Steady R (ofOutcome x) (ofOutcome y) := fun _ _ => h

theorem steady_mapM {ι : Type} {f : ι → Drawing β} {g : ι → Drawing γ} {xs : List ι}
    (h : ∀ x, Steady R (f x) (g x)) : Steady (Forall₂ R) (xs.mapM f) (xs.mapM g) := by
  induction xs with
  | nil => exact steady_pure Forall₂.nil
  | cons x xs ih =>
    rw [mapM_cons, mapM_cons]
    refine steady_bind (h x) fun b c hbc => steady_bind ih fun bs cs hbs => ?_
    exact steady_pure (Forall₂.cons hbc hbs)

/-- Two drawings of the same dimensions give indices that differ in their first identifier. -/
theorem steady_secondary (dims : List Nat) :
    Steady (fun a a' => ∃ c c', a = (MultiIndex.secondary c dims).1 ∧
      a' = (MultiIndex.secondary c' dims).1) (secondary dims) (secondary dims) :=
  fun c c' => ⟨c, c', rfl, rfl⟩

end Drawing

section

variable {α : Type} (s : Setting α) (f : Form α) (monomials : List (Monomial α)) (kind : Integral)

/-- The monomials of an integral are those of its kind and domain, and its kind is there because of
    one of them. -/
theorem mem_integralsOf {f : Form α} {kind : Integral} {domain : Nat} {ms : List (Monomial α)}
    (h : (kind, domain, ms) ∈ integralsOf f) :
    ms = f.monomials.filter (fun m => m.integral = kind && m.domain = domain) ∧
      ∃ m ∈ f.monomials, m.integral = kind := by
  unfold integralsOf at h
  rcases mem_flatMap.1 h with ⟨kind', _, h⟩
  simp only at h
  split at h
  · cases h
  · next last hlast =>
    rcases mem_map.1 h with ⟨domain', _, h⟩
    rw [Prod.mk.injEq, Prod.mk.injEq] at h
    rcases h with ⟨rfl, rfl, rfl⟩
    refine ⟨?_, ?_⟩
    -- The domains are filtered after the kinds here, and together with them in the statement.
    · rw [filter_filter]
      congr 1
      funext m
      exact Bool.and_comm _ _
    · rcases mem_map.1 (max?_mem hlast) with ⟨m, hm, _⟩
      rw [mem_filter, decide_eq_true_iff] at hm
      exact ⟨m, hm⟩

theorem Form.checkFactors_monomials :
    checkFactors { f with monomials := monomials } = checkFactors f := by
  funext d m before factors
  induction factors generalizing before with
  | nil => rfl
  | cons factor factors ih =>
    unfold checkFactors
    simp only [ih]
    rfl

theorem Form.arrange_monomials : arrange { f with monomials := monomials } = arrange f := by
  funext m
  unfold arrange
  rw [checkFactors_monomials]
  rfl

theorem Form.quadratureDegree_monomials :
    quadratureDegree { f with monomials := monomials } = quadratureDegree f := rfl

/-- Terms that differ in the identifiers of their secondary indices only. -/
structure TensorTerm.Alike [Scalar α] (t t' : TensorTerm α) : Prop where
  primary : t.reference.i = t'.reference.i
  dims : t.reference.a.dims = t'.reference.a.dims
  values : t.reference.values = t'.reference.values
  geometryDims : t.geometry.a.dims = t'.geometry.a.dims
  entry : ∀ a, t.geometry.entry a = t'.geometry.entry a

namespace TensorTerms

variable (c : Allocator) (tdim : Nat) (factors : List Factor)

theorem any_hasPrimary_drawn :
    (geometryFactors factors (drawn c tdim factors).indices).any GeometryFactor.hasPrimary =
      false := by
  rw [any_eq_false]
  intro x hx
  -- The first factor is the determinant, the others pair a drawn index with a fixed axis.
  rcases mem_cons.1 hx with rfl | hx
  · exact Bool.false_ne_true
  · rw [← map_uncurry_zip_eq_zipWith] at hx
    rcases mem_map.1 hx with ⟨⟨index, axis⟩, hpair, rfl⟩
    rcases mem_map.1 (of_mem_zip hpair).1 with ⟨k, _, rfl⟩
    exact Bool.false_ne_true

/-- Reference tensors over drawn indices differ in the indices only. -/
theorem agree_ofFn (primary : MultiIndex) (c c' : Allocator) (tdim : Nat) (factors : List Factor)
    (f : List Nat → List Nat → Checked α) :
    Agree (fun r r' => r.i = primary ∧ r'.i = primary ∧ r.a = drawn c tdim factors ∧
        r'.a = drawn c' tdim factors ∧ r.values = r'.values)
      (ReferenceTensor.ofFn primary (drawn c tdim factors) f)
      (ReferenceTensor.ofFn primary (drawn c' tdim factors) f) := by
  -- Sizes and tuples only look at the dimensions, which are the same for both indices.
  have hcount : ReferenceTensor.size primary (drawn c tdim factors) =
      ReferenceTensor.size primary (drawn c' tdim factors) := rfl
  have htuples : (drawn c tdim factors).tuples = (drawn c' tdim factors).tuples := rfl
  unfold ReferenceTensor.ofFn ReferenceTensor.of
  rw [hcount, htuples]
  refine Agree.bind (Agree.refl _) fun _ _ hcount => ?_
  subst hcount
  refine Agree.bind (Agree.refl _) fun _ _ _ => Agree.bind (Agree.refl _) fun rows _ hrows => ?_
  subst hrows
  refine Agree.bind (Agree.refl _) fun _ _ hsize => ?_
  subst hsize
  exact Agree.bind (Agree.refl _) fun _ _ _ => ⟨rfl, rfl, rfl, rfl, rfl⟩

theorem of_drawn (coefficient : α) {r : ReferenceTensor α} (h : r.a = drawn c tdim factors) : (do
      let geometry ← GeometryTensor.of (drawn c tdim factors) coefficient
        (geometryFactors factors (drawn c tdim factors).indices)
      TensorTerm.of r geometry : Outcome (TensorTerm α)) =
      .ok ⟨r, drawn c tdim factors, coefficient,
        geometryFactors factors (drawn c tdim factors).indices⟩ := by
  have hgeometry : GeometryTensor.of (drawn c tdim factors) coefficient
      (geometryFactors factors (drawn c tdim factors).indices) =
        .ok ⟨drawn c tdim factors, coefficient,
          geometryFactors factors (drawn c tdim factors).indices⟩ := by
    unfold GeometryTensor.of
    rw [any_hasPrimary_drawn]
    rfl
  rw [hgeometry, bind_eq_ok]
  refine ⟨_, rfl, lift_fault_eq_ok.2 ?_⟩
  unfold TensorTerm.of
  rw [h, bind_eq_ok]
  exact ⟨(), Checked.require_eq_ok.2 (decide_eq_true rfl), rfl⟩

variable [Scalar α]

theorem steady_term (gauss : Gauss.Source α) (tabulator : Tabulator α) (f : Form α)
    (facet : Option Nat) (primary : MultiIndex) (m : Monomial α) :
    Steady TensorTerm.Alike (term gauss tabulator f facet primary m)
      (term gauss tabulator f facet primary m) := by
  unfold term
  refine steady_bind (steady_ofOutcome (Agree.refl _)) ?_
  rintro ⟨factors, rule⟩ _ rfl
  -- From here on the two runs hold different secondary indices.
  refine steady_bind (steady_secondary _) ?_
  rintro _ _ ⟨c, c', rfl, rfl⟩
  refine steady_ofOutcome (Agree.bind (Agree.refl _) ?_)
  rintro tables _ rfl
  refine Agree.bind (Agree.lift (Agree.refl (ReferenceTensor.reserve primary _))) fun _ _ _ => ?_
  refine Agree.bind (Agree.lift (agree_ofFn primary c c' f.cell.dimension factors _)) ?_
  rintro r r' ⟨hi, hi', ha, ha', hvalues⟩
  have hterm := of_drawn c f.cell.dimension factors m.coefficient ha
  have hterm' := of_drawn c' f.cell.dimension factors m.coefficient ha'
  unfold drawn at hterm hterm'
  rw [hterm, hterm']
  -- Entries resolve identifiers relative to the first one drawn, so the shift cancels.
  refine ⟨?_, ?_, hvalues, rfl, fun a => ?_⟩
  · rw [hi, hi']
  · rw [ha, ha']
    rfl
  · exact (entry_drawn c f.cell.dimension factors m.coefficient a).trans
      (entry_drawn c' f.cell.dimension factors m.coefficient a).symm

end TensorTerms

variable [Scalar α] {β : Type}

namespace TensorTerm.Alike

variable {t t' : TensorTerm α}

theorem tuples (h : t.Alike t') : t.reference.a.tuples = t'.reference.a.tuples :=
  congrArg Tuple.all h.dims

theorem reference (h : t.Alike t') : t.reference.entry = t'.reference.entry := by
  funext i a
  unfold ReferenceTensor.entry
  rw [h.primary, h.dims, h.values]

theorem entries (h : t.Alike t') : t.geometry.entries = t'.geometry.entries := by
  unfold GeometryTensor.entries MultiIndex.tuples
  rw [h.geometryDims]
  congr 1
  funext a
  rw [h.entry]

end TensorTerm.Alike

section

variable {terms terms' : List (TensorTerm α)} (h : Forall₂ TensorTerm.Alike terms terms')
include h

namespace ElementTensor

theorem primary_alike : primary terms = primary terms' := by
  cases h with
  | nil => rfl
  | cons hfirst _ => exact congrArg some hfirst.primary

theorem referenceDeclarations_alike (style : Style α) :
    referenceDeclarations terms style = referenceDeclarations terms' style := by
  unfold referenceDeclarations
  congr 1
  refine mapM_eq_of_forall₂ (forall₂_zipIdx h 0) ?_
  rintro ⟨t, j⟩ ⟨t', _⟩ ⟨(ht : t.Alike t'), rfl⟩
  simp only [ht.primary, ht.tuples, ht.reference]

theorem geometryDeclarations_alike (style : Style α) :
    geometryDeclarations terms style = geometryDeclarations terms' style := by
  unfold geometryDeclarations
  congr 1
  refine mapM_eq_of_forall₂ (forall₂_zipIdx h 0) ?_
  rintro ⟨t, j⟩ ⟨t', _⟩ ⟨(ht : t.Alike t'), rfl⟩
  simp only [ht.entries]

theorem contributions_alike (i : List Nat) : contributions terms i = contributions terms' i := by
  unfold contributions
  rw [flatMap_def, flatMap_def]
  congr 1
  refine map_eq_of_forall₂ (forall₂_zipIdx h 0) ?_
  rintro ⟨t, j⟩ ⟨t', _⟩ ⟨(ht : t.Alike t'), rfl⟩
  simp only [ht.tuples, ht.reference]

theorem elementDeclarations_alike (style : Style α) :
    elementDeclarations terms style = elementDeclarations terms' style := by
  unfold elementDeclarations
  simp only [primary_alike h, contributions_alike h]

/-- Alike terms have the same first term of other dimensions, as far as these dimensions go. -/
theorem find_alike (dims : List Nat) : Option.Rel (fun t t' => t.reference.i = t'.reference.i)
      (terms.find? fun t => t.reference.i.dims ≠ dims)
      (terms'.find? fun t => t.reference.i.dims ≠ dims) := by
  induction h with
  | nil => exact Option.Rel.none
  | @cons t t' _ _ ht _ ih =>
    rw [find?_cons, find?_cons, ht.primary]
    split
    · exact Option.Rel.some ht.primary
    · exact ih

theorem of_alike (kind : Integral) (domain : Nat) (style : Style α) :
    Agree (fun e e' => e.terms = terms ∧ e'.terms = terms') (of terms kind domain style)
      (of terms' kind domain style) := by
  -- What follows the check of the dimensions is the same with and without a first term.
  have hrest : Agree (fun e e' => e.terms = terms ∧ e'.terms = terms')
      (do
        let reference ← referenceDeclarations terms style
        let geometry ← geometryDeclarations terms style
        let element ← elementDeclarations terms style
        return ⟨terms, kind, domain, reference, geometry, element⟩ : Outcome (ElementTensor α))
      (do
        let reference ← referenceDeclarations terms' style
        let geometry ← geometryDeclarations terms' style
        let element ← elementDeclarations terms' style
        return ⟨terms', kind, domain, reference, geometry, element⟩ : Outcome (ElementTensor α)) := by
    rw [referenceDeclarations_alike h, geometryDeclarations_alike h, elementDeclarations_alike h]
    refine Agree.bind (Agree.refl _) fun _ _ _ => Agree.bind (Agree.refl _) fun _ _ _ => ?_
    exact Agree.bind (Agree.refl _) fun _ _ _ => ⟨rfl, rfl⟩
  unfold of
  simp only [primary_alike h]
  cases primary terms' with
  | none => exact hrest
  | some first =>
    have hfind := find_alike h first.dims
    simp only
    -- A term of other dimensions is reported, and the report reads its primary index only.
    generalize terms.find? (fun t => t.reference.i.dims ≠ first.dims) = x at hfind ⊢
    generalize terms'.find? (fun t => t.reference.i.dims ≠ first.dims) = y at hfind ⊢
    cases hfind with
    | none => exact hrest
    | some hprimary =>
      simp only [hprimary]
      rfl

end ElementTensor

theorem Contraction.geometryEntries_alike : geometryEntries terms = geometryEntries terms' := by
  unfold geometryEntries
  congr 1
  refine mapM_eq_of_forall₂ (forall₂_zipIdx h 0) ?_
  rintro ⟨t, j⟩ ⟨t', _⟩ ⟨(ht : t.Alike t'), rfl⟩
  simp only [ht.entries]

theorem Contraction.code_alike (s : Setting α) (dims : List Nat) :
    code s dims terms = code s dims terms' := by
  have hcounts : terms.map (fun t => 2 * addedCount t) = terms'.map fun t => 2 * addedCount t := by
    refine map_eq_of_forall₂ h fun t t' ht => ?_
    unfold addedCount
    rw [ht.primary, ht.tuples, ht.reference]
  have hstatements : statements terms = statements terms' := by
    unfold statements
    simp only [ElementTensor.primary_alike h, ElementTensor.contributions_alike h]
  unfold code
  rw [geometryEntries_alike h, hcounts, hstatements]

end

/-- A drawing whose result does not depend on what was drawn before. -/
abbrev Drawing.Constant {β : Type} (x : Drawing β) : Prop := Steady Eq x x

theorem Drawing.constant_ofOutcome (x : Outcome β) : Constant (ofOutcome x) :=
  steady_ofOutcome (Agree.refl x)

theorem Drawing.constant_bind {γ : Type} {x : Drawing β} {f : β → Drawing γ} (h : Constant x)
    (hf : ∀ b, Constant (f b)) : Constant (x >>= f) := by
  refine steady_bind h ?_
  rintro b _ rfl
  exact hf b

theorem Drawing.constant_mapM {ι : Type} {f : ι → Drawing β} (xs : List ι) (h : ∀ x, Constant (f x)) :
    Constant (xs.mapM f) := by
  have hsteady : Steady (Forall₂ Eq) (xs.mapM f) (xs.mapM f) := steady_mapM h
  rw [forall₂_eq_eq_eq] at hsteady
  exact hsteady

theorem constant_contractionCase (domain : Nat) (ms : List (Monomial α)) (primary : MultiIndex)
    (facet : Option Nat) : (contractionCase s f kind domain ms primary facet).Constant := by
  unfold contractionCase tensorTerms
  refine constant_bind (constant_ofOutcome _) fun _ => ?_
  refine steady_bind (steady_mapM fun m =>
    TensorTerms.steady_term s.gauss s.tabulator f facet primary m) fun terms terms' h => ?_
  -- The element tensor is only made to see whether that fails; the code reads its terms.
  have hreserve : terms.mapM (fun t => (t.geometry.a.reserve : Outcome Unit)) =
      terms'.mapM fun t => (t.geometry.a.reserve : Outcome Unit) :=
    mapM_eq_of_forall₂ h fun t t' ht => by
      rw [MultiIndex.reserve, MultiIndex.count, ht.geometryDims]
      rfl
  rw [hreserve]
  refine steady_ofOutcome (Agree.bind (Agree.refl _) fun _ _ _ => ?_)
  refine Agree.bind (ElementTensor.of_alike h kind domain _) ?_
  rintro e e' ⟨rfl, rfl⟩
  rw [Contraction.code_alike h]
  exact Agree.refl _

theorem constant_routine (name : String) (isEmpty : Bool) {case : Facets → Drawing (CaseCode α)}
    (h : ∀ facets, (case facets).Constant) : (routine s f kind name isEmpty case).Constant := by
  -- One case on cells, one for each facet, or one for each pair of facets.
  have hbody : (caseBody f.cell kind case).Constant := by
    unfold caseBody
    cases kind with
    | cell => exact constant_bind (h _) fun _ => steady_pure rfl
    | exteriorFacet =>
      exact constant_bind (constant_mapM _ fun facet => h _) fun _ =>
        steady_pure rfl
    | interiorFacet =>
      exact constant_bind (constant_mapM _ fun facet =>
        constant_mapM _ fun facet' => h _) fun _ => steady_pure rfl
  unfold routine
  refine constant_bind (constant_ofOutcome _) fun d => ?_
  split
  · exact constant_bind (constant_ofOutcome _) fun _ => steady_pure rfl
  · exact constant_bind hbody fun _ => steady_pure rfl

variable {i : CompiledIntegral}

namespace Compiler

variable (s : Setting α) (f : Form α) (primary : MultiIndex) (kind : Integral) (domain : Nat)
  (ms : List (Monomial α))

theorem constant_integralRoutine : (integralRoutine s f primary kind domain ms).Constant := by
  unfold integralRoutine
  simp only
  split
  · exact constant_routine s f kind _ _ fun facets =>
      constant_contractionCase s f kind domain ms primary facets.1
  · exact constant_bind (constant_ofOutcome _) fun d =>
      constant_routine s f kind _ _ fun facets => constant_ofOutcome _

/-- The compiled integral of the result of a routine. -/
def concluded (s : Setting α) (f : Form α) (kind : Integral) (domain : Nat)
    (ms : List (Monomial α)) : Except Failure (Routine α) → Checked CompiledIntegral
  | .ok r => .ok ⟨kind, domain, routineName s f kind domain, r.text s.number,
      if ms.isEmpty then .empty else .emitted r.operations⟩
  | .error (.problem p) => .ok ⟨kind, domain, routineName s f kind domain,
      errorRoutine (routineName s f kind domain) ⟨kind, domain, p⟩, .failed ⟨kind, domain, p⟩⟩
  | .error (.fault e) => .error e

theorem compileIntegral_fst (c : Allocator) :
    (compileIntegral s f primary kind domain ms c).1 = concluded s f kind domain ms
      ((integralRoutine s f primary kind domain ms).run c).1 := by
  unfold compileIntegral
  simp only
  rcases (integralRoutine s f primary kind domain ms).run c with ⟨(_ | _) | _, _⟩ <;> rfl

/-- Nor does the compiled integral. -/
theorem compileIntegral_eq (c c' : Allocator) : (compileIntegral s f primary kind domain ms c).1 =
      (compileIntegral s f primary kind domain ms c').1 := by
  rw [compileIntegral_fst, compileIntegral_fst,
    (constant_integralRoutine s f primary kind domain ms c c').eq]

theorem kind_of_concluded {s : Setting α} {f : Form α} {kind : Integral} {domain : Nat}
    {ms : List (Monomial α)} {result : Except Failure (Routine α)}
    (h : concluded s f kind domain ms result = .ok i) : i.kind = kind ∧ i.domain = domain := by
  rcases result with (_ | _) | _
  · cases h
    exact ⟨rfl, rfl⟩
  · exact absurd h (by simp [concluded])
  · cases h
    exact ⟨rfl, rfl⟩

/-- Integrals are compiled as if each of them were the first one. -/
theorem compileIntegrals_fst (integrals : List (Integral × Nat × List (Monomial α))) (c : Allocator) :
    (compileIntegrals s f primary integrals c).1 =
      integrals.mapM fun x => (compileIntegral s f primary x.1 x.2.1 x.2.2 .empty).1 := by
  induction integrals generalizing c with
  | nil => rfl
  | cons x rest ih =>
    rcases x with ⟨kind, domain, ms⟩
    rw [mapM_cons, compileIntegral_eq s f primary kind domain ms .empty c, compileIntegrals]
    rcases compileIntegral s f primary kind domain ms c with ⟨_ | first, c₁⟩
    · rfl
    · rw [← ih c₁]
      simp only
      rcases compileIntegrals s f primary rest c₁ with ⟨_ | others, c₂⟩ <;> rfl

end Compiler

/-- A call of a compiler. -/
inductive Call (α : Type) where
  | compile (f : Form α)
  | elementTensors (f : Form α) (style : Style α)

namespace Compiler

variable (s : Setting α) (f : Form α) (monomials : List (Monomial α))

/-- The compiler that a history of calls leaves. -/
def after (c : Compiler α) (calls : List (Call α)) : Compiler α :=
  calls.foldl (fun c call =>
    match call with
    | .compile f => (c.compile f).2
    | .elementTensors f style => (c.elementTensors f style).2) c

theorem setting_after (c : Compiler α) (calls : List (Call α)) :
    (c.after calls).setting = c.setting := by
  induction calls generalizing c with
  | nil => rfl
  | cons call calls ih =>
    change ((after _ calls).setting) = _
    rw [ih]
    cases call with
    | compile f => rfl
    | elementTensors f style => rfl

variable {c : Compiler α} {r : CompiledForm}

theorem compile_forall₂ {f : Form α}
    (h : (c.compile f).1 = .ok r) : Forall₂ (fun x i => (i.kind = x.1 ∧ i.domain = x.2.1) ∧
      (compileIntegral c.setting f (MultiIndex.primary .empty f.argumentDims).1 x.1 x.2.1 x.2.2
        .empty).1 = .ok i) (integralsOf f) r.integrals := by
  rcases map_eq_ok.1 h with ⟨integrals, hintegrals, rfl⟩
  rw [compileIntegrals_fst] at hintegrals
  refine (mapM_eq_ok.1 hintegrals).imp fun x i hi => ⟨?_, hi⟩
  rw [compileIntegral_fst] at hi
  exact kind_of_concluded hi

theorem compile_eq_ok {f : Form α} (h : (c.compile f).1 = .ok r) : ∀ i ∈ r.integrals, ∃ c₁,
      (compileIntegral c.setting f (MultiIndex.primary .empty f.argumentDims).1 i.kind i.domain
        (f.monomials.filter fun m => m.integral = i.kind && m.domain = i.domain) c₁).1 = .ok i := by
  intro i hi
  rcases forall₂_mem (compile_forall₂ h).flip hi with ⟨⟨kind, domain, ms⟩, hx, ⟨rfl, rfl⟩, hok⟩
  rw [(mem_integralsOf hx).1] at hok
  exact ⟨.empty, hok⟩

/-- Every integral of a compiled form that did not fail has a routine, made of the monomials of its
    kind and domain. -/
theorem compile_routine {f : Form α} {result : CompiledForm} (h : (c.compile f).1 = .ok result)
    (hi : i ∈ result.integrals) (hok : ∀ p, i.outcome ≠ .failed p) :
    ∃ (ms : List (Monomial α)) (r : Routine α) (c₁ c₂ : Allocator),
      ms = f.monomials.filter (fun m => m.integral = i.kind && m.domain = i.domain) ∧
      (integralRoutine c.setting f (MultiIndex.primary .empty f.argumentDims).1 i.kind i.domain
        ms).run c₁ = (.ok r, c₂) ∧ i.code = r.text c.setting.number ∧
      i.outcome = if ms.isEmpty then .empty else .emitted r.operations := by
  rcases compile_eq_ok h i hi with ⟨c₁, hcompiled⟩
  rw [compileIntegral_fst] at hcompiled
  rcases hrun : (integralRoutine c.setting f (MultiIndex.primary .empty f.argumentDims).1 i.kind
    i.domain (f.monomials.filter fun m => m.integral = i.kind && m.domain = i.domain)).run c₁ with
    ⟨(p | _) | r, c₂⟩
  · rw [hrun] at hcompiled
    exact absurd (congrArg CompiledIntegral.outcome (Except.ok.inj hcompiled)).symm (hok _)
  · rw [hrun] at hcompiled
    exact absurd hcompiled (by simp [concluded])
  · rw [hrun] at hcompiled
    have hresult := Except.ok.inj hcompiled
    exact ⟨_, r, c₁, c₂, rfl, hrun, (congrArg CompiledIntegral.code hresult).symm,
      (congrArg CompiledIntegral.outcome hresult).symm⟩

theorem integralRoutine_monomials :
    integralRoutine s { f with monomials := monomials } = integralRoutine s f := by
  -- Both representations meet the form through its arguments and its cell alone.
  have hquadrature : quadratureTerm s { f with monomials := monomials } = quadratureTerm s f := by
    funext d m facets
    unfold quadratureTerm
    simp only [Form.arrange_monomials, Form.quadratureDegree_monomials]
  have hterm : TensorTerms.term s.gauss s.tabulator { f with monomials := monomials } =
      TensorTerms.term s.gauss s.tabulator f := by
    funext facet primary m
    unfold TensorTerms.term
    simp only [Form.arrange_monomials, Form.quadratureDegree_monomials]
  have hquadratureCase : quadratureCase s { f with monomials := monomials } = quadratureCase s f := by
    funext d kind ms facets
    unfold quadratureCase storeTerms
    rw [hquadrature]
    rfl
  have hcontractionCase : contractionCase s { f with monomials := monomials } =
      contractionCase s f := by
    funext kind domain ms primary facet
    unfold contractionCase tensorTerms
    rw [hterm]
    rfl
  funext primary kind domain ms
  unfold integralRoutine quadratureRoutine contractionRoutine
  rw [hquadratureCase, hcontractionCase]
  rfl

/-- A compiled integral depends on the monomials that it is made of, not on all of the form. -/
theorem compileIntegral_monomials (primary : MultiIndex) (kind : Integral) (domain : Nat)
    (ms : List (Monomial α)) :
    compileIntegral s { f with monomials := monomials } primary kind domain ms =
      compileIntegral s f primary kind domain ms := by
  funext c
  unfold compileIntegral
  rw [integralRoutine_monomials]
  rfl

/-- Integrals are compiled independently of each other and of history. After any calls, two forms
    that agree in all but their monomials, and in the monomials of one kind and domain, have the
    same routine for that kind and domain, whatever their other monomials are. -/
theorem compile_integral_eq (c : Compiler α) (calls calls' : List (Call α)) {f f' : Form α}
    {kind : Integral} {domain : Nat} {r r' : CompiledForm} {i i' : CompiledIntegral}
    (hname : f.name = f'.name) (hcell : f.cell = f'.cell)
    (hgdim : f.geometricDimension = f'.geometricDimension) (harguments : f.arguments = f'.arguments)
    (hmonomials : (f.monomials.filter fun m => m.integral = kind && m.domain = domain) =
      f'.monomials.filter fun m => m.integral = kind && m.domain = domain)
    (hr : ((c.after calls).compile f).1 = .ok r) (hr' : ((c.after calls').compile f').1 = .ok r')
    (hi : i ∈ r.integrals) (hkind : i.kind = kind) (hdomain : i.domain = domain)
    (hi' : i' ∈ r'.integrals) (hkind' : i'.kind = kind) (hdomain' : i'.domain = domain) :
    i = i' := by
  -- The forms are made equal up to their monomials before anything is compiled.
  rcases f with ⟨name, cell, gdim, arguments, monomials⟩
  rcases f' with ⟨name', cell', gdim', arguments', monomials'⟩
  subst hname hcell hgdim harguments
  rcases compile_eq_ok hr i hi with ⟨c₁, hok⟩
  rcases compile_eq_ok hr' i' hi' with ⟨c₁', hok'⟩
  -- Both runs are moved to an empty allocator, where they are the same computation.
  rw [setting_after, hkind, hdomain, compileIntegral_eq _ _ _ _ _ _ c₁ .empty] at hok
  rw [setting_after, hkind', hdomain', ← hmonomials, compileIntegral_eq _ _ _ _ _ _ c₁' .empty,
    ← compileIntegral_monomials _ _ monomials] at hok'
  exact Except.ok.inj (hok.symm.trans hok')

end Compiler

end

/-- Linear forms on an interval. -/
def slopeForm (monomials : List (Monomial ℚ)) : Form ℚ :=
  ⟨"slope", .interval, 1, [⟨.lagrange, .interval, 1, [], [], .affine, Element.affineDofs 2 0⟩],
    monomials⟩

/-- The integral of a derivative over a domain. -/
def slopeOn (domain : Nat) : Monomial ℚ := ⟨.cell, domain, 1, none, [⟨0, 0, [0], none⟩]⟩

/-- A monomial of an argument that does not exist. -/
def strayMonomial : Monomial ℚ := ⟨.exteriorFacet, 0, 1, none, [⟨7, 0, [], none⟩]⟩

/-- A compiler that contracts. -/
def slopeCompiler : Compiler ℚ :=
  ⟨⟨⟨2, 0, true, none, .tensor⟩, fun _ => "1.0", fun _ => [(1 / 2, 1)], Tabulator.lagrange⟩, {}⟩

/-- The second domain is compiled behind another one that draws an index and in front of a failure,
    and after a failure on its own. -/
theorem compile_integral_eq_slope : ∃ r r' i i',
    ((slopeCompiler.after [.compile (slopeForm [strayMonomial])]).compile
      (slopeForm [slopeOn 0, slopeOn 1, strayMonomial])).1 = .ok r ∧
    ((slopeCompiler.after []).compile (slopeForm [slopeOn 1])).1 = .ok r' ∧
    r.integral? .cell 1 = some i ∧ r'.integral? .cell 1 = some i' ∧ i = i' := by
  have hfind : ∀ {x : Checked CompiledForm}, (match x with
      | .ok r => (r.integral? .cell 1).isSome
      | .error _ => false) = true → ∃ r i, x = .ok r ∧ r.integral? .cell 1 = some i ∧
        i ∈ r.integrals ∧ i.kind = .cell ∧ i.domain = 1 := by
    intro x hx
    cases x with
    | error e => exact absurd hx Bool.false_ne_true
    | ok r =>
      rcases Option.isSome_iff_exists.1 hx with ⟨i, hi⟩
      have hboth := List.find?_some hi
      rw [Bool.and_eq_true, decide_eq_true_iff, decide_eq_true_iff] at hboth
      exact ⟨r, i, rfl, hi, List.mem_of_find?_eq_some hi, hboth.1, hboth.2⟩
  rcases hfind (x := ((slopeCompiler.after [.compile (slopeForm [strayMonomial])]).compile
    (slopeForm [slopeOn 0, slopeOn 1, strayMonomial])).1) (by decide +kernel)
    with ⟨r, i, hr, hfound, hi, hkind, hdomain⟩
  rcases hfind (x := ((slopeCompiler.after []).compile (slopeForm [slopeOn 1])).1)
    (by decide +kernel) with ⟨r', i', hr', hfound', hi', hkind', hdomain'⟩
  exact ⟨r, r', i, i', hr, hr', hfound, hfound',
    Compiler.compile_integral_eq slopeCompiler _ _ (by rfl) (by rfl) (by rfl) (by rfl) (by rfl) hr hr'
      hi hkind hdomain hi' hkind' hdomain'⟩

end WeakForm
