import WeakForm.Proofs.SoundTensors

/-!
# Compiling without faults

The arguments of a form come from constructors, but its monomials are arbitrary: their
factors may name arguments, components and axes that do not exist, or name them twice.
All of that is found when a monomial is arranged, and becomes an integral that has
failed. An integral fails for no other reason than these problems and elements that
cannot be tabulated (`Form.Troubled`), and a form is always compiled as a whole.

The assumption is that sizes fit (`Form.Manageable`). It speaks of the sizes of rules,
tables and tensors and of lists of tuples, where what is allocated at once has to fit the
address space and not just a word. And it speaks of one number that is no size: the
operations that a routine counts for its comments and for its result, by quadrature or by
contraction. `overflow_linearPowers` shows that words are not enough (`Form.WordSized`).
The element tensor of fifty-nine linear factors on an interval has a size that fits, with
room for thirty-two of its kind, but each entry takes sixty-one operations, and the tuples
of its indices are too many to be listed.

The assumption can be evaluated for any form, also for one with problems: the sizes are
those of what a monomial asks for, whether it gets that far or not.

## Theorems

* `Compiler.integralRoutine_sound`: The routine of an integral.
* `Compiler.not_troubled_of_ok`: Integrals that are compiled have no problem.
* `Compiler.compile_faultless`: Forms are compiled without faults.
* `overflow_linearPowers`: Forms that overflow although their sizes are words.
-/

namespace WeakForm

open List Success Drawing Tabulator

variable {α : Type}

section

variable {f : Form α} {T : Prop} {case : Facets → Drawing (CaseCode α)} {kind : Integral}
  {s : Setting α} {name : String}

theorem caseBody_sound {shape : Shape}
    (h : ∀ facets ∈ facetCases shape kind, (case facets).Sound T fun _ => True) :
    (caseBody shape kind case).Sound T fun _ => True := by
  unfold caseBody
  cases kind with
  | cell => exact sound_bind (h _ (mem_singleton_self _)) fun _ _ _ => trivial
  | exteriorFacet =>
    refine sound_bind (sound_mapM (Q := fun _ => True) fun k hk => ?_)
      fun _ _ _ => trivial
    exact h _ (mem_map_of_mem hk)
  | interiorFacet =>
    refine sound_bind (sound_mapM (Q := fun _ => True) fun j hj c => ?_)
      fun _ _ _ => trivial
    refine (sound_mapM (Q := fun _ => True) (fun k hk => ?_) c).mono fun _ _ => trivial
    exact h _ (mem_flatMap.2 ⟨j, hj, mem_map_of_mem hk⟩)

/-- The integral of some monomials has a problem: the dimensions of the form are not supported,
    or one of the monomials is flawed. -/
def Form.Troubled (f : Form α) (ms : List (Monomial α)) : Prop :=
  (∃ p, f.dims = .error p) ∨ ∃ m ∈ ms, f.Flawed m

theorem Form.dims_sound (f : Form α) (ms : List (Monomial α)) :
    Outcome.Sound (f.Troubled ms) (fun d => f.dims = .ok d) (do return ← f.dims) := by
  cases h : f.dims with
  | ok d => exact rfl
  | error p => exact Or.inl ⟨p, h⟩

variable [Scalar α]

theorem routine_sound {ms : List (Monomial α)}
    (htensor : Size.extent (macroDims f kind) < Size.limit)
    (hcase : (∃ d, f.dims = .ok d) → ∀ facets ∈ facetCases f.cell kind,
      (case facets).Sound (f.Troubled ms) fun _ => True) :
    (routine s f kind name ms.isEmpty case).Sound (f.Troubled ms) fun _ => True := by
  unfold routine
  refine sound_bind (sound_ofOutcome (f.dims_sound ms)) fun d hd => ?_
  cases ms.isEmpty with
  | true =>
    refine sound_bind (P := fun _ => True) (sound_ofOutcome ?_) fun _ _ _ => trivial
    exact Ensures.lift (.of_ok (Size.product_of_extent htensor) trivial)
  | false => exact sound_bind (caseBody_sound (hcase ⟨d, hd⟩)) fun _ _ _ => trivial

/-- A routine that is there has dimensions, and a case if there are monomials. -/
theorem routine_run_ok {isEmpty : Bool} {c c' : Allocator} {r : Routine α}
    (h : (routine s f kind name isEmpty case).run c = (.ok r, c')) : (∃ d, f.dims = .ok d) ∧
      (isEmpty = false → ∃ facets c₁ y c₂, (case facets).run c₁ = (.ok y, c₂)) := by
  refine ⟨?_, fun hempty => ?_⟩
  · rcases run_bind_eq_ok.1 h with ⟨d, c₁, hd, _⟩
    rw [run_ofOutcome, Prod.mk.injEq] at hd
    exact ⟨d, lift_problem_eq_ok.1 hd.1⟩
  · subst hempty
    rcases routine_eq_ok h with ⟨_, _, _, _, _, _, _, hcases⟩
    rcases exists_mem_of_ne_nil _ (facetCases_ne_nil f.cell kind) with ⟨facets, hfacets⟩
    rcases forall₂_mem hcases hfacets with ⟨y, _, _, c₁, c₂, hy⟩
    exact ⟨facets, c₁, y, c₂, hy⟩

end

namespace Form

variable [Scalar α] {f : Form α} {m : Monomial α}

theorem isLagrange_of_ok {e : Element} {points : List (List α)} {order : Nat} {t : Table α}
    (h : lagrange e points order = .ok t) : isLagrange e = true := by
  by_contra hunknown
  unfold lagrange at h
  simp only [hunknown, ↓reduceIte] at h
  rcases bind_eq_ok.1 h with ⟨_, hthrow, _⟩
  exact throw_eq_ok.1 hthrow

/-- A monomial whose factors have been tabulated is not flawed: every argument has a factor. -/
theorem not_flawed {factors : List Factor} (harrange : f.arrange m = .ok factors)
    (htables : ∀ factor ∈ factors, ∃ e points t, f.arguments[factor.argument]? = some e ∧
      lagrange (α := α) e points factor.order = .ok t) : ¬ f.Flawed m := by
  rintro (⟨p, hp⟩ | ⟨e, he, hunknown⟩)
  · rw [harrange] at hp
    cases hp
  · rcases mem_iff_getElem?.1 he with ⟨k, hk⟩
    have hlt : k ∈ range f.rank := mem_range.2 (List.getElem?_eq_some_iff.1 hk).1
    rw [← arrange_arguments harrange] at hlt
    rcases mem_map.1 hlt with ⟨factor, hfactor, rfl⟩
    rcases htables factor hfactor with ⟨e', points, t, he', ht⟩
    rw [hk, Option.some.injEq] at he'
    rw [he', isLagrange_of_ok ht] at hunknown
    cases hunknown

end Form

namespace Compiler

variable [Scalar α] {s : Setting α} {f : Form α} {kind : Integral} {domain : Nat}
  {ms : List (Monomial α)} {primary : MultiIndex} {x : CaseCode α} {c c' : Allocator}
  (htabulator : s.tabulator = lagrange)

include htabulator

theorem not_flawed_of_quadratureCase {d : Dimensions} {facets : Facets}
    (h : quadratureCase s f d kind ms facets = .ok x) : ∀ m ∈ ms, ¬ f.Flawed m := by
  intro m hm
  rcases bind_eq_ok.1 h with ⟨stored, hstored, _⟩
  rcases storeTerms_made hstored (Q := fun _ => True) fun _ _ _ _ _ _ _ _ => trivial with
    ⟨_, _, _, _, _, hterms, _⟩
  rcases forall₂_mem hterms hm with ⟨⟨t, _⟩, _, ht, _⟩
  rcases quadratureTerm_eq_ok ht with ⟨factors, degree, rule, minus, harrange, _, _, _, _, hfactors⟩
  refine Form.not_flawed harrange (forall₂_left hfactors fun factor x hx => ?_)
  rcases hx with ⟨e, reference, he, _, hreference, _⟩
  rw [htabulator] at hreference
  exact ⟨e, _, reference, he, hreference⟩

theorem not_flawed_of_contractionCase {facet : Option Nat}
    (h : (contractionCase s f kind domain ms primary facet).run c = (.ok x, c')) :
    ∀ m ∈ ms, ¬ f.Flawed m := by
  rcases contractionCase_eq_ok h with ⟨terms, _, hterms, _⟩
  refine forall₂_left (run_mapM_eq_ok hterms) fun m t ht => ?_
  rcases ht with ⟨c₂, c₃, ht⟩
  rcases TensorTerms.term_eq_ok ht with ⟨factors, degree, rule, tables, reference, harrange, _, _,
    htables, _⟩
  refine Form.not_flawed harrange (forall₂_left htables fun factor x hx => ?_)
  rcases hx with ⟨_, e, he, htable⟩
  rw [htabulator] at htable
  exact ⟨e, _, x.2, he, htable⟩

theorem not_troubled_of_ok {r : Routine α}
    (h : (integralRoutine s f primary kind domain ms).run c = (.ok r, c')) : ¬ f.Troubled ms := by
  -- In both representations a case reads every monomial, and without monomials there is no case.
  have hrun : (∃ d, f.dims = .ok d) ∧ (ms.isEmpty = false → ∀ m ∈ ms, ¬ f.Flawed m) := by
    unfold integralRoutine at h
    simp only at h
    split at h
    · rcases routine_run_ok h with ⟨hd, hcase⟩
      refine ⟨hd, fun hempty => ?_⟩
      rcases hcase hempty with ⟨facets, c₁, x, c₂, hx⟩
      exact not_flawed_of_contractionCase htabulator hx
    · rcases run_bind_eq_ok.1 h with ⟨d, c₁, _, h⟩
      rcases routine_run_ok h with ⟨hd, hcase⟩
      refine ⟨hd, fun hempty => ?_⟩
      rcases hcase hempty with ⟨facets, c₁, x, c₂, hx⟩
      rw [run_ofOutcome, Prod.mk.injEq] at hx
      exact not_flawed_of_quadratureCase htabulator hx.1
  rintro (⟨p, hp⟩ | ⟨m, hm, hflawed⟩)
  · rcases hrun.1 with ⟨d, hd⟩
    rw [hd] at hp
    cases hp
  · refine hrun.2 ?_ m hm hflawed
    rw [isEmpty_eq_false_iff]
    exact ne_nil_of_mem hm

/-- Whether integrals of a kind are contracted. -/
def contracts (s : Setting α) (f : Form α) (kind : Integral) : Bool :=
  s.options.representation = .tensor && supportsTensor f kind

end Compiler

/-- All sizes of a form fit, and so do the operations that its routines count. -/
@[mk_iff]
structure Form.Manageable [Scalar α] (s : Setting α) (f : Form α) : Prop where
  monomials : ∀ m ∈ f.monomials, f.Sized m
  quadrature : ∀ x ∈ integralsOf f, Compiler.contracts s f x.1 = false → ∀ d ∈ f.dims.toOption,
    ∀ facets ∈ facetCases f.cell x.1, QuadratureSized s f d x.1 x.2.2 facets
  contraction : ∀ x ∈ integralsOf f, Compiler.contracts s f x.1 = true →
    ∀ facets ∈ facetCases f.cell x.1, ContractionSized s f x.2.2
      (MultiIndex.primary .empty f.argumentDims).1 facets.1

instance [Scalar α] (s : Setting α) (f : Form α) : Decidable (f.Manageable s) :=
  decidable_of_iff' _ (Form.manageable_iff s f)

/-- The sizes of a monomial are words, whatever is allocated at once. -/
@[mk_iff]
structure Form.WordSized (f : Form α) (m : Monomial α) : Prop where
  degree : f.degree m + 4 < Size.limit
  points : f.pointCount m < Size.limit
  order : m.order < 2 ^ 31
  axes : ∀ factor ∈ m.factors, f.geometricDimension ^ factor.order < Size.limit
  tables : ∀ factor ∈ m.factors, ∀ e ∈ f.arguments[factor.argument]?,
    f.pointCount m * e.spaceDimension * f.cell.dimension ^ factor.order *
      max e.referenceShape.prod 1 < Size.limit
  tensor : (macroDims f m.integral).prod < Size.limit

instance (f : Form α) (m : Monomial α) : Decidable (f.WordSized m) :=
  decidable_of_iff' _ (Form.wordSized_iff f m)

namespace Compiler

variable [Scalar α] {s : Setting α} {f : Form α} {kind : Integral} {domain : Nat}
  {ms : List (Monomial α)} {primary : MultiIndex}

theorem integralRoutine_sound (hgauss : ∀ n, (s.gauss n).length = n)
    (htabulator : s.tabulator = lagrange)
    (harguments : ∀ e ∈ f.arguments, e.Constructed) (hf : f.Manageable s)
    (hintegral : (kind, domain, ms) ∈ integralsOf f) :
    (integralRoutine s f (MultiIndex.primary .empty f.argumentDims).1 kind domain ms).Sound
      (f.Troubled ms) fun _ => True := by
  have hms : ∀ m ∈ ms, m ∈ f.monomials ∧ m.integral = kind := by
    intro m hm
    rw [(mem_integralsOf hintegral).1, mem_filter, Bool.and_eq_true, decide_eq_true_iff] at hm
    exact ⟨hm.1, hm.2.1⟩
  have htensor : Size.extent (macroDims f kind) < Size.limit := by
    rcases (mem_integralsOf hintegral).2 with ⟨m, hm, rfl⟩
    exact (hf.monomials m hm).tensor
  unfold integralRoutine
  simp only
  split
  · next hcontracts =>
    refine routine_sound htensor fun hdims facets hfacets => ?_
    rcases hdims with ⟨d, hd⟩
    intro c
    refine (contractionCase_sound hgauss htabulator harguments hd (fun m hm => ?_) htensor hfacets
      rfl (hf.contraction _ hintegral hcontracts facets hfacets) domain c).allow Or.inr
    exact ⟨(hms m hm).2, hf.monomials m (hms m hm).1⟩
  · next hcontracts =>
    unfold quadratureRoutine
    refine sound_bind (sound_ofOutcome (f.dims_sound ms)) fun d hd => ?_
    refine routine_sound htensor fun _ facets hfacets => sound_ofOutcome ?_
    refine (quadratureCase_sound hgauss htabulator harguments hd (fun m hm => ?_) htensor hfacets
      ?_).allow Or.inr
    · exact ⟨(hms m hm).2, hf.monomials m (hms m hm).1⟩
    · exact hf.quadrature _ hintegral (Bool.not_eq_true _ ▸ hcontracts) d
        (congrArg Except.toOption hd) facets hfacets

/-- A compiled integral answers for its monomials: it has failed if they have a problem, and only
    then. -/
structure Answers (f : Form α) (x : Integral × Nat × List (Monomial α)) (i : CompiledIntegral) :
    Prop where
  kind : i.kind = x.1
  domain : i.domain = x.2.1
  failed : f.Troubled x.2.2 → ∃ p, i.outcome = .failed ⟨x.1, x.2.1, p⟩
  compiled : ¬ f.Troubled x.2.2 → ∀ p, i.outcome ≠ .failed p

theorem compileIntegral_sound (htabulator : s.tabulator = lagrange)
    (h : (integralRoutine s f primary kind domain ms).Sound (f.Troubled ms) fun _ => True)
    (c : Allocator) :
    Checked.Sure (Answers f (kind, domain, ms)) (compileIntegral s f primary kind domain ms c).1 := by
  have hc := h c
  unfold compileIntegral
  cases hrun : (integralRoutine s f primary kind domain ms).run c with
  | mk result c' =>
    rw [hrun] at hc
    simp only
    cases result with
    | ok r =>
      have hfine := not_troubled_of_ok htabulator hrun
      refine ⟨rfl, rfl, fun htroubled => absurd htroubled hfine, fun _ p => ?_⟩
      simp only
      split <;> simp only [ne_eq, reduceCtorEq, not_false_eq_true]
    | error e =>
      cases e with
      | problem p => exact ⟨rfl, rfl, fun _ => ⟨p, rfl⟩, fun hfine => absurd hc hfine⟩
      | fault fault => exact hc.elim

theorem compileIntegrals_sound (htabulator : s.tabulator = lagrange)
    {integrals : List (Integral × Nat × List (Monomial α))}
    (h : ∀ x ∈ integrals, (integralRoutine s f primary x.1 x.2.1 x.2.2).Sound (f.Troubled x.2.2)
      fun _ => True) (c : Allocator) :
    Checked.Sure (Forall₂ (Answers f) integrals) (compileIntegrals s f primary integrals c).1 := by
  rw [compileIntegrals_fst]
  exact Ensures.mapM fun x hx => compileIntegral_sound htabulator (h x hx) .empty

/-- Forms whose arguments come from constructors are compiled without faults if their sizes fit,
    whatever their monomials and the options are. Every problem becomes an integral that has
    failed. The blocks of the code are nested, which takes back every indentation. -/
theorem compile_faultless {c : Compiler α} {f : Form α}
    (hgauss : ∀ n, (c.setting.gauss n).length = n)
    (htabulator : c.setting.tabulator = Tabulator.lagrange)
    (harguments : ∀ e ∈ f.arguments, e.Constructed) (hf : f.Manageable c.setting) :
    (∃ compiled, (c.compile f).1 = .ok compiled ∧
      List.Forall₂ (Answers f) (integralsOf f) compiled.integrals) ∧
    ∀ l inner : Listing, (l.indent.append inner).dedent = .ok (l.nest inner) := by
  have hroutines : ∀ x ∈ integralsOf f, (integralRoutine c.setting f
      (MultiIndex.primary .empty f.argumentDims).1 x.1 x.2.1 x.2.2).Sound (f.Troubled x.2.2)
        fun _ => True :=
    fun x hx => integralRoutine_sound hgauss htabulator harguments hf hx
  rcases (compileIntegrals_sound htabulator hroutines
    (MultiIndex.primary .empty f.argumentDims).2).exists_ok with ⟨integrals, hintegrals, hanswers⟩
  refine ⟨⟨⟨f.name, integrals⟩, ?_, hanswers⟩, fun _ _ => rfl⟩
  unfold compile
  simp only [hintegrals]
  rfl

end Compiler

/-- The midpoint, repeated for as many nodes as a rule asks for. -/
def repeatedSetting (representation : Representation) : Setting ℚ :=
  ⟨⟨2, 0, true, none, representation⟩, wholeText, fun n => List.replicate n (1 / 2, 1 / n),
    Tabulator.lagrange⟩

def linearElement (cell : Shape) : Element :=
  ⟨.lagrange, cell, 1, [], [], .affine, Element.affineDofs (cell.dimension + 1) 0⟩

theorem constructed_linearElement (cell : Shape) : (linearElement cell).Constructed := by
  have hmake : Element.lagrange cell 1 = .ok (linearElement cell) := by cases cell <;> rfl
  exact .lagrange hmake

/-- Integrals over triangles and their facets. Two have a problem: an argument that does not
    exist, and a factor on an interior facet that does not name its side. -/
def flawedForm : Form ℚ :=
  ⟨"flawed", .triangle, 2, List.replicate 2 (linearElement .triangle),
    [⟨.cell, 0, 1, some 0, [⟨1, 0, [0], none⟩, ⟨0, 0, [1], none⟩]⟩,
      ⟨.cell, 2, 1, some 0, [⟨0, 0, [], none⟩, ⟨7, 0, [], none⟩]⟩,
      ⟨.interiorFacet, 0, 1, some 0, [⟨0, 0, [], some .plus⟩, ⟨1, 0, [0], some .minus⟩]⟩,
      ⟨.interiorFacet, 1, 1, some 0, [⟨0, 0, [], none⟩, ⟨1, 0, [], some .plus⟩]⟩]⟩

/-- Integrals of one form that are contracted, computed by quadrature, empty and failed. -/
theorem compile_faultless_flawedForm :
    (∀ n, ((repeatedSetting .tensor).gauss n).length = n) ∧
    (∀ e ∈ flawedForm.arguments, e.Constructed) ∧ flawedForm.Manageable (repeatedSetting .tensor) ∧
    (∃ m ∈ flawedForm.monomials, flawedForm.Troubled [m]) ∧
    (∃ m ∈ flawedForm.monomials, ¬ flawedForm.Troubled [m]) ∧
    ∃ compiled, (Compiler.compile ⟨repeatedSetting .tensor, {}⟩ flawedForm).1 = .ok compiled ∧
      List.Forall₂ (Compiler.Answers flawedForm) (integralsOf flawedForm) compiled.integrals := by
  have hgauss : ∀ n, ((repeatedSetting .tensor).gauss n).length = n :=
    fun n => List.length_replicate
  have harguments : ∀ e ∈ flawedForm.arguments, e.Constructed := by
    intro e he
    rw [List.eq_of_mem_replicate he]
    exact constructed_linearElement .triangle
  have hmanageable : flawedForm.Manageable (repeatedSetting .tensor) := by decide +kernel
  have htroubled : ∃ m ∈ flawedForm.monomials, flawedForm.Troubled [m] :=
    ⟨_, List.mem_cons_of_mem _ List.mem_cons_self, .inr ⟨_, List.mem_cons_self, .inl ⟨_, rfl⟩⟩⟩
  have hfine : ∃ m ∈ flawedForm.monomials, ¬ flawedForm.Troubled [m] := by
    refine ⟨_, List.mem_cons_self, ?_⟩
    rintro (⟨p, hp⟩ | ⟨m, hm, ⟨p, hp⟩ | ⟨e, he, hunknown⟩⟩)
    · cases hp
    · rw [List.mem_singleton.1 hm] at hp
      cases hp
    · rw [List.eq_of_mem_replicate he] at hunknown
      cases hunknown
  exact ⟨hgauss, harguments, hmanageable, htroubled, hfine,
    (Compiler.compile_faultless (c := ⟨repeatedSetting .tensor, {}⟩) hgauss rfl harguments
      hmanageable).1⟩

/-- The product of linear functions on an interval, and possibly of others. -/
def linearPowers (rank : Nat) (others : List Element) : Form ℚ :=
  ⟨"powers", .interval, 1, List.replicate rank (linearElement .interval) ++ others,
    [⟨.cell, 0, 1, some 1, (List.range (rank + others.length)).map fun k => ⟨k, 0, [], none⟩⟩]⟩

/-- A derivative of a linear function on an interval, integrated with a rule of some degree. -/
def derivativeForm (gdim order degree : Nat) : Form ℚ :=
  ⟨"derivatives", .interval, gdim, [linearElement .interval],
    [⟨.cell, 0, 1, some degree, [⟨0, 0, List.replicate order 0, none⟩]⟩]⟩

/-- The linear vectors without components on an interval. -/
def emptyElement : Element := ⟨.vectorLagrange, .interval, 1, [0], [0], .affine, []⟩

/-- The volume of a tetrahedron, computed with a rule of some degree. -/
def volumeForm (degree : Nat) : Form ℚ :=
  ⟨"volume", .tetrahedron, 3, [], [⟨.cell, 0, 1, some degree, []⟩]⟩

/-- Forms whose sizes are words, with the fault in compiling them. -/
def oversized : List (Form ℚ × Representation × Fault) :=
  -- The operations by quadrature, and the dimensions of a tensor in front of one that is empty
  [(linearPowers 59 [], .quadrature, .overflow),
    (linearPowers 64 [emptyElement], .quadrature, .overflow),
    -- The primary tuples of a reference tensor, and the tuples of axes
    (linearPowers 59 [], .tensor, .outOfRange), (derivativeForm 2 60 0, .quadrature, .outOfRange),
    -- The matrix of a Gauss rule, and the points of a rule
    (derivativeForm 1 2 (2 ^ 31 - 2), .quadrature, .outOfRange),
    (volumeForm (2 ^ 21 - 4), .quadrature, .outOfRange)]

/-- Forms may be refused by a fault although all their sizes fit a word. The operations of a routine
    may overflow even where all that is allocated fits. -/
theorem overflow_linearPowers : (∀ x ∈ oversized, (∀ e ∈ x.1.arguments, e.Constructed) ∧
      (∀ m ∈ x.1.monomials, x.1.WordSized m) ∧
      (Compiler.compile ⟨repeatedSetting x.2.1, {}⟩ x.1).1 = .error x.2.2) ∧
    (∀ m ∈ (linearPowers 59 []).monomials, (linearPowers 59 []).Sized m) ∧
    32 * (macroDims (linearPowers 59 []) .cell).prod = Size.limit := by
  have harguments : ∀ x ∈ oversized, ∀ e ∈ x.1.arguments,
      e = linearElement .interval ∨ e = emptyElement := by
    decide +kernel
  have hfaults : ∀ x ∈ oversized, (∀ m ∈ x.1.monomials, x.1.WordSized m) ∧
      (Compiler.compile ⟨repeatedSetting x.2.1, {}⟩ x.1).1 = .error x.2.2 := by
    decide +kernel
  refine ⟨fun x hx => ⟨fun e he => ?_, hfaults x hx⟩, by decide +kernel, by decide +kernel⟩
  rcases harguments x hx e he with rfl | rfl
  · exact constructed_linearElement .interval
  · have hmake : Element.vector .interval 1 0 = .ok emptyElement := rfl
    exact .vector (by decide) hmake

end WeakForm
