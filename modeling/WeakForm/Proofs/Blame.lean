import WeakForm.Proofs.Compilation
import WeakForm.Proofs.ContractionCode
import WeakForm.Proofs.FacetPoints

/-!
# Where problems come from

An integral that has failed names a problem, and the problem has a cause in the form: the
dimensions, a monomial that does not fit, or an element that cannot be tabulated. There is
no other cause, and sizes have nothing to do with it. A size that does not fit is a fault
and never a problem, so nothing has to be assumed about sizes here.

`Outcome.Blames T x` says that a problem of `x` shows the condition `T`. It goes through
computations step by step. Most steps are computed with sizes and cannot have a problem
(`blames_lift`). The others are the ones that look at the input, and each of them comes with
its cause.

Several problems that the library knows do not occur. Rules exist in all dimensions that
cells and facets have, the points of a rule have as many coordinates as its cell, basis
functions that the Lagrange tabulator knows have one component, and the terms of one
integral range over the same basis functions.

## Main definitions

* `Outcome.Blames`, `Drawing.Blames`: A condition that every problem shows.

## Theorems

* `blames_quadratureCase`, `blames_contractionCase`: The causes in both representations.
* `Compiler.blames_integralRoutine`: The causes of the problems of an integral.
-/

namespace WeakForm

open List Success

variable {α : Type}

namespace Outcome

variable {β γ : Type} {T : Prop} {x : Outcome β} {f : β → Outcome γ} {xs : List β}

/-- A problem of the computation shows the condition. -/
def Blames (T : Prop) (x : Outcome β) : Prop := ∀ p, x = .error (.problem p) → T

theorem Blames.mono {T' : Prop} (h : Blames T x) (hT : T → T') : Blames T' x :=
  fun p hp => hT (h p hp)

theorem blames_ok (b : β) : Blames T (.ok b) := fun _ h => by cases h

theorem blames_bind (hx : Blames T x) (hf : ∀ b, x = .ok b → Blames T (f b)) :
    Blames T (x >>= f) := by
  intro p hp
  cases x with
  | ok b => exact hf b rfl p hp
  | error e => exact hx p (congrArg Except.error (Except.error.inj hp))

theorem blames_lift (x : Checked β) : Blames T (liftM x : Outcome β) := by
  intro p hp
  cases x with
  | ok b => cases hp
  | error e => cases hp

theorem blames_mapM (h : ∀ x ∈ xs, Blames T (f x)) : Blames T (xs.mapM f) := by
  induction xs with
  | nil =>
    rw [mapM_nil]
    exact blames_ok []
  | cons x xs ih =>
    rw [forall_mem_cons] at h
    rw [mapM_cons]
    exact blames_bind h.1 fun y _ => blames_bind (ih h.2) fun ys _ => blames_ok _

theorem blames_foldlM {f : γ → β → Outcome γ} (h : ∀ x ∈ xs, ∀ a, Blames T (f a x)) (a : γ) :
    Blames T (xs.foldlM f a) := by
  induction xs generalizing a with
  | nil => exact blames_ok a
  | cons x xs ih =>
    rw [forall_mem_cons] at h
    rw [foldlM_cons]
    exact blames_bind (h.1 a) fun b _ => ih h.2 b

end Outcome

open Outcome

namespace Drawing

variable {β γ : Type} {T : Prop}

/-- A problem of the computation shows the condition, whatever has been handed out before. -/
def Blames (T : Prop) (x : Drawing β) : Prop := ∀ c, Outcome.Blames T (x.run c).1

theorem blames_ofOutcome {x : Outcome β} (h : Outcome.Blames T x) : (ofOutcome x).Blames T :=
  fun _ => h

theorem blames_pure (b : β) : (pure b : Drawing β).Blames T := fun _ => blames_ok b

theorem blames_bind {x : Drawing β} {f : β → Drawing γ} (hx : x.Blames T)
    (hf : ∀ b c c', x.run c = (.ok b, c') → (f b).Blames T) : (x >>= f).Blames T := by
  intro c
  have hc := hx c
  rw [run_bind]
  cases hrun : x.run c with
  | mk result c' =>
    rw [hrun] at hc
    cases result with
    | ok b => exact hf b c c' hrun c'
    | error e => exact fun p hp => hc p (congrArg Except.error (Except.error.inj hp))

theorem blames_mapM {f : β → Drawing γ} {xs : List β} (h : ∀ x ∈ xs, (f x).Blames T) :
    (xs.mapM f).Blames T := by
  induction xs with
  | nil =>
    rw [mapM_nil]
    exact blames_pure []
  | cons x xs ih =>
    rw [forall_mem_cons] at h
    rw [mapM_cons]
    exact blames_bind h.1 fun y _ _ _ => blames_bind (ih h.2) fun ys _ _ _ => blames_pure _

end Drawing

namespace Rule

variable [Scalar α] {T : Prop} {source : Gauss.Source α} {s : Shape} {degree : Nat}

theorem blames_simplex {dimension : Nat} (h : dimension ≤ 3) :
    Blames T (simplex source dimension degree) := by
  refine blames_bind (blames_lift _) fun n _ => ?_
  rcases (by omega : dimension = 0 ∨ dimension = 1 ∨ dimension = 2 ∨ dimension = 3) with
    rfl | rfl | rfl | rfl
  · exact blames_ok _
  all_goals exact blames_bind (blames_lift _) fun line _ => blames_ok _

theorem blames_reference (facet : Option Nat) : Blames T (reference source s facet degree) := by
  have hle := s.dimension_le
  cases facet with
  | none => exact blames_simplex hle
  | some facet =>
    refine blames_bind (blames_simplex (by omega)) fun r _ => ?_
    exact blames_bind (blames_lift _) fun points _ => blames_ok _

theorem length_of_mem_reference {facet : Option Nat} {r : Rule α}
    (h : reference source s facet degree = .ok r) :
    ∀ point ∈ r.points, point.length = s.dimension := by
  cases facet with
  | none => exact length_of_mem_simplex h
  | some facet =>
    rcases reference_facet_eq_ok h with ⟨q, vertices, hq, _, hvertices, hpoints⟩
    have hlength := (Shape.facetVertices_spec hvertices).1
    refine forall₂_left ((forall₂_and_left _ _).2 ⟨length_of_mem_simplex hq, hpoints⟩).flip ?_
    rintro image point ⟨hpoint, himage⟩
    have hsure := Shape.sure_facetPoint hlength hpoint
    rw [himage] at hsure
    exact hsure

end Rule

/-- Tables are missing for elements that the tabulator does not know, and for no others. -/
theorem Tabulator.blames_lagrange [Scalar α] {e : Element} {points : List (List α)}
    (hpoints : ∀ point ∈ points, point.length = e.cell.dimension) (order : Nat) :
    Blames (isLagrange e = false) (lagrange e points order) := by
  unfold lagrange
  simp only
  split
  · split
    · next point hpoint =>
      have hwrong := find?_some hpoint
      exact absurd (hpoints point (mem_of_find?_eq_some hpoint)) (of_decide_eq_true hwrong)
    · refine blames_bind (blames_lift _) fun size _ => blames_bind (blames_lift _) fun _ _ =>
        blames_bind (blames_lift _) fun derivatives _ => ?_
      split
      · exact blames_lift _
      · exact fun p hp => by cases hp
  · next hunknown => exact fun _ _ => (Bool.not_eq_true _).mp hunknown

theorem blames_expandFactor [Scalar α] {T : Prop} {e : Element} (he : e.Componentwise)
    (factor : Factor) (t : Table α) (d : Dimensions) (epsilon : α) :
    Blames T (expandFactor e factor t d epsilon) := by
  refine blames_bind (blames_lift _) fun _ _ => blames_bind (blames_lift _) fun _ _ =>
    blames_bind (blames_lift _) fun number _ => blames_bind (blames_mapM fun x hx => ?_)
      fun lists _ => blames_ok _
  rcases he.dofs x.1 (fst_mem_of_mem_zipIdx hx) with ⟨c, _, hdata⟩
  rcases x with ⟨data, k⟩
  subst hdata
  refine blames_bind (blames_lift _) fun stop _ => ?_
  split
  · refine blames_bind (blames_bind (blames_lift _) fun entries _ => blames_ok _) fun mapped _ =>
      blames_bind (blames_lift _) fun axes _ => blames_bind (blames_lift _) fun chains _ =>
        blames_bind (blames_lift _) fun _ _ => blames_bind (blames_mapM fun y _ => ?_) fun lists _ =>
          blames_ok _
    refine blames_mapM fun z _ => ?_
    exact blames_bind (blames_lift _) fun scaled _ => blames_bind (blames_lift _) fun c _ => blames_ok _
  · exact blames_ok _

section

variable [Scalar α] {s : Setting α} {f : Form α}
  (htabulator : s.tabulator = Tabulator.lagrange)

include htabulator

theorem blames_table {factors : List Factor} {m : Monomial α} (harrange : f.arrange m = .ok factors)
    {factor : Factor} (hfactor : factor ∈ factors) {e : Element}
    (he : f.arguments[factor.argument]? = some e) {points : List (List α)}
    (hpoints : ∀ point ∈ points, point.length = f.cell.dimension) :
    Blames (f.Flawed m) (s.tabulator e points factor.order) := by
  rcases bind_eq_ok.1 harrange with ⟨d, hd, _⟩
  rcases (Form.arrange_eq_ok (lift_problem_eq_ok.1 hd) harrange).2 factor hfactor with ⟨e', hfits⟩
  have hsame := hfits.argument
  rw [he] at hsame
  cases hsame
  rw [← hfits.cell] at hpoints
  rw [htabulator]
  exact (Tabulator.blames_lagrange hpoints factor.order).mono fun hunknown =>
    Or.inr ⟨e, mem_of_getElem? he, hunknown⟩

theorem blames_quadratureTerm (harguments : ∀ e ∈ f.arguments, e.Constructed) (d : Dimensions)
    (m : Monomial α) (facets : Facets) : Blames (f.Flawed m) (quadratureTerm s f d m facets) := by
  refine blames_bind (fun p hp => Or.inl ⟨p, hp⟩) fun factors hfactors => ?_
  refine blames_bind (blames_lift _) fun degree _ => blames_bind (blames_lift _) fun _ _ => ?_
  refine blames_bind (Rule.blames_reference _) fun rule hrule => ?_
  refine blames_bind ?_ fun minus hminus => ?_
  · cases facets.2 with
    | none => exact blames_ok _
    | some k =>
      rw [Option.mapM_some]
      exact blames_bind (Rule.blames_reference _) fun r _ => blames_ok _
  have hminus' : ∀ r ∈ minus, ∀ point ∈ r.points, point.length = f.cell.dimension := by
    intro r hr
    cases hfacet : facets.2 with
    | none =>
      rw [hfacet, Option.mapM_none, pure_eq_ok] at hminus
      exact absurd hr (hminus ▸ Option.not_mem_none r)
    | some k =>
      rw [hfacet, Option.mapM_some] at hminus
      rcases bind_eq_ok.1 hminus with ⟨r', hr', hminus⟩
      rw [← pure_eq_ok.1 hminus, Option.mem_some_iff] at hr
      exact hr ▸ Rule.length_of_mem_reference hr'
  refine blames_bind (blames_mapM fun factor hfactor => ?_) fun tables _ => blames_ok _
  refine blames_bind (blames_lift _) fun e he => ?_
  have he := entryAt_eq_ok.1 (lift_fault_eq_ok.1 he)
  have hpoints : ∀ point ∈ (placement e rule minus factor.side).1,
      point.length = f.cell.dimension := by
    unfold placement
    split
    · exact hminus' _ rfl
    · exact Rule.length_of_mem_reference hrule
  refine blames_bind (blames_table htabulator hfactors hfactor he hpoints) fun reference href => ?_
  refine blames_bind (blames_expandFactor ?_ factor reference d _) fun x _ => blames_ok _
  rw [htabulator] at href
  exact (harguments e (mem_of_getElem? he)).componentwise (Form.isLagrange_of_ok href)

theorem blames_quadratureCase (harguments : ∀ e ∈ f.arguments, e.Constructed) (d : Dimensions)
    (kind : Integral) (ms : List (Monomial α)) (facets : Facets) :
    Blames (∃ m ∈ ms, f.Flawed m) (quadratureCase s f d kind ms facets) := by
  refine blames_bind (blames_foldlM (fun x hx state => ?_) _) fun stored _ => ?_
  · refine blames_bind ((blames_quadratureTerm htabulator harguments d x.1 facets).mono
      fun hflawed => ⟨x.1, fst_mem_of_mem_zipIdx hx, hflawed⟩) fun t _ => ?_
    exact blames_bind (blames_lift _) fun _ _ => blames_ok _
  · refine blames_bind (blames_foldlM (fun x _ state => ?_) _) fun loops _ => ?_
    · exact blames_bind (blames_lift _) fun _ _ => blames_bind (blames_lift _) fun _ _ => blames_ok _
    · exact blames_bind (blames_lift _) fun _ _ => blames_bind (blames_lift _) fun _ _ => blames_ok _

theorem TensorTerms.blames_term (facet : Option Nat) (primary : MultiIndex) (m : Monomial α) :
    (term s.gauss s.tabulator f facet primary m).Blames (f.Flawed m) := by
  refine Drawing.blames_bind (Drawing.blames_ofOutcome ?_) fun x c c' hx => ?_
  · refine blames_bind (fun p hp => Or.inl ⟨p, hp⟩) fun factors _ => ?_
    refine blames_bind (blames_lift _) fun degree _ => blames_bind (blames_lift _) fun _ _ => ?_
    exact blames_bind (Rule.blames_reference _) fun rule _ => blames_ok _
  rw [Drawing.run_ofOutcome, Prod.mk.injEq] at hx
  rcases bind_eq_ok.1 hx.1 with ⟨factors, hfactors, hx⟩
  rcases bind_eq_ok.1 hx with ⟨degree, _, hx⟩
  rcases bind_eq_ok.1 hx with ⟨_, _, hx⟩
  rcases bind_eq_ok.1 hx with ⟨rule, hrule, hx⟩
  cases hx
  refine Drawing.blames_bind (fun c => blames_ok _) fun a _ _ _ => Drawing.blames_ofOutcome ?_
  refine blames_bind (blames_mapM fun factor hfactor => ?_) fun tables _ => ?_
  · refine blames_bind (blames_lift _) fun e he => ?_
    have he := entryAt_eq_ok.1 (lift_fault_eq_ok.1 he)
    exact blames_bind (blames_table htabulator hfactors hfactor he
      (Rule.length_of_mem_reference hrule)) fun t _ => blames_ok _
  · exact blames_bind (blames_lift _) fun _ _ => blames_bind (blames_lift _) fun reference _ =>
      blames_bind (blames_lift _) fun geometry _ => blames_lift _

omit htabulator in
theorem ElementTensor.blames_of {T : Prop} {terms : List (TensorTerm α)} {primary : MultiIndex}
    (h : ∀ t ∈ terms, t.reference.i = primary) (integral : Integral) (domain : Nat)
    (style : Style α) : Blames T (ElementTensor.of terms integral domain style) := by
  have hdims : ∀ first, ElementTensor.primary terms = some first →
      terms.find? (fun t => t.reference.i.dims ≠ first.dims) = none := by
    intro first hfirst
    unfold ElementTensor.primary at hfirst
    rcases Option.map_eq_some_iff.1 hfirst with ⟨t, ht, rfl⟩
    rw [find?_eq_none]
    intro u hu
    rw [h u hu, h t (mem_of_mem_head? ht)]
    simp
  unfold ElementTensor.of
  cases hprimary : ElementTensor.primary terms with
  | none =>
    exact blames_bind (blames_lift _) fun _ _ => blames_bind (blames_lift _) fun _ _ =>
      blames_bind (blames_lift _) fun _ _ => blames_ok _
  | some first =>
    simp only [hdims first hprimary]
    exact blames_bind (blames_lift _) fun _ _ => blames_bind (blames_lift _) fun _ _ =>
      blames_bind (blames_lift _) fun _ _ => blames_ok _

theorem blames_contractionCase (kind : Integral) (domain : Nat) (ms : List (Monomial α))
    (primary : MultiIndex) (facet : Option Nat) :
    (contractionCase s f kind domain ms primary facet).Blames (∃ m ∈ ms, f.Flawed m) := by
  refine Drawing.blames_bind (Drawing.blames_ofOutcome (blames_lift _)) fun _ _ _ _ => ?_
  refine Drawing.blames_bind (Drawing.blames_mapM fun m hm c => ?_) fun terms c c' hterms => ?_
  · exact (TensorTerms.blames_term htabulator facet primary m c).mono fun hflawed =>
      ⟨m, hm, hflawed⟩
  have hranges : ∀ t ∈ terms, t.reference.i = primary :=
    fun t ht => ((tensorTerms_ranges hterms).2 t ht).primary
  exact Drawing.blames_ofOutcome (blames_bind (blames_mapM fun _ _ => blames_lift _) fun _ _ =>
    blames_bind (ElementTensor.blames_of hranges _ _ _) fun tensor _ => blames_lift _)

end

section

variable {T : Prop} {case : Facets → Drawing (CaseCode α)} {kind : Integral}
  {s : Setting α} {f : Form α}

theorem blames_caseBody {shape : Shape} (h : ∀ facets, (case facets).Blames T) :
    (caseBody shape kind case).Blames T := by
  unfold caseBody
  cases kind with
  | cell => exact Drawing.blames_bind (h _) fun _ _ _ _ => Drawing.blames_pure _
  | exteriorFacet =>
    exact Drawing.blames_bind (Drawing.blames_mapM fun _ _ => h _) fun _ _ _ _ =>
      Drawing.blames_pure _
  | interiorFacet =>
    exact Drawing.blames_bind (Drawing.blames_mapM fun _ _ => Drawing.blames_mapM fun _ _ => h _)
      fun _ _ _ _ => Drawing.blames_pure _

theorem Form.blames_dims (f : Form α) (ms : List (Monomial α)) :
    Blames (f.Troubled ms) (do return ← f.dims) := by
  cases h : f.dims with
  | ok d => exact blames_ok d
  | error p => exact fun _ _ => Or.inl ⟨p, h⟩

theorem blames_routine [Scalar α] {name : String} {ms : List (Monomial α)}
    (h : ∀ facets, (case facets).Blames (f.Troubled ms)) :
    (routine s f kind name ms.isEmpty case).Blames (f.Troubled ms) := by
  refine Drawing.blames_bind (Drawing.blames_ofOutcome (f.blames_dims ms)) fun d _ _ _ => ?_
  cases ms.isEmpty with
  | true =>
    exact Drawing.blames_bind (Drawing.blames_ofOutcome (blames_lift _)) fun _ _ _ _ =>
      Drawing.blames_pure _
  | false => exact Drawing.blames_bind (blames_caseBody h) fun _ _ _ _ => Drawing.blames_pure _

theorem Compiler.blames_integralRoutine [Scalar α] (htabulator : s.tabulator = Tabulator.lagrange)
    (harguments : ∀ e ∈ f.arguments, e.Constructed) (primary : MultiIndex) (kind : Integral)
    (domain : Nat) (ms : List (Monomial α)) :
    (integralRoutine s f primary kind domain ms).Blames (f.Troubled ms) := by
  unfold integralRoutine
  simp only
  split
  · refine blames_routine fun facets c => ?_
    exact (blames_contractionCase htabulator kind domain ms primary facets.1 c).mono Or.inr
  · refine Drawing.blames_bind (Drawing.blames_ofOutcome (f.blames_dims ms)) fun d _ _ _ => ?_
    refine blames_routine fun facets => Drawing.blames_ofOutcome ?_
    exact (blames_quadratureCase htabulator harguments d kind ms facets).mono Or.inr

end
end WeakForm
