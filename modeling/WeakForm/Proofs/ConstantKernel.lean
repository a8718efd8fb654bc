import WeakForm.Proofs.ExactTensors
import WeakForm.Proofs.NodalTables

/-!
# Constants in the kernel of derivatives

A form that sees an argument only through its derivatives does not see constants. For the
element tensor this is a statement about sums: if every monomial differentiates the factor of
an argument, then the entries add up to zero along the index of that argument, whatever the
other indices and the geometry are.

The basis functions of a nodal element add up to a constant in every component, so their
derivatives of any order add up to zero. In an entry of a reference tensor, only the factor of
the argument depends on its index. Factor, product over the factors, sum over the points and
contraction with the geometry are linear in it, so the zero is carried through all of them.

## Theorems

* `evaluate_sum_eq_zero`: The sums of an element tensor along an argument.
-/

namespace WeakForm

open List MvPolynomial Success

variable {i : List Nat} {dims : List Nat} {k j n : Nat} {α : Type} {f : Form α}

theorem Tuple.set_mem_all (hi : i ∈ all dims) (hn : dims[k]? = some n) (hj : j < n) :
    i.set k j ∈ all dims := by
  rw [mem_all_iff] at hi ⊢
  induction hi generalizing k with
  | nil => cases hn
  | @cons x dim i dims hx hi ih =>
    cases k with
    | zero =>
      rw [getElem?_cons_zero, Option.some.injEq] at hn
      exact .cons (hn ▸ hj) hi
    | succ k => exact .cons hx (ih hn)

theorem Tuple.get_map_all {β : Type} (F : List Nat → β) (hi : i ∈ all dims) :
    ((all dims).map F)[linear dims i]? = some (F i) := by
  rw [getElem?_map, get_linear hi, Option.map_some]

theorem Form.argument_of_arrange {m : Monomial α} {factors : List Factor}
    (h : f.arrange m = .ok factors) {factor : Factor} (hn : factors[n]? = some factor) :
    factor.argument = n := by
  rcases forall₂_get (arrange_find h).flip hn with ⟨k, hk, hfind⟩
  have hargument := find?_some hfind
  rcases List.getElem?_eq_some_iff.1 hk with ⟨_, hk⟩
  rw [of_decide_eq_true hargument, ← hk, getElem_range]

theorem Form.set_mem_all (hi : i ∈ Tuple.all f.argumentDims) {e : Element}
    (he : f.arguments[k]? = some e) (hj : j ∈ range e.spaceDimension) :
    i.set k j ∈ Tuple.all f.argumentDims := by
  refine Tuple.set_mem_all hi (n := e.spaceDimension) ?_ (mem_range.1 hj)
  rw [argumentDims, getElem?_map, he, Option.map_some]

section

variable {K : Type} [Field K]

/-- The derivatives along some axes of all basis functions of an argument add up to zero. -/
theorem Form.sum_factorPolynomial {f : Form K} {factor : Factor} {e : Element}
    (he : f.arguments[factor.argument]? = some e) (hnodal : e.IsNodal) (hdegree : e.degree ≤ 1)
    (hcell : e.cell = f.cell) (hi : factor.argument < i.length) {axes : List (Fin f.cell.dimension)}
    (haxes : axes ≠ []) : ((range e.spaceDimension).map fun j =>
      f.factorPolynomial (i.set factor.argument j) factor axes).sum = 0 := by
  have hsum := congrArg (derivative axes)
    (e.sum_basisPolynomial (K := K) f.cell.dimension e.valueShape.prod factor.component)
  rw [derivative_sum, List.map_map, derivative_C, if_neg haxes, C_0] at hsum
  rw [hnodal.spaceDimension_eq hdegree, hcell]
  simp only [factorPolynomial, he, getElem?_set_self hi, Option.getD_some]
  exact hsum

namespace TensorTerms

/-- A sum of products in which only one factor depends on the index, and adds up to zero. -/
theorem sum_prod_eq_zero {ι β γ : Type} (js : List ι) (F : ι → β → γ → K) (G : β → γ → K)
    {xs : List β} {ys : List γ} {n : Nat} {x : β} {y : γ} (hx : xs[n]? = some x)
    (hy : ys[n]? = some y)
    (hothers : ∀ m x', m ≠ n → xs[m]? = some x' → ∀ j y', F j x' y' = G x' y')
    (hzero : (js.map fun j => F j x y).sum = 0) :
    (js.map fun j => (zipWith (F j) xs ys).prod).sum = 0 := by
  -- The first factor either is the one that depends on the index or is taken out of the sum.
  induction xs generalizing ys n with
  | nil => cases hx
  | cons x' xs ih =>
    cases ys with
    | nil => cases hy
    | cons y' ys =>
      simp only [zipWith_cons_cons, prod_cons]
      cases n with
      | zero =>
        rw [getElem?_cons_zero, Option.some.injEq] at hx hy
        subst hx hy
        have hrest : ∀ j, zipWith (F j) xs ys = zipWith G xs ys := by
          intro j
          rw [← map_uncurry_zip_eq_zipWith, ← map_uncurry_zip_eq_zipWith]
          refine map_congr_left fun z hz => ?_
          rcases mem_iff_getElem?.1 (of_mem_zip hz).1 with ⟨m, hm⟩
          exact hothers (m + 1) z.1 (Nat.succ_ne_zero m) hm j z.2
        simp only [hrest]
        rw [sum_map_mul_right, hzero, zero_mul]
      | succ n =>
        have hfirst : ∀ j, F j x' y' = G x' y' := fun j =>
          hothers 0 x' (Nat.succ_ne_zero n).symm rfl j y'
        simp only [hfirst]
        rw [sum_map_mul_left, ih hx hy ?_, mul_zero]
        exact fun m x hm hx => hothers (m + 1) x (by omega) hx

theorem pieces_mem_axes {dim : Nat} {orders : List Nat} (ha : a ∈ Tuple.axes dim orders.sum) :
    Forall₂ (fun order piece => piece ∈ Tuple.axes dim order) orders (pieces orders a) := by
  induction orders generalizing a with
  | nil => exact .nil
  | cons order orders ih =>
    rcases Tuple.mem_axes_iff.1 ha with ⟨hlength, hlt⟩
    rw [sum_cons] at hlength
    refine .cons (Tuple.mem_axes_iff.2 ⟨?_, fun axis haxis => ?_⟩)
      (ih (Tuple.mem_axes_iff.2 ⟨?_, fun axis haxis => ?_⟩))
    · rw [length_take]
      omega
    · exact hlt axis (mem_of_mem_take haxis)
    · rw [length_drop]
      omega
    · exact hlt axis (mem_of_mem_drop haxis)

variable [LinearOrder K] [Root K] {p : Nat} {a : List Nat} {tdim k : Nat} {x : Factor × Table K}

theorem factorValue_set (h : x.1.argument ≠ k) (j : Nat) (piece : List Nat) :
    factorValue tdim p (i.set k j) x piece = factorValue tdim p i x piece := by
  rw [factorValue, getElem?_set_ne h.symm, factorValue]

theorem sum_factorValue {f : Form K} {d : Dimensions} {kind : Integral} {factor : Factor}
    {e : Element} (hfits : f.Fits d kind factor e) (hnodal : e.IsNodal) {points : List (List K)}
    {t : Table K} (htable : Tabulator.lagrange e points factor.order = .ok t) (hp : p < t.points)
    (hi : factor.argument < i.length) (hderivatives : factor.derivatives ≠ []) {piece : List Nat}
    (hpiece : piece ∈ Tuple.axes f.cell.dimension factor.order) :
    ((range e.spaceDimension).map fun j =>
      factorValue f.cell.dimension p (i.set factor.argument j) (factor, t) piece).sum = 0 := by
  have hshaped := Tabulator.lagrange_shaped hnodal htable
  rw [hshaped.points] at hp
  rcases Tuple.exists_fin hpiece with ⟨axes, hlength, rfl⟩
  have haxes : axes ≠ [] := by
    rintro rfl
    exact hderivatives (length_eq_zero_iff.1 hlength.symm)
  have hvalue : ∀ j ∈ range e.spaceDimension,
      factorValue f.cell.dimension p (i.set factor.argument j) (factor, t) (axes.map Fin.val) =
        Rule.valueAt (f.factorPolynomial (i.set factor.argument j) factor axes)
          (points.get ⟨p, hp⟩) := by
    intro j hj
    refine factorValue_eq_valueAt hfits hnodal htable (getElem?_eq_getElem hp)
      (getElem?_set_self hi) ?_ hlength
    rw [hshaped.dofs]
    exact mem_range.1 hj
  have hdegree := Tabulator.degree_le_of_isLagrange (Tabulator.lagrange_values htable).1
  have hsum := congrArg (Rule.valueAt · (points.get ⟨p, hp⟩))
    (f.sum_factorPolynomial hfits.argument hnodal hdegree hfits.cell hi haxes)
  simp only [Rule.valueAt, map_list_sum, List.map_map, map_zero] at hsum
  rw [map_congr_left hvalue]
  exact hsum

/-- The products of the factors at a point add up to zero along an argument, if those of its own
    factor do. -/
theorem sum_products {dofs : Nat} {tables : List (Factor × Table K)} (hx : tables[k]? = some x)
    (hposition : ∀ n (x : Factor × Table K), tables[n]? = some x → x.1.argument = n)
    (hzero : ∀ piece ∈ Tuple.axes tdim x.1.order, ((range dofs).map fun j =>
      factorValue tdim p (i.set k j) x piece).sum = 0)
    (ha : a ∈ Tuple.axes tdim (tables.map fun x => x.1.order).sum) :
    ((range dofs).map fun j => (zipWith (factorValue tdim p (i.set k j)) tables
      (pieces (tables.map fun x => x.1.order) a)).prod).sum = 0 := by
  have horder : (tables.map fun x => x.1.order)[k]? = some x.1.order := by
    rw [getElem?_map, hx, Option.map_some]
  rcases forall₂_get (pieces_mem_axes ha) horder with ⟨piece, hpiece, hmem⟩
  refine sum_prod_eq_zero _ (fun j => factorValue tdim p (i.set k j)) (factorValue tdim p i) hx
    hpiece (fun n x' hn hx' j => ?_) (hzero piece hmem)
  exact factorValue_set (hposition n x' hx' ▸ hn) j

end TensorTerms

variable [LinearOrder K] [Root K]

namespace TensorTerms

section

variable {gauss : Gauss.Source K} {f : Form K} {facet : Option Nat} {primary : MultiIndex}
  {m : Monomial K} {c c' : Allocator} {t : TensorTerm K} {k : Nat} {e : Element} {i : List Nat}
  (hnodal : ∀ e ∈ f.arguments, e.IsNodal) (hdims : primary.dims = f.argumentDims)
  (he : f.arguments[k]? = some e)
  (hderivatives : ∀ factor ∈ m.factors, factor.argument = k → factor.derivatives ≠ [])
  (h : (term gauss Tabulator.lagrange f facet primary m).run c = (.ok t, c'))
  (hi : i ∈ primary.tuples)

include hnodal hdims he hderivatives h hi

/-- The entries of the reference tensor of a monomial add up to zero along an argument that the
    monomial differentiates. -/
theorem sum_reference {a : List Nat} (ha : a ∈ t.geometry.a.tuples) :
    ((range e.spaceDimension).map fun j => t.reference.entry (i.set k j) a).sum = 0 := by
  rcases term_eq_ok h with ⟨factors, degree, rule, tables, reference, harrange, hdegree, hrule,
    htables, hreference, rfl⟩
  rcases ReferenceTensor.entry_ofFn hreference with ⟨_, _, hentry⟩
  rcases bind_eq_ok.1 harrange with ⟨d, hd, _⟩
  rw [lift_problem_eq_ok] at hd
  rcases Form.arrange_eq_ok hd harrange with ⟨harguments, hfits⟩
  have hposition : ∀ n (x : Factor × Table K), tables[n]? = some x → x.1.argument = n := by
    intro n x hx
    rcases forall₂_get htables.flip hx with ⟨factor, hfactor, rfl, _⟩
    exact Form.argument_of_arrange harrange hfactor
  have hsecondary : a ∈ Tuple.axes f.cell.dimension (tables.map fun x => x.1.order).sum := by
    have horders : tables.map (fun x => x.1.order) = factors.map Factor.order :=
      map_eq_of_forall₂ htables.flip fun x factor hx => congrArg Factor.order hx.1
    rw [horders, Tuple.axes, ← Size.total_eq_sum, total_order, ← dims_drawn c]
    exact ha
  -- The factor of the argument, with its table.
  have hk : k < factors.length := by
    rw [← length_map Factor.argument, harguments, length_range]
    exact (List.getElem?_eq_some_iff.1 he).1
  have hget := getElem?_eq_getElem hk
  rcases forall₂_get htables hget with ⟨⟨factor, table⟩, hx, hfactor, e', he', htable⟩
  have hargument := Form.argument_of_arrange harrange hget
  have hmem := getElem_mem hk
  rw [← hfactor] at hargument he' htable hmem
  subst hargument
  rw [he] at he'
  cases he'
  rcases hfits factor hmem with ⟨e', hfits⟩
  have hee := hfits.argument
  rw [he] at hee
  cases hee
  -- Every entry is a sum over the points, and at each of them the products add up to zero.
  have hvalue : ∀ j ∈ range e.spaceDimension,
      reference.entry (i.set factor.argument j) a = (rule.weights.zipIdx.map fun w => w.1 *
        (zipWith (factorValue f.cell.dimension w.2 (i.set factor.argument j)) tables
          (pieces (tables.map fun x => x.1.order) a)).prod).sum := by
    intro j hj
    refine (integral_eq_ok (hentry _ ?_ a ha)).1
    rw [MultiIndex.tuples, hdims] at hi ⊢
    exact Form.set_mem_all hi he hj
  rw [map_congr_left hvalue, sum_comm]
  refine sum_eq_zero fun y hy => ?_
  rcases mem_map.1 hy with ⟨w, hw, rfl⟩
  rcases (integral_eq_ok (hentry i hi a ha)).2 w hw _ (mem_of_getElem? hx) with
    ⟨_, hindex, hpoint, _⟩
  rw [sum_map_mul_left, sum_products hx hposition (fun piece hpiece => ?_) hsecondary,
    mul_zero]
  exact sum_factorValue hfits (hnodal e (mem_of_getElem? he)) htable hpoint
    (List.getElem?_eq_some_iff.1 hindex).1
    (hderivatives factor (Form.mem_of_mem_arrange harrange factor hmem) rfl) hpiece

theorem sum_contraction {entries : List (List Nat × GeometryMonomial K)}
    (hentries : t.geometry.entries = .ok entries) (v : Symbol → K) :
    ((range e.spaceDimension).map fun j =>
      (entries.map fun y => t.reference.entry (i.set k j) y.1 * y.2.value v).sum).sum = 0 := by
  rw [sum_comm]
  refine sum_eq_zero fun x hx => ?_
  rcases mem_map.1 hx with ⟨y, hy, rfl⟩
  have ha := GeometryTensor.map_fst_entries hentries ▸ mem_map_of_mem hy
  rw [sum_map_mul_right, sum_reference hnodal hdims he hderivatives h hi ha, zero_mul]

end

end TensorTerms

variable [IsStrictOrderedRing K]

/-- The entries of the tensor of some monomials are the sums of the contractions of their terms. -/
theorem ElementTensor.evaluate_eq_contractions {gauss : Gauss.Source K} {tabulator : Tabulator K}
    {f : Form K} {ms : List (Monomial K)} {facet : Option Nat} {primary : MultiIndex}
    {c c' : Allocator} {terms : List (TensorTerm K)} {kind : Integral} {domain : Nat}
    {style : Style K} {tensor : ElementTensor K}
    (hterms : (tensorTerms gauss tabulator f ms facet primary).run c = (.ok terms, c'))
    (htensor : of terms kind domain style = .ok tensor) (hgap : NoneTiny terms) (v : Symbol → K) :
    ∃ lists, Forall₂ (fun t entries => t.geometry.entries = .ok entries) terms lists ∧
      tensor.evaluate v = .ok ((if ms.isEmpty then [] else primary.tuples).map fun i =>
        ((terms.zip lists).map fun x =>
          (x.2.map fun y => x.1.reference.entry i y.1 * y.2.value v).sum).sum) := by
  rcases of_eq_ok htensor with ⟨rfl, hentries⟩
  have hrun := Drawing.run_mapM_eq_ok hterms
  have hranges := (tensorTerms_ranges hterms).2
  rcases mapM_exists tensor.terms (fun t => t.geometry.entries) hentries with ⟨lists, hlists⟩
  rw [mapM_eq_ok] at hlists
  refine ⟨lists, hlists, ?_⟩
  cases hms : ms with
  | nil =>
    rw [hms, forall₂_nil_left_iff] at hrun
    unfold evaluate
    rw [hrun]
    rfl
  | cons m others =>
    rw [hms] at hrun
    rcases forall₂_cons_left_iff.1 hrun with ⟨first, rest, _, _, hhead⟩
    have hprimary : ElementTensor.primary tensor.terms = some primary := by
      unfold ElementTensor.primary
      rw [hhead, head?_cons, Option.map_some, (hranges first (hhead ▸ mem_cons_self)).primary]
    refine evaluate_eq_sum hprimary hlists (fun t ht i hi a ha => ?_) v
    rcases hranges t ht with ⟨rfl, hdims⟩
    exact hgap t ht i hi a (by rwa [MultiIndex.tuples, hdims])

/-- Constants lie in the kernel of differentiated arguments. If the arguments of a form are nodal
    and every monomial differentiates the factor of one of them, then the element tensor can be
    evaluated for all values of the symbols, and its entries add up to zero along the index of that
    argument, provided that no entry of a reference tensor is left out although it is not zero. -/
theorem evaluate_sum_eq_zero {gauss : Gauss.Source K} {f : Form K} {ms : List (Monomial K)}
    {facet : Option Nat} {primary : MultiIndex} {c c' : Allocator} {terms : List (TensorTerm K)}
    {kind : Integral} {domain : Nat} {style : Style K} {tensor : ElementTensor K} {k : Nat}
    {e : Element} (hnodal : ∀ e ∈ f.arguments, e.IsNodal) (hdims : primary.dims = f.argumentDims)
    (he : f.arguments[k]? = some e)
    (hderivatives : ∀ m ∈ ms, ∀ factor ∈ m.factors, factor.argument = k → factor.derivatives ≠ [])
    (hterms : (tensorTerms gauss Tabulator.lagrange f ms facet primary).run c = (.ok terms, c'))
    (htensor : ElementTensor.of terms kind domain style = .ok tensor)
    (hgap : ElementTensor.NoneTiny terms) (v : Symbol → K) :
    ∃ values, tensor.evaluate v = .ok values ∧
      values.length = (if ms.isEmpty then 0 else f.argumentDims.prod) ∧
      ∀ i ∈ Tuple.all f.argumentDims, ((List.range e.spaceDimension).map fun j =>
        values[Tuple.linear f.argumentDims (i.set k j)]?.getD 0).sum = 0 := by
  rcases ElementTensor.evaluate_eq_contractions hterms htensor hgap v with ⟨lists, hlists, hvalues⟩
  refine ⟨_, hvalues, ?_, fun i hi => ?_⟩
  · rw [List.length_map, MultiIndex.tuples, hdims]
    split
    · rfl
    · exact Tuple.length_all _
  cases hempty : ms.isEmpty with
  | true => simp
  | false =>
    rw [if_neg Bool.false_ne_true, MultiIndex.tuples, hdims]
    refine (congrArg List.sum (List.map_congr_left fun j hj => congrArg (Option.getD · 0)
      (Tuple.get_map_all _ (Form.set_mem_all hi he hj)))).trans ?_
    simp only [Option.getD_some]
    rw [sum_comm]
    refine List.sum_eq_zero fun y hy => ?_
    rcases List.mem_map.1 hy with ⟨x, hx, rfl⟩
    -- The term was drawn for one of the monomials.
    rcases List.mem_iff_getElem?.1 (List.of_mem_zip hx).1 with ⟨n, hn⟩
    rcases forall₂_get (Drawing.run_mapM_eq_ok hterms).flip hn with ⟨m, hm, c₁, c₂, hterm⟩
    exact TensorTerms.sum_contraction hnodal hdims he (hderivatives m (List.mem_of_getElem? hm))
      hterm (by rwa [MultiIndex.tuples, hdims]) ((List.forall₂_iff_zip.1 hlists).2 hx) v

end

/-- The flux through the second facet sees the vector field only through its derivative, so the
    six entries of the field add up to zero for each test function. -/
theorem evaluate_sum_eq_zero_flux : ∃ terms c' tensor values,
    fluxTerms = (.ok terms, c') ∧
    ElementTensor.of terms .exteriorFacet 0 (Cpp.style midpointSetting.number) = .ok tensor ∧
    tensor.evaluate shearedTriangle.symbolValue = .ok values ∧ values.length = 18 ∧
    ∀ b < 3, ((List.range 6).map fun j => values[Tuple.linear [6, 3] [j, b]]?.getD 0).sum = 0 := by
  have hnodal : ∀ e ∈ boundaryFlux.arguments, e.IsNodal := by
    refine List.forall_mem_cons.2 ⟨⟨.triangle, 1, Or.inr (Or.inr ⟨2, by decide +kernel⟩)⟩, ?_⟩
    exact List.forall_mem_singleton.2 ⟨.triangle, 1, Or.inl (by decide +kernel)⟩
  have hderivatives : ∀ m ∈ boundaryFlux.monomials, ∀ factor ∈ m.factors, factor.argument = 0 →
      factor.derivatives ≠ [] := by
    refine List.forall_mem_singleton.2 (List.forall_mem_cons.2 ⟨by decide, ?_⟩)
    exact List.forall_mem_singleton.2 (by decide)
  have hchecked : (match fluxTerms.1 with
      | .ok terms => decide (ElementTensor.NoneTiny terms) &&
          (ElementTensor.of terms .exteriorFacet 0 (Cpp.style midpointSetting.number)).isOk
      | .error _ => false) = true := by decide +kernel
  cases hterms : fluxTerms with
  | mk result c' =>
    rw [hterms] at hchecked
    cases result with
    | error e => exact absurd hchecked Bool.false_ne_true
    | ok terms =>
      simp only [Bool.and_eq_true, decide_eq_true_eq] at hchecked
      rcases exists_of_isOk hchecked.2 with ⟨tensor, htensor⟩
      rcases evaluate_sum_eq_zero (k := 0) hnodal rfl rfl hderivatives hterms htensor hchecked.1
        shearedTriangle.symbolValue with ⟨values, hvalues, hlength, hsum⟩
      refine ⟨terms, c', tensor, values, rfl, htensor, hvalues, hlength, fun b hb => ?_⟩
      exact hsum [0, b] (Tuple.mem_all_iff.2 (.cons (by decide) (.cons hb .nil)))

end WeakForm
