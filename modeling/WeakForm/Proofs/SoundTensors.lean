import WeakForm.Proofs.ContractionText
import WeakForm.Proofs.Independence
import WeakForm.Proofs.SoundLoops

/-!
# Tensors without faults

The representation by contraction integrates on the reference cell and leaves the
geometry to a second tensor. Both range over the same secondary tuples, one axis for
each derivative. Beyond the sizes that quadrature needs, the numbers of primary and of
secondary tuples have to fit, since both are listed, and so have the size of the reference
tensor, the number of terms, and the operations that are counted (`ContractionSized`).

An entry of the reference tensor reads the table of each factor at a basis function, a
derivative and a component. The derivative is the number of a piece of the secondary
tuple. Pieces are cut to the orders of the factors, so the number is below that of all
derivatives of the order, which is what the table has been made for.

The computation hands out secondary indices, so what is known of it is known from any
allocator. The indices that a term has drawn are its own, and resolving them does not
fail, whatever has been drawn before.

## Theorems

* `contractionCase_sound`: The code of monomials.
-/

namespace WeakForm

open List Success Ensures Size Checked

variable {α : Type}

namespace Drawing

variable {β γ : Type} {T : Prop} {P : β → Prop} {Q : γ → Prop} {f : β → Drawing γ}

/-- A computation without a fault from any allocator, in which problems occur under a condition
    only. -/
def Sound (T : Prop) (P : β → Prop) (x : Drawing β) : Prop :=
  ∀ c, Outcome.Sound T P (x.run c).1

theorem sound_ofOutcome {x : Outcome β} (h : Outcome.Sound T P x) : (ofOutcome x).Sound T P :=
  fun _ => h

theorem sound_bind {x : Drawing β} (hx : x.Sound T P) (hf : ∀ b, P b → (f b).Sound T Q) :
    (x >>= f).Sound T Q := by
  intro c
  have hc := hx c
  rw [run_bind]
  cases hrun : x.run c with
  | mk result c' =>
    rw [hrun] at hc
    cases result with
    | ok b => exact hf b hc c'
    | error e => exact hc

theorem sound_mapM {xs : List β} (h : ∀ x ∈ xs, (f x).Sound T Q) :
    (xs.mapM f).Sound T fun ys => ∀ y ∈ ys, Q y := by
  induction xs with
  | nil =>
    rw [mapM_nil]
    exact fun _ _ hy => absurd hy not_mem_nil
  | cons x xs ih =>
    rw [forall_mem_cons] at h
    rw [mapM_cons]
    refine sound_bind h.1 fun y hy => sound_bind (ih h.2) fun ys hys => ?_
    exact fun _ => forall_mem_cons.2 ⟨hy, hys⟩

end Drawing

/-- The sizes of the tensors of a monomial fit. -/
@[mk_iff]
structure Form.Contractible (f : Form α) (m : Monomial α) : Prop where
  primary : f.argumentDims.prod < Tuple.capacity
  geometry : f.cell.dimension ^ m.order < Tuple.capacity
  reference : f.argumentDims.prod * f.cell.dimension ^ m.order < Table.capacity

instance (f : Form α) (m : Monomial α) : Decidable (f.Contractible m) :=
  decidable_of_iff' _ (Form.contractible_iff f m)

theorem Form.Sized.extent_primary {f : Form α} {m : Monomial α} (hm : f.Sized m)
    {primary : MultiIndex} (hprimary : primary.dims = f.argumentDims) :
    extent primary.dims < limit := by
  rw [hprimary]
  exact Nat.lt_of_le_of_lt (extent_le (f.argumentDims_le m.integral)) hm.tensor

theorem MultiIndex.reserve_of_lt {m : MultiIndex} (h : extent m.dims < limit)
    (hcount : m.dims.prod < Tuple.capacity) : m.reserve = .ok () :=
  bind_eq_ok.2 ⟨_, product_of_extent h, if_pos hcount⟩

namespace ReferenceTensor

variable {i a : MultiIndex}

theorem reserve_of_lt (h : extent i.dims < limit) (hi : i.reserve = .ok ())
    (ha : a.reserve = .ok ()) : reserve i a = .ok () := by
  refine bind_eq_ok.2 ⟨(), hi, bind_eq_ok.2 ⟨_, product_of_extent h, ?_⟩⟩
  split
  · exact ha
  · rfl

theorem size_of_lt (hi : extent i.dims < limit) (ha : extent a.dims < limit)
    (h : i.dims.prod * a.dims.prod < limit) : size i a = .ok (i.dims.prod * a.dims.prod) :=
  bind_eq_ok.2 ⟨_, product_of_extent hi, bind_eq_ok.2 ⟨_, product_of_extent ha,
    mul_of_lt h⟩⟩

theorem size_eq_ok {n : Nat} (h : size i a = .ok n) : n = i.dims.prod * a.dims.prod := by
  rcases bind_eq_ok.1 h with ⟨_, hi, h⟩
  rcases bind_eq_ok.1 h with ⟨_, ha, h⟩
  rw [mul_eq_ok h, product_eq_prod hi, product_eq_prod ha]

theorem sure_ofFn {n : Nat} (hsize : size i a = .ok n) (h : n < Table.capacity)
    {f : List Nat → List Nat → Checked α}
    (hf : ∀ it ∈ i.tuples, ∀ at' ∈ a.tuples, Sure (fun _ => True) (f it at')) :
    Sure (fun t => t.i = i ∧ t.a = a) (ofFn i a f) := by
  have hn := size_eq_ok hsize
  subst hn
  unfold ofFn
  refine bind_ok hsize (bind (sure_bound h) fun _ _ => bind
    (Ensures.mapM (R := fun _ (row : List α) => row.length = a.dims.prod) fun it hit => ?_)
      fun rows hrows => ?_)
  · refine (Ensures.mapM (R := fun _ _ => True) fun at' hat => hf it hit at' hat).mono
      fun row hrow => ?_
    rw [← hrow.length_eq]
    exact Tuple.length_all a.dims
  · have hlength : rows.flatten.length = i.dims.prod * a.dims.prod := by
      have hrow := forall₂_left hrows.flip fun _ _ h => h
      rw [length_flatten, map_congr_left hrow, map_const', sum_replicate, ← hrows.length_eq,
        smul_eq_mul]
      exact congrArg (· * a.dims.prod) (Tuple.length_all i.dims)
    refine bind_ok hsize (bind (sure_require (decide_eq_true hlength))
      fun _ _ => pure ⟨rfl, rfl⟩)

end ReferenceTensor

variable {tables : List (Factor × Table α)} {factors : List Factor} {rule : Rule α}

namespace TensorTerms

/-- A piece is a part of the tuple, at most as long as it is asked for. -/
theorem pieces_spec (ns tuple : List Nat) :
    Forall₂ (fun n piece => piece.length ≤ n ∧ piece.Sublist tuple) ns (pieces ns tuple) := by
  induction ns generalizing tuple with
  | nil => exact Forall₂.nil
  | cons n ns ih =>
    refine Forall₂.cons ⟨length_take_le n tuple, take_sublist n tuple⟩ ?_
    exact (ih (tuple.drop n)).imp fun _ _ h => ⟨h.1, h.2.trans (drop_sublist n tuple)⟩

variable [Scalar α] {tdim : Nat}

theorem sure_integral {i a : List Nat} (htables : ∀ x ∈ tables, ∃ k, i[x.1.argument]? = some k ∧
      ∃ dofs components, x.2.Shaped rule.weights.length dofs (tdim ^ x.1.order) components ∧
        k < dofs ∧ x.1.component < components) (hpos : 0 < tdim) (ha : ∀ axis ∈ a, axis < tdim)
    (haxes : tdim ^ a.length < limit) :
    Sure (fun _ => True) (integral rule tdim tables i a) := by
  have hpieces := pieces_spec (tables.map fun x => x.1.order) a
  have hsub := forall₂_left hpieces.flip fun _ _ h => h.2
  unfold integral
  refine bind (Ensures.mapM (R := fun piece n => n < tdim ^ piece.length)
    fun piece hpiece => ?_) fun numbers hnumbers => ?_
  · have hpart := hsub piece hpiece
    refine Tuple.sure_axesNumber (fun axis haxis => ha axis (hpart.subset haxis)) ?_
    exact Nat.lt_of_le_of_lt (Nat.pow_le_pow_right hpos hpart.length_le) haxes
  -- A derivative has its number among all derivatives of the order of its factor.
  · have hderivatives : Forall₂ (fun (x : Factor × Table α) n => n < tdim ^ x.1.order) tables
        numbers := by
      rw [forall₂_map_left_iff] at hpieces
      exact forall₂_join hpieces.flip hnumbers fun _ _ _ _ _ h h' =>
        Nat.lt_of_lt_of_le h' (Nat.pow_le_pow_right hpos h.1)
    refine bind (Ensures.mapM (R := fun _ _ => True) fun w hw => ?_) fun _ _ => trivial
    refine Ensures.foldlM (I := fun _ => True) trivial fun y hy product _ => ?_
    rcases y with ⟨⟨factor, table⟩, derivative⟩
    have hderivative := (forall₂_iff_zip.1 hderivatives).2 hy
    rcases htables (factor, table) (of_mem_zip hy).1 with
      ⟨k, hk, dofs, components, hshaped, hdof, hcomponent⟩
    simp only at hk hshaped hcomponent hderivative
    have hcontains : table.contains w.2 k derivative factor.component = true := by
      simp only [Table.contains, hshaped.points, hshaped.dofs, hshaped.derivatives,
        hshaped.components, Bool.and_eq_true, decide_eq_true_iff]
      exact ⟨⟨⟨(mem_zipIdx' hw).1, hdof⟩, hderivative⟩, hcomponent⟩
    refine bind_ok (entryAt_eq_ok.2 hk) (bind_ok (b := table.entry w.2 k derivative
      factor.component) ?_ trivial)
    rw [Table.get, if_pos hcontains]

/-- An entry of a geometry tensor has one symbol for each derivative, and the scale factor. -/
theorem sure_drawnEntry (coefficient : α) {axes a : List Nat} (hlength : axes.length = a.length)
    (horder : axes.length < 2 ^ 31) : Sure (fun _ => True) (drawnEntry coefficient axes a) := by
  -- Along the loop the bound grows by one with every axis.
  have hfold : ∀ (xs : List (Nat × Nat)) (n : Nat) (m : GeometryMonomial α), m.powers.AtMost 1 n →
      n + xs.length < 2 ^ 31 → (∀ x ∈ xs, x.2 < a.length) → Sure (fun _ => True)
        (xs.foldlM (fun product (x : Nat × Nat) => do
          product.mul (.ofSymbol (.inverse none (← entryAt a x.2) x.1))) m) := by
    intro xs
    induction xs with
    | nil => exact fun _ _ _ _ _ => trivial
    | cons x xs ih =>
      intro n m hm hn hxs
      rw [length_cons] at hn
      rw [forall_mem_cons] at hxs
      rw [foldlM_cons, bind_assoc]
      refine bind (sure_entryAt hxs.1) fun t _ => ?_
      refine bind (GeometryMonomial.sure_mul hm
        (GeometryMonomial.atMost_inverse none t x.1) (by decide) (by omega)) fun c hc => ?_
      exact ih (n + 1) c hc (by omega) hxs.2
  unfold drawnEntry
  refine bind (GeometryMonomial.sure_mul (GeometryMonomial.atMost_constant coefficient)
    GeometryMonomial.atMost_scale (by decide) (by decide)) fun start hstart => ?_
  refine hfold axes.zipIdx 0 start hstart ?_ fun x hx => ?_
  · rwa [Nat.zero_add, length_zipIdx]
  · rw [← hlength]
    exact (mem_zipIdx' hx).1

theorem sure_entries (c : Allocator) (coefficient : α)
    (horder : (factors.flatMap Factor.derivatives).length < 2 ^ 31) :
    Sure (fun _ => True) (GeometryTensor.entries ⟨drawn c tdim factors, coefficient,
      geometryFactors factors (drawn c tdim factors).indices⟩) := by
  unfold GeometryTensor.entries
  refine (Ensures.mapM (R := fun _ _ => True) fun a ha => ?_).mono fun _ _ => trivial
  rw [entry_drawn]
  have hlength := Tuple.length_of_mem_all ha
  simp only [dims_drawn, length_replicate] at hlength
  exact bind (sure_drawnEntry coefficient hlength.symm horder) fun _ _ => trivial

end TensorTerms

/-- A term over the given primary range, whose geometry tensor has entries that can be listed. -/
structure TensorTerm.Ready [Scalar α] (primary : MultiIndex) (t : TensorTerm α) : Prop where
  primary : t.reference.i = primary
  entries : Checked.Sure (fun _ => True) t.geometry.entries
  reserved : t.geometry.a.reserve = .ok ()

variable {facets : Facets}

namespace TensorTerms

variable [Scalar α] {f : Form α} {d : Dimensions} {gauss : Gauss.Source α}
  {primary : MultiIndex}

variable {m : Monomial α}

omit [Scalar α] in
theorem reserve_drawn (hcontractible : f.Contractible m)
    (horder : (factors.flatMap Factor.derivatives).length ≤ m.order) (c : Allocator) :
    (drawn c f.cell.dimension factors).reserve = .ok () := by
  have hpos := f.cell.dimension_pos
  have hcount := Nat.lt_of_le_of_lt (Nat.pow_le_pow_right hpos horder) hcontractible.geometry
  refine MultiIndex.reserve_of_lt ?_ ?_
  · rw [dims_drawn, extent_replicate hpos]
    exact hcount.trans (by decide)
  · rwa [dims_drawn, prod_replicate]

theorem sure_reference (hm : f.Sized m) (hcontractible : f.Contractible m)
    (hprimary : primary.dims = f.argumentDims)
    (horder : (factors.flatMap Factor.derivatives).length ≤ m.order)
    (hrule : rule.weights.length = f.pointCount m)
    (htables : Forall₂ (fun factor (x : Factor × Table α) => x.1 = factor ∧
      ∃ e, f.Fits d m.integral factor e ∧ e.Constructed ∧ x.2.Shaped (f.pointCount m)
        e.spaceDimension (f.cell.dimension ^ factor.order) (max e.valueShape.prod 1)) factors tables)
    (c : Allocator) : Sure (fun t => t.i = primary ∧ t.a = drawn c f.cell.dimension factors)
      (ReferenceTensor.ofFn primary (drawn c f.cell.dimension factors)
        (integral rule f.cell.dimension tables)) := by
  have hpos := f.cell.dimension_pos
  have haxes : f.cell.dimension ^ (factors.flatMap Factor.derivatives).length ≤
      f.cell.dimension ^ m.order := Nat.pow_le_pow_right hpos horder
  have hcount := (Nat.lt_of_le_of_lt haxes hcontractible.geometry).trans
    (by decide : Tuple.capacity < limit)
  have hreference : primary.dims.prod * (drawn c f.cell.dimension factors).dims.prod <
      Table.capacity := by
    rw [hprimary, dims_drawn, prod_replicate]
    exact Nat.lt_of_le_of_lt (Nat.mul_le_mul_left _ haxes) hcontractible.reference
  refine ReferenceTensor.sure_ofFn (ReferenceTensor.size_of_lt (hm.extent_primary hprimary) ?_
    (hreference.trans (by decide))) hreference fun it hit a ha => ?_
  · rwa [dims_drawn, extent_replicate hpos]
  rw [MultiIndex.tuples, dims_drawn] at ha
  have ha := Tuple.mem_axes_iff.1 ha
  refine sure_integral (fun x hx => ?_) hpos ha.2 (by rwa [ha.1])
  rcases forall₂_left htables.flip (fun x factor h => Exists.intro factor h) x hx with
    ⟨factor, rfl, e, hfits, he, hshaped⟩
  -- The tuple selects a basis function of the argument that the factor refers to.
  have hdim : f.argumentDims[x.1.argument]? = some e.spaceDimension := by
    rw [Form.argumentDims, getElem?_map, hfits.argument, Option.map_some]
  rw [MultiIndex.tuples, hprimary, Tuple.mem_all_iff] at hit
  rcases forall₂_get hit.flip hdim with ⟨k, hk, hlt⟩
  rcases hfits.component with ⟨size, hsize, hcomponent⟩
  rw [he.physicalSize, Except.ok.injEq] at hsize
  rw [← hsize] at hcomponent
  exact ⟨k, hk, _, _, hrule ▸ hshaped, hlt, hcomponent⟩

theorem term_sound (hgauss : ∀ n, (gauss n).length = n)
    (harguments : ∀ e ∈ f.arguments, e.Constructed) (hd : f.dims = .ok d) (hm : f.Sized m)
    (hcontractible : f.Contractible m) (hfacets : facets ∈ facetCases f.cell m.integral)
    (hprimary : primary.dims = f.argumentDims) :
    (term gauss Tabulator.lagrange f facets.1 primary m).Sound (f.Flawed m)
      (TensorTerm.Ready primary) := by
  rcases facets_spec hfacets with ⟨hfirst, _, hregion, _⟩
  unfold term
  refine Drawing.sound_bind (P := fun x => f.arrange m = .ok x.1 ∧
    x.2.Shaped (f.pointCount m) f.cell.dimension) (Drawing.sound_ofOutcome ?_) ?_
  · refine bind ((Form.arrange_sound harguments m).allow Or.inl) fun factors hfactors => ?_
    refine bind_lift hm.quadratureDegree (bind_lift (hm.reserve_rule hregion) ?_)
    refine bind ((hm.rule_sound hgauss hfirst hregion).allow False.elim) fun rule hrule => ?_
    exact pure ⟨hfactors, hrule⟩
  rintro ⟨factors, rule⟩ ⟨hfactors, hrule⟩
  have horder : (factors.flatMap Factor.derivatives).length ≤ m.order := by
    rw [← total_order, total_eq_sum]
    exact Form.sum_order_le hfactors
  refine Drawing.sound_bind (P := fun a => ∃ c, a = drawn c f.cell.dimension factors)
    (fun c => ⟨c, rfl⟩) ?_
  rintro _ ⟨c, rfl⟩
  refine Drawing.sound_ofOutcome (bind (Ensures.mapM (R := fun factor x => x.1 = factor ∧
    ∃ e, f.Fits d m.integral factor e ∧ e.Constructed ∧ x.2.Shaped (f.pointCount m)
      e.spaceDimension (f.cell.dimension ^ factor.order) (max e.valueShape.prod 1))
        fun factor hfactor => ?_) fun tables htables => ?_)
  · rcases (Form.arrange_eq_ok hd hfactors).2 factor hfactor with ⟨e, hfits⟩
    have hmem := mem_of_getElem? hfits.argument
    refine bind_lift (entryAt_eq_ok.2 hfits.argument) ?_
    refine bind ((hm.table_sound hd (Form.mem_of_mem_arrange hfactors factor hfactor)
      (harguments e hmem) hfits hrule.points hrule.coordinates).allow fun hunknown =>
        Or.inr ⟨e, hmem, hunknown⟩) fun t ht => pure ⟨rfl, e, hfits, harguments e hmem, ?_⟩
    rw [Form.tdim_eq hd]
    exact ht.2
  · have hextent := hm.extent_primary hprimary
    have hdrawn := reserve_drawn hcontractible horder c
    refine bind_lift (ReferenceTensor.reserve_of_lt hextent (MultiIndex.reserve_of_lt hextent
      (hprimary ▸ hcontractible.primary)) hdrawn) ?_
    have hreference := sure_reference hm hcontractible hprimary horder hrule.weights htables c
    refine bind (lift hreference) fun r hr => ?_
    rw [of_drawn c f.cell.dimension factors m.coefficient hr.2]
    exact ⟨hr.1, sure_entries c m.coefficient (Nat.lt_of_le_of_lt horder hm.order), hdrawn⟩

end TensorTerms
namespace ElementTensor

variable [Scalar α] {terms : List (TensorTerm α)} {primary : MultiIndex}

theorem sure_referenceDeclarations (terms : List (TensorTerm α)) (number : α → String) :
    Sure (fun _ => True) (referenceDeclarations terms (Cpp.style number)) := by
  unfold referenceDeclarations
  refine bind (Ensures.mapM (R := fun _ _ => True) fun x _ => ?_) fun _ _ => trivial
  refine (Ensures.mapM (R := fun _ _ => True) fun i _ => ?_).mono fun _ _ => trivial
  refine (Ensures.mapM (R := fun _ _ => True) fun a _ => ?_).mono fun _ _ => trivial
  exact bind_ok rfl trivial

theorem sure_geometryDeclarations (hterms : ∀ t ∈ terms, t.Ready primary) (number : α → String) :
    Sure (fun _ => True) (geometryDeclarations terms (Cpp.style number)) := by
  unfold geometryDeclarations
  refine bind (Ensures.mapM (R := fun _ _ => True) fun x hx => ?_) fun _ _ => trivial
  refine bind (hterms x.1 (fst_mem_of_mem_zipIdx hx)).entries fun entries _ => ?_
  refine (Ensures.mapM (R := fun _ _ => True) fun y _ => ?_).mono fun _ _ => trivial
  refine bind_ok rfl (bind (P := fun _ => True) ?_ fun _ _ => trivial)
  exact bind_ok (Expr.mapNames_ok Cpp.symbol _) trivial

theorem sure_elementDeclarations (terms : List (TensorTerm α)) (number : α → String) :
    Sure (fun _ => True) (elementDeclarations terms (Cpp.style number)) := by
  unfold elementDeclarations
  cases ElementTensor.primary terms with
  | none => trivial
  | some i =>
    refine (Ensures.mapM (R := fun _ _ => True) fun x _ => ?_).mono fun _ _ => trivial
    exact bind_ok (Expr.mapNames_ok (fun n : Nat × List Nat => Cpp.geometryName n.1 n.2) _)
      trivial

theorem of_ready (hterms : ∀ t ∈ terms, t.Ready primary) (integral : Integral) (domain : Nat)
    (number : α → String) :
    ∃ tensor, of terms integral domain (Cpp.style number) = .ok tensor ∧ tensor.terms = terms := by
  rcases (sure_referenceDeclarations terms number).exists_ok with ⟨reference, hreference, _⟩
  rcases (sure_geometryDeclarations hterms number).exists_ok with ⟨geometry, hgeometry, _⟩
  rcases (sure_elementDeclarations terms number).exists_ok with ⟨element, helement, _⟩
  have hdims : ∀ t ∈ terms, ∀ u ∈ terms, t.reference.i.dims = u.reference.i.dims := by
    intro t ht u hu
    rw [(hterms t ht).primary, (hterms u hu).primary]
  exact ⟨_, of_declarations hdims hreference hgeometry helement integral domain, rfl⟩

end ElementTensor

section

variable [Scalar α] {s : Setting α} {f : Form α} {d : Dimensions} {kind : Integral}
  {primary : MultiIndex}

namespace Contraction

variable {terms : List (TensorTerm α)}

/-- The operations that the code of terms counts, as a number of any size. -/
def operations (terms : List (TensorTerm α)) : Nat :=
  match geometryEntries terms with
  | .ok entries => (entries.map fun x => x.2.2.operations).sum +
      (terms.map fun t => 2 * addedCount t).sum
  | .error _ => 0

theorem sure_code {dims : List Nat} (hdims : extent dims < limit)
    (hterms : ∀ t ∈ terms, t.Ready primary) (hoperations : operations terms < limit) :
    Sure (fun _ => True) (code s dims terms) := by
  have hentries : Sure (fun _ => True) (geometryEntries terms) := by
    unfold geometryEntries
    refine bind (Ensures.mapM (R := fun _ _ => True) fun x hx => ?_) fun _ _ => trivial
    exact bind (hterms x.1 (fst_mem_of_mem_zipIdx hx)).entries fun _ _ => trivial
  unfold code
  refine bind hentries.of_eq fun entries hentries => ?_
  rw [operations, hentries.2] at hoperations
  simp only at hoperations
  have hgeometry := Nat.lt_of_le_of_lt (Nat.le_add_right _ _) hoperations
  have helement := Nat.lt_of_le_of_lt (Nat.le_add_left _ _) hoperations
  refine bind_ok (sum_of_lt hgeometry) (bind_ok (sum_of_lt helement) ?_)
  refine bind (sure_resetCode s hdims) fun _ _ => ?_
  exact bind_ok (add_of_lt hoperations) trivial

end Contraction

/-- The operations of the code of some monomials, as a number of any size. They do not depend on
    what was drawn before. -/
def contractionOperations (s : Setting α) (f : Form α) (ms : List (Monomial α))
    (primary : MultiIndex) (facet : Option Nat) : Nat :=
  match ((tensorTerms s.gauss s.tabulator f ms facet primary).run .empty).1 with
  | .ok terms => Contraction.operations terms
  | .error _ => 0

/-- The sizes of the code of some monomials by contraction fit. -/
@[mk_iff]
structure ContractionSized (s : Setting α) (f : Form α) (ms : List (Monomial α))
    (primary : MultiIndex) (facet : Option Nat) : Prop where
  terms : ms.length < TensorTerm.capacity
  tensors : ∀ m ∈ ms, f.Contractible m
  operations : contractionOperations s f ms primary facet < Size.limit

instance (s : Setting α) (f : Form α) (ms : List (Monomial α)) (primary : MultiIndex)
    (facet : Option Nat) : Decidable (ContractionSized s f ms primary facet) :=
  decidable_of_iff' _ (contractionSized_iff s f ms primary facet)

theorem contractionCase_sound (hgauss : ∀ n, (s.gauss n).length = n)
    (htabulator : s.tabulator = Tabulator.lagrange) (harguments : ∀ e ∈ f.arguments, e.Constructed)
    (hd : f.dims = .ok d) {ms : List (Monomial α)}
    (hms : ∀ m ∈ ms, m.integral = kind ∧ f.Sized m)
    (htensor : extent (macroDims f kind) < limit) (hfacets : facets ∈ facetCases f.cell kind)
    (hprimary : primary.dims = f.argumentDims)
    (h : ContractionSized s f ms primary facets.1) (domain : Nat) :
    (contractionCase s f kind domain ms primary facets.1).Sound (∃ m ∈ ms, f.Flawed m)
      fun _ => True := by
  -- The result does not depend on the allocator, so the empty one will do.
  intro c
  rw [(constant_contractionCase s f kind domain ms primary facets.1 c .empty).eq]
  have hterms : Outcome.Sound (∃ m ∈ ms, f.Flawed m) (fun terms => ∀ t ∈ terms, t.Ready primary)
      ((tensorTerms s.gauss s.tabulator f ms facets.1 primary).run .empty).1 := by
    unfold tensorTerms
    rw [htabulator]
    refine Drawing.sound_mapM (fun m hm c => ?_) .empty
    rcases hms m hm with ⟨hkind, hsized⟩
    exact (TensorTerms.term_sound hgauss harguments hd hsized (h.tensors m hm) (hkind ▸ hfacets)
      hprimary c).allow fun hflawed => ⟨m, hm, hflawed⟩
  have hlength : Checked.bound ms.length TensorTerm.capacity = .ok () := if_pos h.terms
  have hoperations := h.operations
  unfold contractionOperations at hoperations
  unfold contractionCase
  rw [hlength, Drawing.run_bind, Drawing.run_ofOutcome]
  change Outcome.Sound _ _ (Prod.fst (((tensorTerms s.gauss s.tabulator f ms facets.1 primary) >>=
    fun terms => _).run .empty))
  rw [Drawing.run_bind]
  cases hrun : (tensorTerms s.gauss s.tabulator f ms facets.1 primary).run .empty with
  | mk result c' =>
    rw [hrun] at hterms hoperations
    cases result with
    | error e => exact hterms
    | ok terms =>
      refine bind (Ensures.mapM (R := fun _ _ => True) fun t ht => ?_) fun _ _ => ?_
      · rw [(hterms t ht).reserved]
        trivial
      · rcases ElementTensor.of_ready hterms kind domain s.number with ⟨tensor, htensor', hterms'⟩
        refine bind_ok htensor' ?_
        rw [hterms']
        exact lift (Contraction.sure_code htensor hterms hoperations)

end
end WeakForm
