import WeakForm.Proofs.Success
import WeakForm.Tensor.Terms

/-!
# Drawing secondary indices

Every term of the tensor representation draws its secondary indices from a counter that
runs through all terms. The identifiers that a term gets therefore depend on what was
drawn before, but nothing that is computed from them does: an index is resolved relative
to the first identifier of its own multi-index, and the indices of one drawing are
consecutive.

`entry_drawn` is that fact for the entries of a geometry tensor. Its right side mentions
no allocator.

## Theorems

* `Drawing.run_bind_eq_ok`, `Drawing.run_mapM_eq_ok`: Successful drawings, step by step.
* `Index.resolve_drawn`: A drawn index stands for the entry at its position.
* `TensorTerms.term_eq_ok`, `ElementTensor.of_eq_ok`: What a term and a tensor consist of.
-/

namespace WeakForm

open List Success

variable {α : Type} [Scalar α]

namespace Drawing

variable {β γ : Type} {f : β → Drawing γ} {c c' : Allocator}

theorem run_bind (x : Drawing β) (f : β → Drawing γ) (c : Allocator) : (x >>= f).run c =
      match x.run c with
      | (.ok b, c') => (f b).run c'
      | (.error e, c') => (.error e, c') := by
  -- The transformer runs the state outside and the exception inside.
  change (ExceptT.run x >>= ExceptT.bindCont f) c = _
  change (match x.run c with | (r, c') => ExceptT.bindCont f r c') = _
  rcases x.run c with ⟨_ | _, _⟩ <;> rfl

theorem run_bind_eq_ok {x : Drawing β} {y : γ} : (x >>= f).run c = (.ok y, c') ↔
      ∃ b c₁, x.run c = (.ok b, c₁) ∧ (f b).run c₁ = (.ok y, c') := by
  rw [run_bind]
  cases hx : x.run c with
  | mk r c₁ =>
    cases r with
    | error e =>
      constructor
      · intro h
        cases h
      · rintro ⟨b, c₂, hb, _⟩
        cases hb
    | ok b =>
      constructor
      · intro h
        exact ⟨b, c₁, rfl, h⟩
      · rintro ⟨b', c₂, hb, h⟩
        cases hb
        exact h

theorem run_pure (b : β) (c : Allocator) : (pure b : Drawing β).run c = (.ok b, c) := rfl

theorem run_ofOutcome (x : Outcome β) (c : Allocator) : (ofOutcome x).run c = (x, c) := rfl

theorem run_secondary (dims : List Nat) (c : Allocator) : (secondary dims).run c =
      (.ok (MultiIndex.secondary c dims).1, (MultiIndex.secondary c dims).2) := rfl

theorem run_mapM_eq_ok {xs : List β} {ys : List γ} (h : (xs.mapM f).run c = (.ok ys, c')) :
    Forall₂ (fun x y => ∃ c₁ c₂, (f x).run c₁ = (.ok y, c₂)) xs ys := by
  induction xs generalizing c ys with
  | nil =>
    rw [mapM_nil, run_pure] at h
    cases h
    exact Forall₂.nil
  | cons x xs ih =>
    -- The allocator is passed from one element to the next, also past those that fail.
    rw [mapM_cons, run_bind_eq_ok] at h
    rcases h with ⟨y, c₁, hy, h⟩
    rcases run_bind_eq_ok.1 h with ⟨ys', c₂, hys, h⟩
    cases h
    exact Forall₂.cons ⟨c, c₁, hy⟩ (ih hys)

end Drawing

theorem MultiIndex.offset_secondary (c : Allocator) {dims : List Nat} (h : 0 < dims.length) :
    (secondary c dims).1.offset = c.secondaries := by
  -- The first identifier is the smallest, since identifiers count upwards.
  have hmin : ((range dims.length).map (c.secondaries + ·)).min? = some c.secondaries := by
    rw [min?_eq_some_iff]
    constructor
    · exact mem_map.2 ⟨0, mem_range.2 h, Nat.add_zero _⟩
    · intro id hid
      rcases mem_map.1 hid with ⟨k, _, rfl⟩
      exact Nat.le_add_right _ _
  unfold offset secondary
  rw [filterMap_map]
  change ((range dims.length).filterMap fun k => some (c.secondaries + k)).min?.getD 0 = _
  rw [filterMap_eq_map']
  exact congrArg (Option.getD · 0) hmin

theorem Index.resolve_drawn (c : Allocator) {dims : List Nat} {j : Nat} (h : j < dims.length)
    (i a : List Nat) :
    (Index.secondary (c.secondaries + j)).resolve i a (MultiIndex.secondary c dims).1.offset =
      entryAt a j := by
  rw [MultiIndex.offset_secondary c (Nat.zero_lt_of_lt h)]
  unfold Index.resolve Size.sub
  simp only [if_pos (Nat.le_add_right c.secondaries j), Nat.add_sub_cancel_left]
  rfl

namespace TensorTerms

variable (c : Allocator) (tdim : Nat) (factors : List Factor)

/-- An entry of the geometry tensor of a term: the scale, and for each derivative the entry of the
    inverse Jacobian in the row that the secondary tuple has at its position. -/
def drawnEntry (coefficient : α) (axes a : List Nat) : Checked (GeometryMonomial α) := do
  let start ← (GeometryMonomial.constant coefficient).mul (.ofSymbol .scale)
  axes.zipIdx.foldlM (fun product x => do
    product.mul (.ofSymbol (.inverse none (← entryAt a x.2) x.1))) start

/-- The secondary indices of a term: one for each derivative, over the reference axes. -/
def drawn (c : Allocator) (tdim : Nat) (factors : List Factor) : MultiIndex :=
  (MultiIndex.secondary c (List.replicate (Size.total (factors.map Factor.order)) tdim)).1

theorem total_order :
    Size.total (factors.map Factor.order) = (factors.flatMap Factor.derivatives).length := by
  rw [Size.total_eq_sum, length_flatMap]
  rfl

theorem dims_drawn : (drawn c tdim factors).dims =
      replicate (factors.flatMap Factor.derivatives).length tdim := by
  rw [← total_order]
  rfl

/-- The entries of the geometry tensor of a term do not depend on what was drawn before. -/
theorem entry_drawn (coefficient : α) (a : List Nat) :
    GeometryTensor.entry ⟨drawn c tdim factors, coefficient,
      geometryFactors factors (drawn c tdim factors).indices⟩ a =
        drawnEntry coefficient (factors.flatMap Factor.derivatives) a := by
  -- Indices and axes are paired by position, so an index is known from the position of its axis.
  have hzip : zipWith (fun index axis => GeometryFactor.inverse index (.fixed axis))
      (drawn c tdim factors).indices (factors.flatMap Factor.derivatives) =
        (factors.flatMap Factor.derivatives).zipIdx.map fun x =>
          .inverse (.secondary (c.secondaries + x.2)) (.fixed x.1) := by
    apply ext_getElem
    · simp [drawn, MultiIndex.secondary, total_order]
    · intro n _ _
      simp [drawn, MultiIndex.secondary]
  unfold GeometryTensor.entry geometryFactors drawnEntry
  rw [foldlM_cons, hzip]
  congr 1
  funext start
  rw [foldlM_map]
  -- What was drawn before has left the factors, and the folds are the same step by step.
  refine foldlM_eq_of_forall₂ (R := fun x y => x = y ∧ x ∈ zipIdx _) (forall₂_same.2 fun x hx =>
    ⟨rfl, hx⟩) ?_ _
  rintro x _ ⟨rfl, hx⟩ product
  have hlt : x.2 < (replicate (Size.total (factors.map Factor.order)) tdim).length := by
    rw [length_replicate, total_order]
    exact (mem_zipIdx' hx).1
  simp only [GeometryFactor.monomial, drawn, Index.resolve_drawn c hlt]
  cases entryAt a x.2 with
  | error e => rfl
  | ok t => rfl

theorem term_eq_ok {gauss : Gauss.Source α} {tabulator : Tabulator α} {f : Form α}
    {facet : Option Nat} {primary : MultiIndex} {m : Monomial α} {c c' : Allocator}
    {t : TensorTerm α} (h : (term gauss tabulator f facet primary m).run c = (.ok t, c')) :
    ∃ factors degree rule tables reference, f.arrange m = .ok factors ∧
      f.quadratureDegree m = .ok degree ∧ Rule.reference gauss f.cell facet degree = .ok rule ∧
      Forall₂ (fun factor (x : Factor × Table α) => x.1 = factor ∧
        ∃ e, f.arguments[factor.argument]? = some e ∧
          tabulator e rule.points factor.order = .ok x.2) factors tables ∧
      ReferenceTensor.ofFn primary (drawn c f.cell.dimension factors)
        (integral rule f.cell.dimension tables) = .ok reference ∧
      t = ⟨reference, drawn c f.cell.dimension factors, m.coefficient,
        geometryFactors factors (drawn c f.cell.dimension factors).indices⟩ := by
  unfold term at h
  rcases Drawing.run_bind_eq_ok.1 h with ⟨⟨factors, rule⟩, c₁, hfactors, hrest⟩
  rcases Drawing.run_bind_eq_ok.1 hrest with ⟨a, c₂, ha, houtcome⟩
  rw [Drawing.run_ofOutcome, Prod.mk.injEq] at hfactors houtcome
  rw [Drawing.run_secondary, Prod.mk.injEq, Except.ok.injEq] at ha
  rcases hfactors with ⟨hfactors, rfl⟩
  rcases bind_eq_ok.1 hfactors with ⟨factors', harrange, hfactors⟩
  rcases bind_eq_ok.1 hfactors with ⟨degree, hdegree, hfactors⟩
  rcases bind_eq_ok.1 hfactors with ⟨_, _, hfactors⟩
  rcases bind_eq_ok.1 hfactors with ⟨rule', hrule, hfactors⟩
  rw [pure_eq_ok, Prod.mk.injEq] at hfactors
  rcases hfactors with ⟨rfl, rfl⟩
  rcases bind_eq_ok.1 houtcome.1 with ⟨tables, htables, hterm⟩
  rcases bind_eq_ok.1 hterm with ⟨_, _, hterm⟩
  rcases bind_eq_ok.1 hterm with ⟨reference, hreference, hterm⟩
  rcases bind_eq_ok.1 hterm with ⟨geometry, hgeometry, hterm⟩
  rw [lift_fault_eq_ok] at hreference hgeometry hterm
  rcases bind_eq_ok.1 hgeometry with ⟨_, _, hgeometry⟩
  rcases bind_eq_ok.1 hterm with ⟨_, _, hterm⟩
  rw [pure_eq_ok] at hgeometry hterm
  refine ⟨factors', degree, rule', tables, reference, harrange, lift_fault_eq_ok.1 hdegree, hrule,
    ?_, ?_, ?_⟩
  · refine (mapM_eq_ok.1 htables).imp fun factor x hx => ?_
    rcases bind_eq_ok.1 hx with ⟨e, he, hx⟩
    rcases bind_eq_ok.1 hx with ⟨table, htable, hx⟩
    cases hx
    exact ⟨rfl, e, entryAt_eq_ok.1 (lift_fault_eq_ok.1 he), htable⟩
  -- The indices in the tensor are those that the drawing returned.
  · rw [← ha.1] at hreference
    exact hreference
  · rw [← hterm, ← hgeometry, ← ha.1]
    rfl

end TensorTerms

theorem GeometryTensor.map_fst_entries {t : GeometryTensor α}
    {entries : List (List Nat × GeometryMonomial α)} (h : t.entries = .ok entries) :
    entries.map Prod.fst = t.a.tuples := by
  refine (map_eq_of_forall₂ (mapM_eq_ok.1 h).flip fun x a hx => ?_).trans (map_id _)
  rcases bind_eq_ok.1 hx with ⟨m, _, hx⟩
  cases hx
  rfl

namespace ElementTensor

variable {terms : List (TensorTerm α)} {kind : Integral} {domain : Nat}
  {style : Style α} {tensor : ElementTensor α}

/-- Terms have an element tensor if their primary dimensions are equal and its declarations exist. -/
theorem of_iff : of terms kind domain style = .ok tensor ↔
      (∀ t ∈ terms, ∀ u ∈ terms, t.reference.i.dims = u.reference.i.dims) ∧
        referenceDeclarations terms style = .ok tensor.reference ∧
        geometryDeclarations terms style = .ok tensor.geometry ∧
        elementDeclarations terms style = .ok tensor.element ∧
        tensor.terms = terms ∧ tensor.integral = kind ∧ tensor.domain = domain := by
  -- What follows the check of the dimensions makes the declarations.
  have hrest : ((pure () : Outcome Unit) >>= fun _ => do
      let reference ← referenceDeclarations terms style
      let geometry ← geometryDeclarations terms style
      let element ← elementDeclarations terms style
      return ElementTensor.mk terms kind domain reference geometry element) = .ok tensor ↔
      referenceDeclarations terms style = .ok tensor.reference ∧
        geometryDeclarations terms style = .ok tensor.geometry ∧
        elementDeclarations terms style = .ok tensor.element ∧
        tensor.terms = terms ∧ tensor.integral = kind ∧ tensor.domain = domain := by
    rw [pure_bind]
    simp only [bind_eq_ok, lift_fault_eq_ok, pure_eq_ok]
    constructor
    · rintro ⟨_, hreference, _, hgeometry, _, helement, rfl⟩
      exact ⟨hreference, hgeometry, helement, rfl, rfl, rfl⟩
    · rintro ⟨hreference, hgeometry, helement, rfl, rfl, rfl⟩
      exact ⟨_, hreference, _, hgeometry, _, helement, rfl⟩
  unfold of
  cases terms with
  | nil => exact hrest.trans (by simp only [not_mem_nil, false_implies, implies_true, true_and])
  | cons t terms =>
    have hnone : (t :: terms).find? (fun u => u.reference.i.dims ≠ t.reference.i.dims) = none ↔
        ∀ u ∈ t :: terms, ∀ u' ∈ t :: terms, u.reference.i.dims = u'.reference.i.dims := by
      simp only [find?_eq_none, decide_eq_true_eq, not_not]
      exact ⟨fun h u hu u' hu' => (h u hu).trans (h u' hu').symm,
        fun h u hu => h u hu t mem_cons_self⟩
    rw [← hnone]
    simp only [primary, head?_cons, Option.map_some]
    cases (t :: terms).find? (fun u => u.reference.i.dims ≠ t.reference.i.dims) with
    | none => exact hrest.trans (by rw [eq_self, true_and])
    | some u =>
      constructor
      · intro h
        rcases bind_eq_ok.1 h with ⟨_, hthrow, _⟩
        cases hthrow
      · rintro ⟨h, _⟩
        cases h

theorem of_eq_ok (h : of terms kind domain style = .ok tensor) :
    tensor.terms = terms ∧ ∀ t ∈ terms, ∃ entries, t.geometry.entries = .ok entries := by
  rcases of_iff.1 h with ⟨_, _, hgeometry, _, hterms, _⟩
  refine ⟨hterms, fun t ht => ?_⟩
  rcases bind_eq_ok.1 hgeometry with ⟨lists, hlists, _⟩
  rcases mem_iff_getElem?.1 ht with ⟨n, hn⟩
  refine forall₂_left (P := fun x => ∃ entries, x.1.geometry.entries = .ok entries)
    (mapM_eq_ok.1 hlists) (fun x l hl => ?_) (t, n) (mem_zipIdx_iff_getElem?.2 hn)
  rcases bind_eq_ok.1 hl with ⟨entries, hentries, _⟩
  exact ⟨entries, hentries⟩

end ElementTensor

end WeakForm
