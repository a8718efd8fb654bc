import WeakForm.Proofs.PhysicalBasis
import Mathlib.Algebra.Order.BigOperators.Group.List
import WeakForm.Proofs.Arrangement
import WeakForm.Proofs.Drawing

/-!
# The two representations of an element tensor

The tensor representation multiplies integrals over the reference cell with products of
geometry symbols and sums over secondary tuples. The quadrature representation sums over
the points of a rule the products of expanded factors. For elements with nodal values
both compute the same entries.

The proof is the distributive law. A secondary tuple is cut into one piece for each
factor, and both the integrand and the geometry split along the pieces, so the sum over
all tuples is a product of sums over the pieces (`sum_pieces`). The sum that belongs to
a factor is the chain rule, and `expandFactor_total` says that its tables add up to the
same.

## Theorems

* `ReferenceTensor.entry_ofFn`: The entries of a tensor are the ones it was made from.
* `TensorTerms.value_drawnEntry`: The value of an entry of a geometry tensor.
* `TensorTerms.sum_pieces`: The distributive law along the pieces of a tuple.
* `evaluate_eq_quadrature`: Both representations have the same entries.
-/

namespace WeakForm

open List Success WeakForm.Tuple GeometryMonomial TensorTerms

variable {α : Type}

theorem get_flatten {β : Type} {rows : List (List β)} {width : Nat}
    (h : ∀ row ∈ rows, row.length = width) {n m : Nat} {row : List β} {x : β}
    (hn : rows[n]? = some row) (hm : row[m]? = some x) : rows.flatten[n * width + m]? = some x := by
  induction rows generalizing n with
  | nil => cases hn
  | cons first rest ih =>
    have hfirst := h first mem_cons_self
    rw [flatten_cons]
    cases n with
    | zero =>
      rw [getElem?_cons_zero, Option.some.injEq] at hn
      have hlt := (List.getElem?_eq_some_iff.1 hm).1
      rw [hn, Nat.zero_mul, Nat.zero_add, getElem?_append_left hlt, hm]
    | succ n =>
      rw [getElem?_cons_succ] at hn
      rw [Nat.succ_mul, getElem?_append_right (by omega),
        show n * width + width + m - first.length = n * width + m by omega]
      exact ih (fun r hr => h r (mem_cons_of_mem first hr)) hn

theorem map_eq_zipWith {β γ δ : Type} {xs : List β} {ys : List γ} {indices : List Nat}
    (position : β → Nat) {F : β → δ} {G : γ → Nat → δ}
    (hposition : xs.map position = range xs.length)
    (h : Forall₂ (fun x y => ∃ k, indices[position x]? = some k ∧ F x = G y k) xs ys) :
    xs.map F = zipWith G ys indices := by
  apply ext_getElem?
  intro n
  rw [getElem?_map, getElem?_zipWith]
  cases hx : xs[n]? with
  | none =>
    have hlength := h.length_eq
    rw [List.getElem?_eq_none_iff] at hx
    rw [getElem?_eq_none (by omega)]
    rfl
  | some x =>
    rcases forall₂_get h hx with ⟨y, hy, k, hk, hF⟩
    have hn : position x = n := by
      have hmap := congrArg (fun l => l[n]?) hposition
      simp only [getElem?_map, hx, Option.map_some] at hmap
      rw [getElem?_range (List.getElem?_eq_some_iff.1 hx).1, Option.some.injEq] at hmap
      exact hmap
    rw [hn] at hk
    rw [hy, hk, Option.map_some, hF]

namespace ReferenceTensor

variable [Scalar α]

theorem position_eq_linear {dims tuple : List Nat} (h : tuple ∈ Tuple.all dims) :
    position dims tuple = linear dims tuple := by
  unfold position
  rw [foldl_eq_linear (length_of_mem_all h), Nat.zero_mul, Nat.zero_add]

theorem entry_ofFn {i a : MultiIndex} {f : List Nat → List Nat → Checked α}
    {t : ReferenceTensor α} (h : ofFn i a f = .ok t) : t.i = i ∧ t.a = a ∧
      ∀ it ∈ i.tuples, ∀ at' ∈ a.tuples, f it at' = .ok (t.entry it at') := by
  unfold ofFn at h
  rcases bind_eq_ok.1 h with ⟨_, _, h⟩
  rcases bind_eq_ok.1 h with ⟨_, _, h⟩
  rcases bind_eq_ok.1 h with ⟨rows, hrows, h⟩
  rcases bind_eq_ok.1 h with ⟨_, _, h⟩
  rcases bind_eq_ok.1 h with ⟨_, _, h⟩
  cases h
  refine ⟨rfl, rfl, fun it hit at' hat => ?_⟩
  rw [mapM_eq_ok] at hrows
  -- All rows have the same length, so an entry is found by its row and its place in it.
  have hlength : ∀ row ∈ rows, row.length = a.dims.prod := by
    refine forall₂_left hrows.flip fun row it hrow => ?_
    rw [← (mapM_eq_ok.1 hrow).length_eq]
    exact length_all a.dims
  rcases forall₂_get hrows (get_linear hit) with ⟨row, hrow, hmap⟩
  rcases forall₂_get (mapM_eq_ok.1 hmap) (get_linear hat) with ⟨x, hx, hf⟩
  have hget := get_flatten hlength hrow hx
  unfold entry
  simp only
  rw [hf, position_eq_linear hit, position_eq_linear hat, ← prod_eq_foldl, getElem?_toArray, hget,
    Option.getD_some]

end ReferenceTensor

/-- A term whose reference tensor has the given primary range, and whose tensors have one secondary
    range. -/
structure TensorTerm.Ranges (primary : MultiIndex) (t : TensorTerm α) : Prop where
  primary : t.reference.i = primary
  dims : t.reference.a.dims = t.geometry.a.dims

theorem tensorTerms_ranges [Scalar α] {gauss : Gauss.Source α} {tabulator : Tabulator α}
    {f : Form α} {ms : List (Monomial α)} {facet : Option Nat} {primary : MultiIndex}
    {c c' : Allocator} {terms : List (TensorTerm α)}
    (h : (tensorTerms gauss tabulator f ms facet primary).run c = (.ok terms, c')) :
    terms.length = ms.length ∧ ∀ t ∈ terms, t.Ranges primary := by
  have hterms := Drawing.run_mapM_eq_ok h
  refine ⟨hterms.length_eq.symm, forall₂_left hterms.flip fun t m ht => ?_⟩
  rcases ht with ⟨c₁, c₂, ht⟩
  rcases TensorTerms.term_eq_ok ht with ⟨_, _, _, _, reference, _, _, _, _, hreference, rfl⟩
  rcases ReferenceTensor.entry_ofFn hreference with ⟨hi, ha, _⟩
  exact ⟨hi, congrArg MultiIndex.dims ha⟩

namespace TensorTerms

/-- The orders of the factors of a term are small, since its secondary tuples can be counted. -/
theorem order_lt_of_ofFn {primary : MultiIndex} {tdim : Nat}
    {g : List Nat → List Nat → Checked α} {reference : ReferenceTensor α}
    (h : ReferenceTensor.ofFn primary (drawn c tdim factors) g = .ok reference) (hpos : 0 < tdim)
    {factor : Factor} (hfactor : factor ∈ factors) : tdim = 1 ∨ factor.order < 64 := by
  rcases bind_eq_ok.1 h with ⟨_, hsize, _⟩
  rcases bind_eq_ok.1 hsize with ⟨_, _, hsize⟩
  rcases bind_eq_ok.1 hsize with ⟨count, hcount, _⟩
  rw [MultiIndex.count, Tuple.count, dims_drawn] at hcount
  have hle : factor.order ≤ (factors.flatMap Factor.derivatives).length := by
    rw [← total_order]
    exact single_le_sum (fun _ _ => Nat.zero_le _) _ (mem_map_of_mem hfactor)
  -- Without derivatives there is one tuple, whatever the dimension is.
  by_cases hempty : (factors.flatMap Factor.derivatives).length = 0
  · omega
  · have hlt := Size.product_lt hcount (by simpa using hempty)
    rw [Size.product_eq_prod hcount, prod_replicate] at hlt
    by_contra hlarge
    have hpow : 2 ^ 64 ≤ tdim ^ (factors.flatMap Factor.derivatives).length :=
      calc 2 ^ 64 ≤ tdim ^ 64 := Nat.pow_le_pow_left (by omega) 64
        _ ≤ tdim ^ (factors.flatMap Factor.derivatives).length :=
          Nat.pow_le_pow_right hpos (by omega)
    exact absurd hlt (Nat.not_lt.2 hpow)

section

variable {R : Type} [CommSemiring R]

theorem sum_pieces {β : Type} (order : β → Nat) (F : β → List Nat → R) (dim : Nat) (xs : List β) :
    ((axes dim (xs.map order).sum).map fun a => (zipWith F xs (pieces (xs.map order) a)).prod).sum =
        (xs.map fun x => ((axes dim (order x)).map (F x)).sum).prod := by
  induction xs with
  | nil => simp [axes, Tuple.all, pieces]
  | cons x xs ih =>
    rw [map_cons, sum_cons, map_cons, prod_cons, ← ih]
    unfold axes
    -- The first piece is the front of the tuple, and the other pieces only see what is behind it.
    rw [replicate_add, Tuple.all_append, sum_flatMap, ← sum_map_mul_right]
    refine congrArg List.sum (map_congr_left fun a ha => ?_)
    have hlength : a.length = order x := by
      rw [length_of_mem_all ha, length_replicate]
    rw [map_map, ← sum_map_mul_left]
    refine congrArg List.sum (map_congr_left fun b _ => ?_)
    rw [Function.comp_apply, pieces, ← hlength, take_left, drop_left, zipWith_cons_cons,
      prod_cons]

end

variable {K : Type} [Field K] {c : Allocator} {factors : List Factor} {β : Type} {coefficient : K}
  {a i : List Nat}

theorem prod_zipWith_mul {γ : Type} (f g : β → γ → K) (xs : List β) (ys : List γ) :
    (zipWith f xs ys).prod * (zipWith g xs ys).prod =
      (zipWith (fun x y => f x y * g x y) xs ys).prod := by
  rw [← map_uncurry_zip_eq_zipWith, ← map_uncurry_zip_eq_zipWith, ← prod_map_mul,
    ← map_uncurry_zip_eq_zipWith]
  rfl

theorem chainFactor_flatMap (side : Option Side) (v : Symbol → K) (axes : β → List Nat)
    (xs : List β) (a : List Nat) (h : a.length = (xs.flatMap axes).length) :
    chainFactor side v (xs.flatMap axes) a =
      (zipWith (fun x piece => chainFactor side v (axes x) piece) xs
        (pieces (xs.map fun x => (axes x).length) a)).prod := by
  induction xs generalizing a with
  | nil => simp [chainFactor, pieces]
  | cons x xs ih =>
    rw [flatMap_cons, length_append] at h
    have hsplit : (axes x).length = (a.take (axes x).length).length := by
      rw [length_take]
      omega
    rw [flatMap_cons, map_cons, pieces, zipWith_cons_cons, prod_cons, ← ih]
    · unfold chainFactor
      -- Only the left side is cut; the pieces on the right are cut already.
      conv_lhs => rw [← take_append_drop (axes x).length a]
      rw [zipWith_append hsplit.symm, prod_append]
    · rw [length_drop]
      omega

variable [LinearOrder K] [Root K] {tdim : Nat} {tables : List (Factor × Table K)}

theorem value_drawnEntry {axes : List Nat} {g : GeometryMonomial K}
    (h : drawnEntry coefficient axes a = .ok g) (hlength : axes.length = a.length) (v : Symbol → K) :
    g.value v = coefficient * v .scale * chainFactor none v axes a := by
  -- The loop reads the tuple from any position on.
  have hloop : ∀ (axes : List Nat) (n : Nat) (start g : GeometryMonomial K),
      axes.length = (a.drop n).length → start.powers.Signed →
      (axes.zipIdx n).foldlM (fun product x => do
        product.mul (.ofSymbol (.inverse none (← entryAt a x.2) x.1))) start = .ok g →
      g.value v = start.value v * chainFactor none v axes (a.drop n) := by
    intro axes
    induction axes with
    | nil =>
      intro n start g _ _ h
      rw [zipIdx_nil, foldlM_nil_eq_ok] at h
      rw [h, chainFactor, zipWith_nil_right, prod_nil, mul_one]
    | cons axis axes ih =>
      intro n start g hlength hsigned h
      rw [zipIdx_cons, foldlM_cons_eq_ok] at h
      rcases h with ⟨next, hnext, h⟩
      rcases bind_eq_ok.1 hnext with ⟨t, ht, hnext⟩
      rw [entryAt_eq_ok] at ht
      rcases List.getElem?_eq_some_iff.1 ht with ⟨hn, ht⟩
      have hdrop : a.drop n = t :: a.drop (n + 1) := by
        rw [← ht]
        exact drop_eq_getElem_cons hn
      rcases mul_spec hnext hsigned (signed_ofSymbol rfl) v
        with ⟨hsigned', hvalue, _⟩
      rw [hdrop, length_cons, length_cons, Nat.add_right_cancel_iff] at hlength
      rw [ih (n + 1) next g hlength hsigned' h, hvalue, value_ofSymbol, hdrop, chainFactor,
        chainFactor, zipWith_cons_cons, prod_cons, mul_assoc]
  unfold drawnEntry at h
  rcases bind_eq_ok.1 h with ⟨start, hstart, h⟩
  rcases mul_spec hstart Powers.signed_nil (signed_ofSymbol rfl) v
    with ⟨hsigned, hvalue, _⟩
  rw [hloop axes 0 start g hlength hsigned h, hvalue, value_constant, value_ofSymbol, drop_zero]

theorem entries_eq_ok {entries : List (List Nat × GeometryMonomial K)}
    (h : GeometryTensor.entries ⟨drawn c tdim factors, coefficient,
      geometryFactors factors (drawn c tdim factors).indices⟩ = .ok entries) (v : Symbol → K) :
    Forall₂ (fun a x => x.1 = a ∧ x.2.value v =
        coefficient * v .scale * chainFactor none v (factors.flatMap Factor.derivatives) a)
      (axes tdim (factors.map Factor.order).sum) entries := by
  have hdims := dims_drawn c tdim factors
  rw [← total_order] at hdims
  unfold GeometryTensor.entries MultiIndex.tuples at h
  rw [mapM_eq_ok] at h
  change Forall₂ _ (Tuple.all (drawn c tdim factors).dims) entries at h
  rw [hdims] at h
  refine (forall₂_and_left _ _).2 ⟨fun a ha => ha, h⟩ |>.imp fun a x hax => ?_
  rcases bind_eq_ok.1 hax.2 with ⟨g, hg, hx⟩
  rw [entry_drawn] at hg
  cases hx
  refine ⟨rfl, value_drawnEntry hg ?_ v⟩
  rw [← total_order, length_of_mem_all hax.1, length_replicate]

/-- The value of a factor of a monomial at a point, for one piece of a secondary tuple: the entry
    of its table for the basis function that the primary tuple selects. -/
def factorValue (tdim p : Nat) (i : List Nat) (x : Factor × Table K) (piece : List Nat) : K :=
  x.2.entry p (i[x.1.argument]?.getD 0) (Tuple.linear (List.replicate piece.length tdim) piece)
    x.1.component

theorem product_eq_ok {p : Nat} {cut : List (List Nat)} {numbers : List Nat} {start y : K}
    (hnumbers : Forall₂ (fun piece number => axesNumber tdim piece = .ok number) cut numbers)
    (hlength : tables.length = cut.length) (h : (tables.zip numbers).foldlM (fun product x => do
      return product * (← x.1.2.get p (← entryAt i x.1.1.argument) x.2 x.1.1.component)) start =
        (.ok y : Checked K)) : y = start * (zipWith (factorValue tdim p i) tables cut).prod ∧
      ∀ t ∈ tables, ∃ k, i[t.1.argument]? = some k ∧ p < t.2.points ∧ k < t.2.dofs := by
  induction tables generalizing cut numbers start with
  | nil =>
    rw [zip_nil_left, foldlM_nil_eq_ok] at h
    rw [zipWith_nil_left, prod_nil, mul_one]
    exact ⟨h.symm, fun t ht => absurd ht not_mem_nil⟩
  | cons t tables ih =>
    cases hnumbers with
    | nil => cases hlength
    | @cons piece number cut numbers hnumber hnumbers =>
      rw [zip_cons_cons, foldlM_cons_eq_ok] at h
      rcases h with ⟨next, hnext, h⟩
      rcases bind_eq_ok.1 hnext with ⟨k, hk, hnext⟩
      rcases bind_eq_ok.1 hnext with ⟨value, hvalue, hnext⟩
      rw [entryAt_eq_ok] at hk
      rw [pure_eq_ok] at hnext
      -- A table is read inside of its bounds or not at all.
      unfold Table.get at hvalue
      split at hvalue
      · next hcontains =>
        rw [Table.contains, Bool.and_eq_true, Bool.and_eq_true, Bool.and_eq_true,
          decide_eq_true_iff, decide_eq_true_iff] at hcontains
        rcases ih hnumbers (by simpa using hlength) h with ⟨hy, hreads⟩
        constructor
        · rw [hy, ← hnext, ← Except.ok.inj hvalue, zipWith_cons_cons, prod_cons, mul_assoc,
            factorValue, hk, Option.getD_some, axesNumber_eq_linear hnumber]
        · intro t' ht'
          rcases mem_cons.1 ht' with rfl | ht'
          · exact ⟨k, hk, hcontains.1.1.1, hcontains.1.1.2⟩
          · exact hreads t' ht'
      · cases hvalue

theorem length_pieces (ns tuple : List Nat) : (pieces ns tuple).length = ns.length := by
  induction ns generalizing tuple with
  | nil => rfl
  | cons n ns ih => rw [pieces, length_cons, length_cons, ih]

/-- The value of an entry of a reference tensor, and where its tables are read. -/
theorem integral_eq_ok {rule : Rule K} {x : K} (h : integral rule tdim tables i a = .ok x) :
    x = (rule.weights.zipIdx.map fun w => w.1 * (zipWith (factorValue tdim w.2 i) tables
        (pieces (tables.map fun x => x.1.order) a)).prod).sum ∧
      ∀ w ∈ rule.weights.zipIdx, ∀ t ∈ tables, ∃ k, i[t.1.argument]? = some k ∧
        w.2 < t.2.points ∧ k < t.2.dofs := by
  unfold integral at h
  rcases bind_eq_ok.1 h with ⟨numbers, hnumbers, h⟩
  rcases bind_eq_ok.1 h with ⟨values, hvalues, h⟩
  rw [pure_eq_ok, Scalar.sum_eq_sum] at h
  rw [mapM_eq_ok] at hnumbers hvalues
  have hproduct := hvalues.imp fun w y hy => product_eq_ok hnumbers
    (by rw [length_pieces, length_map]) hy
  constructor
  · rw [← h, ← map_id values]
    exact (sum_eq_of_forall₂ hproduct fun w _ y hy => hy.1.symm).symm
  · exact forall₂_left hproduct fun w y hy => hy.2

theorem sum_chains (tdim p : Nat) (i : List Nat) (tables : List (Factor × Table K))
    (v : Symbol → K) : ((axes tdim (tables.map fun x => x.1.order).sum).map fun a =>
      (zipWith (factorValue tdim p i) tables (pieces (tables.map fun x => x.1.order) a)).prod *
        chainFactor none v (tables.flatMap fun x => x.1.derivatives) a).sum =
      (tables.map fun x => ((axes tdim x.1.order).map fun a =>
        chainFactor none v x.1.derivatives a * x.2.entry p (i[x.1.argument]?.getD 0)
          (linear (replicate x.1.order tdim) a) x.1.component).sum).prod := by
  have hsplit : ∀ a ∈ axes tdim (tables.map fun x => x.1.order).sum,
      (zipWith (factorValue tdim p i) tables (pieces (tables.map fun x => x.1.order) a)).prod *
        chainFactor none v (tables.flatMap fun x => x.1.derivatives) a =
      (zipWith (fun x piece => factorValue tdim p i x piece *
        chainFactor none v x.1.derivatives piece) tables
          (pieces (tables.map fun x => x.1.order) a)).prod := by
    intro a ha
    rw [chainFactor_flatMap, ← prod_zipWith_mul]
    · rfl
    · rw [(mem_axes_iff.1 ha).1, length_flatMap]
      rfl
  rw [map_congr_left hsplit, sum_pieces]
  refine congrArg List.prod (map_congr_left fun x _ => ?_)
  refine congrArg List.sum (map_congr_left fun a ha => ?_)
  rw [factorValue, (mem_axes_iff.1 ha).1, mul_comm]

end TensorTerms

/-- The Lagrange elements, also the discontinuous and the vector-valued ones. -/
def Element.IsNodal (e : Element) : Prop :=
  ∃ cell degree, lagrange cell degree = .ok e ∨ discontinuous cell degree = .ok e ∨
    ∃ components, vector cell degree components = .ok e

/-- The degrees of freedom of a nodal element come in blocks, one for each component. -/
theorem Element.IsNodal.blocks {e : Element} (h : e.IsNodal) : e.referenceShape = e.valueShape ∧
    ∃ n, polynomialCount e.cell e.degree = .ok n ∧
      e.dofs = (range e.valueShape.prod).flatMap (affineDofs n) := by
  have hscalar : ∀ family cell degree, scalar family cell degree = .ok e →
      e.referenceShape = e.valueShape ∧ ∃ n, polynomialCount e.cell e.degree = .ok n ∧
        e.dofs = (range e.valueShape.prod).flatMap (affineDofs n) := by
    intro family cell degree h
    rcases bind_eq_ok.1 h with ⟨n, hn, h⟩
    cases h
    exact ⟨rfl, n, hn, by simp⟩
  rcases h with ⟨cell, degree, h | h | ⟨components, h⟩⟩
  · exact hscalar .lagrange cell degree h
  · exact hscalar .discontinuousLagrange cell degree h
  · rcases bind_eq_ok.1 h with ⟨n, hn, h⟩
    cases h
    exact ⟨rfl, n, hn, by simp⟩

theorem Element.dofs_of_isNodal {e : Element} (h : e.IsNodal) :
    e.referenceShape = e.valueShape ∧ ∀ data ∈ e.dofs, ∃ c, data = ⟨.affine, c, c, 1⟩ := by
  rcases h.blocks with ⟨hshape, n, _, hdofs⟩
  refine ⟨hshape, fun data hdata => ?_⟩
  rcases mem_flatMap.1 (hdofs ▸ hdata) with ⟨c, _, hdata⟩
  exact ⟨c, eq_of_mem_replicate hdata⟩

section

variable {K : Type} [Field K] [LinearOrder K] [IsStrictOrderedRing K] [Root K] {f : Form K}
  {d : Dimensions} {p : Nat} {m : Monomial K} {i : List Nat}

open Expand in
theorem expandFactor_total_of_nodal {integral : Integral} {factor : Factor} {e : Element}
    (hfits : f.Fits d integral factor e) (hnodal : e.IsNodal) (hdim : f.cell.dimension = d.tdim)
    (hside : factor.side = none) {points : List (List K)} {t : Table K}
    (htable : Tabulator.lagrange e points factor.order = .ok t)
    (hbound : d.tdim = 1 ∨ factor.order < 64) {tables : List (ScaledTable K)}
    (hexpand : expandFactor e factor t d 0 = .ok tables) (v : Symbol → K) {k : Nat}
    (hp : p < t.points) (hk : k < t.dofs) : ScaledTable.total v tables p k =
      ((axes d.tdim factor.order).map fun a => chainFactor none v factor.derivatives a *
        t.entry p k (linear (replicate factor.order d.tdim) a) factor.component).sum := by
  rcases Tabulator.lagrange_values htable with ⟨_, _, size, derivatives, values, hsize, _, hderivatives,
    hvalues, hzero, _⟩
  rcases hfits.component with ⟨size', hsize', hcomponent⟩
  rcases Element.dofs_of_isNodal hnodal with ⟨hshape, hdofs⟩
  rw [Element.referenceSize, hshape, ← Element.physicalSize, hsize'] at hsize
  cases hsize
  rcases Table.dims_ofFn hvalues with ⟨hpoints, hdofcount, -, -⟩
  rw [hfits.cell, hdim] at hderivatives
  have hcount := axesCount_eq_pow hderivatives hbound
  rw [hdofcount] at hk
  have hdata := getElem?_eq_getElem hk
  rcases hdofs e.dofs[k] (getElem_mem hk) with ⟨c, hc⟩
  by_cases hcovers : Covers d factor.component e.dofs[k]
  · have hown : c = factor.component := by
      unfold Covers at hcovers
      rw [hc] at hcovers
      change c ≤ factor.component ∧ factor.component < c + 1 at hcovers
      omega
    have hvalued : valueEntries e.dofs[k].mapping (factor.component - e.dofs[k].physicalOffset)
        (MapEntries.valued d factor.side v) = .ok (1, [1]) := by
      rw [hc]
      rfl
    rw [expandFactor_total hexpand hfits.axes v hp (by rwa [hdofcount]) hdata hcovers hvalued,
      physicalSum, zipIdx_map, axes, zipIdx_all, map_map, map_map]
    refine congrArg List.sum (map_congr_left fun a _ => ?_)
    rw [hc, hside]
    simp [hown]
  · rw [expandFactor_total_of_not_covers hexpand hfits.axes v hp (by rwa [hdofcount]) hdata hcovers]
    refine (sum_eq_zero ?_).symm
    intro x hx
    rcases mem_map.1 hx with ⟨a, ha, rfl⟩
    have hlt : linear (replicate factor.order d.tdim) a < derivatives := by
      rw [hcount, ← prod_replicate]
      exact linear_lt ha
    rw [Table.entry_ofFn hvalues (by rwa [← hpoints]) hk hlt hcomponent, hzero, mul_zero]
    -- The component of the basis function is the one it covers.
    intro hown
    rw [getElem?_map, hdata, Option.map_some, Option.some.injEq, hc] at hown
    refine hcovers ?_
    rw [hc]
    change c ≤ factor.component ∧ factor.component < c + 1
    change c = factor.component at hown
    omega

/-- The tables of the factors of a monomial follow the chain rule, each at the basis function of its
    argument. -/
theorem totals_eq_chains {factors : List Factor} {rule : Rule K} {tabs : List (Factor × Table K)}
    {tables : List (List (ScaledTable K) × Nat)} (hdims : f.dims = .ok d)
    (hkind : m.integral ≠ .interiorFacet) (hnodal : ∀ e ∈ f.arguments, e.IsNodal)
    (harrange : f.arrange m = .ok factors)
    (hbound : ∀ factor ∈ factors, d.tdim = 1 ∨ factor.order < 64)
    (htabs : Forall₂ (fun factor (x : Factor × Table K) => x.1 = factor ∧
      ∃ e, f.arguments[factor.argument]? = some e ∧
        Tabulator.lagrange e rule.points factor.order = .ok x.2) factors tabs)
    (hexpanded : Forall₂ (fun factor (x : List (ScaledTable K) × Nat) =>
      ∃ e reference, f.arguments[factor.argument]? = some e ∧
        x.2 = (placement e rule none factor.side).2 ∧
        Tabulator.lagrange e (placement e rule none factor.side).1 factor.order = .ok reference ∧
        expandFactor e factor reference d 0 = .ok x.1) factors tables) (v : Symbol → K)
    (hread : ∀ x ∈ tabs, ∃ k, i[x.1.argument]? = some k ∧ p < x.2.points ∧ k < x.2.dofs) :
    (tabs.map fun x => ((axes d.tdim x.1.order).map fun a =>
      chainFactor none v x.1.derivatives a * x.2.entry p (i[x.1.argument]?.getD 0)
        (linear (replicate x.1.order d.tdim) a) x.1.component).sum) =
      zipWith (fun x k => ScaledTable.total v x.1 p k) tables i := by
  have hdim := Form.tdim_eq hdims
  rcases Form.arrange_eq_ok hdims harrange with ⟨harguments, hfits⟩
  have hfst : tabs.map Prod.fst = factors := by
    rw [← forall₂_eq_eq_eq, forall₂_map_left_iff]
    exact htabs.flip.imp fun x factor hx => hx.1
  refine map_eq_zipWith (fun x => x.1.argument) ?_ (forall₂_join htabs hexpanded ?_)
  · have hlength := congrArg List.length harguments
    rw [length_map, length_range, htabs.length_eq] at hlength
    rw [hlength, ← harguments, ← hfst, map_map]
    rfl
  · -- Both sides tabulate the same element at the same points.
    rintro factor hfactor x hx y ⟨rfl, e, he, htable⟩ ⟨e', table', he', _, htable', hexpand⟩
    rw [he] at he'
    cases he'
    rw [placement_none, htable] at htable'
    cases htable'
    rcases hfits x.1 hfactor with ⟨e', hfit⟩
    have hee := hfit.argument
    rw [he] at hee
    cases hee
    have hside : x.1.side = none := by
      have hside := hfit.side
      rw [decide_eq_false hkind] at hside
      exact Option.not_isSome_iff_eq_none.1 (by simp [hside])
    rcases hread x hx with ⟨k, hk, hp, hdof⟩
    refine ⟨k, hk, ?_⟩
    rw [expandFactor_total_of_nodal hfit (hnodal e (mem_of_getElem? he)) hdim hside htable
      (hbound x.1 hfactor) hexpand v hp hdof, hk, Option.getD_some]

theorem term_sum {s : Setting K} {facet : Option Nat} {primary : MultiIndex} {c c' : Allocator}
    {t : TensorTerm K} {tables : TermTables K} (htabulator : s.tabulator = Tabulator.lagrange)
    (hepsilon : s.options.epsilon = 0) (hnodal : ∀ e ∈ f.arguments, e.IsNodal)
    (hdims : f.dims = .ok d) (hkind : m.integral ≠ .interiorFacet)
    (hterm : (term s.gauss s.tabulator f facet primary m).run c = (.ok t, c'))
    (htables : quadratureTerm s f d m (facet, none) = .ok tables) (v : Symbol → K)
    {entries : List (List Nat × GeometryMonomial K)} (hentries : t.geometry.entries = .ok entries)
    (hi : i ∈ primary.tuples) : (entries.map fun x => t.reference.entry i x.1 * x.2.value v).sum =
      tables.entry v m.coefficient i := by
  rcases term_eq_ok hterm with ⟨factors, degree, rule, tabs, reference, harrange,
    hdegree, hrule, htabs, hreference, rfl⟩
  rcases quadratureTerm_eq_ok htables with ⟨factors', degree', rule', minus, harrange', hdegree',
    hrule', hminus, hweights, hexpanded⟩
  rw [harrange] at harrange'
  cases harrange'
  rw [hdegree] at hdegree'
  cases hdegree'
  rw [hrule] at hrule'
  cases hrule'
  have hminus : minus = none := (pure_eq_ok.1 hminus).symm
  subst hminus
  rw [htabulator] at htabs hexpanded
  rw [hepsilon] at hexpanded
  have hdim := Form.tdim_eq hdims
  rcases ReferenceTensor.entry_ofFn hreference with ⟨_, _, hentry⟩
  have hfst : tabs.map Prod.fst = factors := by
    rw [← forall₂_eq_eq_eq, forall₂_map_left_iff]
    exact htabs.flip.imp fun x factor hx => hx.1
  have horders : factors.map Factor.order = tabs.map fun x => x.1.order := by
    rw [← hfst, map_map]
    rfl
  have hderivatives : factors.flatMap Factor.derivatives = tabs.flatMap fun x => x.1.derivatives := by
    rw [← hfst, flatMap_map]
  have htuples : (drawn c f.cell.dimension factors).tuples =
      axes d.tdim (tabs.map fun x => x.1.order).sum := by
    rw [MultiIndex.tuples, dims_drawn, ← total_order, horders, hdim]
    rfl
  rw [htuples, hdim] at hentry
  -- Every entry of the reference tensor is a sum over the points.
  have hvalue : ∀ a ∈ axes d.tdim (tabs.map fun x => x.1.order).sum, reference.entry i a *
      (m.coefficient * v .scale * chainFactor none v (factors.flatMap Factor.derivatives) a) =
      m.coefficient * v .scale * (rule.weights.zipIdx.map fun w => w.1 *
        ((zipWith (factorValue d.tdim w.2 i) tabs
          (pieces (tabs.map fun x => x.1.order) a)).prod *
          chainFactor none v (tabs.flatMap fun x => x.1.derivatives) a)).sum := by
    intro a ha
    rw [(integral_eq_ok (hentry i hi a ha)).1, hderivatives, mul_left_comm, ← sum_map_mul_right]
    simp only [mul_assoc]
  -- The sum over secondary tuples moves inside of the sum over points, where the distributive
  -- law turns it into a product over the factors.
  rw [sum_eq_of_forall₂ (entries_eq_ok hentries v).flip
    (g := fun a => reference.entry i a * (m.coefficient * v .scale *
      chainFactor none v (factors.flatMap Factor.derivatives) a))
    (fun x _ a h => by rw [h.1, h.2]), horders, hdim, map_congr_left hvalue,
    sum_map_mul_left, sum_comm, TermTables.entry, hweights]
  congr 1
  refine congrArg List.sum (map_congr_left fun w hw => ?_)
  rw [sum_map_mul_left, sum_chains]
  congr 2
  -- There is a secondary tuple, so the tables are read at every point.
  have hzero : replicate (tabs.map fun x => x.1.order).sum 0 ∈
      axes d.tdim (tabs.map fun x => x.1.order).sum :=
    mem_axes_iff.2 ⟨length_replicate, fun axis haxis =>
      eq_of_mem_replicate haxis ▸ d.tdim_pos⟩
  refine totals_eq_chains hdims hkind hnodal harrange (fun factor hfactor => ?_) htabs hexpanded v
    ((integral_eq_ok (hentry i hi _ hzero)).2 w hw)
  rw [← hdim]
  exact order_lt_of_ofFn hreference (hdim ▸ d.tdim_pos) hfactor

namespace ElementTensor

/-- Entries of a reference tensor are added unless they are zero, if none of them is tiny. -/
theorem foldl_added (reference : List Nat → K) (entries : List (List Nat × K)) (start : K)
    (h : ∀ x ∈ entries, ¬ (0 < |reference x.1| ∧ |reference x.1| ≤ Scalar.tiny)) :
    entries.foldl (fun acc x => if isAdded (reference x.1) then acc + reference x.1 * x.2 else acc)
      start = start + (entries.map fun x => reference x.1 * x.2).sum := by
  rw [← Scalar.foldl_add_eq_sum]
  refine foldl_ext _ _ _ fun acc x hx => ?_
  by_cases hadded : isAdded (reference x.1) = true
  · rw [if_pos hadded]
  · have hzero : reference x.1 = 0 := by
      rw [isAdded, Scalar.lt_eq_true, Scalar.abs_eq_abs, not_lt] at hadded
      by_contra hne
      exact h x hx ⟨abs_pos.2 hne, hadded⟩
    rw [if_neg hadded, hzero, zero_mul, add_zero]

/-- No entry of a reference tensor counts as zero without being zero. -/
def NoneTiny (terms : List (TensorTerm K)) : Prop :=
  ∀ t ∈ terms, ∀ i ∈ t.reference.i.tuples, ∀ a ∈ t.reference.a.tuples,
    ¬ (0 < |t.reference.entry i a| ∧ |t.reference.entry i a| ≤ Scalar.tiny)

instance (terms : List (TensorTerm K)) : Decidable (NoneTiny terms) :=
  inferInstanceAs (Decidable (∀ t ∈ terms, ∀ i ∈ t.reference.i.tuples,
    ∀ a ∈ t.reference.a.tuples,
      ¬ (0 < |t.reference.entry i a| ∧ |t.reference.entry i a| ≤ Scalar.tiny)))

theorem evaluate_eq_sum {tensor : ElementTensor K} {i : MultiIndex}
    {lists : List (List (List Nat × GeometryMonomial K))} (hprimary : primary tensor.terms = some i)
    (hentries : Forall₂ (fun t entries => t.geometry.entries = .ok entries) tensor.terms lists)
    (hgap : ∀ t ∈ tensor.terms, ∀ it ∈ i.tuples, ∀ a ∈ t.geometry.a.tuples,
      ¬ (0 < |t.reference.entry it a| ∧ |t.reference.entry it a| ≤ Scalar.tiny)) (v : Symbol → K) :
    tensor.evaluate v = .ok (i.tuples.map fun it => ((tensor.terms.zip lists).map fun x =>
      (x.2.map fun y => x.1.reference.entry it y.1 * y.2.value v).sum).sum) := by
  unfold evaluate
  rw [hprimary]
  simp only
  -- The geometry is evaluated once for all entries.
  have hvalues : tensor.terms.mapM (fun term => do
      return (term.reference, (← term.geometry.entries).map fun x => (x.1, x.2.value v))) =
        (.ok ((tensor.terms.zip lists).map fun x =>
          (x.1.reference, x.2.map fun y => (y.1, y.2.value v))) : Checked _) := by
    rw [mapM_eq_ok, forall₂_map_right_iff]
    refine (Success.forall₂_zip hentries).imp fun t x hx => ?_
    rw [hx.1, bind_eq_ok]
    exact ⟨x.2, hx.2, rfl⟩
  refine bind_eq_ok.2 ⟨_, hvalues, ?_⟩
  rw [pure_eq_ok]
  refine map_congr_left fun it hit => ?_
  rw [foldl_map, ← zero_add (List.sum _), ← Scalar.foldl_add_eq_sum]
  refine foldl_ext _ _ _ fun acc x hx => ?_
  have hx' := (forall₂_iff_zip.1 hentries).2 hx
  rw [GeometryTensor.entries, mapM_eq_ok] at hx'
  rw [foldl_added (x.1.reference.entry it), map_map]
  · rfl
  -- The entries of the geometry are listed by the secondary tuples.
  · intro y hy
    rcases mem_map.1 hy with ⟨z, hz, rfl⟩
    refine hgap x.1 (of_mem_zip hx).1 it hit z.1 ?_
    rcases forall₂_mem hx'.flip hz with ⟨a, ha, hz⟩
    rcases bind_eq_ok.1 hz with ⟨g, _, hz⟩
    cases hz
    exact ha

end ElementTensor

/-- The tensor and the quadrature representation compute the same element tensor. For nodal
    arguments on cells and exterior facets the entries of the contracted terms are the sums over
    the monomials of what their tables contribute, provided that no entry of a reference tensor
    is left out although it is not zero. Without monomials there are no entries. -/
theorem evaluate_eq_quadrature {s : Setting K} {f : Form K} {d : Dimensions}
    {ms : List (Monomial K)} {facet : Option Nat} {primary : MultiIndex} {c c' : Allocator}
    {terms : List (TensorTerm K)} {kind : Integral} {domain : Nat} {style : Style K}
    {tensor : ElementTensor K} {tables : List (TermTables K)}
    (htabulator : s.tabulator = Tabulator.lagrange) (hepsilon : s.options.epsilon = 0)
    (hnodal : ∀ e ∈ f.arguments, e.IsNodal) (hdims : f.dims = .ok d)
    (hkinds : ∀ m ∈ ms, m.integral ≠ .interiorFacet)
    (hterms : (tensorTerms s.gauss s.tabulator f ms facet primary).run c = (.ok terms, c'))
    (htensor : ElementTensor.of terms kind domain style = .ok tensor)
    (htables : ms.mapM (fun m => quadratureTerm s f d m (facet, none)) = .ok tables)
    (hgap : ElementTensor.NoneTiny terms) (v : Symbol → K) :
    tensor.evaluate v = .ok ((if ms.isEmpty then [] else primary.tuples).map fun i =>
      ((ms.zip tables).map fun x => x.2.entry v x.1.coefficient i).sum) := by
  rcases ElementTensor.of_eq_ok htensor with ⟨rfl, hentries⟩
  have hrun := Drawing.run_mapM_eq_ok hterms
  rw [mapM_eq_ok] at htables
  -- All terms range over the given tuples and over what they have drawn.
  have hranges : ∀ t ∈ tensor.terms, t.reference.i = primary ∧ t.reference.a = t.geometry.a := by
    refine forall₂_left hrun.flip fun t m ht => ?_
    rcases ht with ⟨c₁, c₂, ht⟩
    rcases TensorTerms.term_eq_ok ht with ⟨_, _, _, _, _, _, _, _, _, hreference, rfl⟩
    rcases ReferenceTensor.entry_ofFn hreference with ⟨hi, ha, _⟩
    exact ⟨hi, ha⟩
  rcases mapM_exists tensor.terms (fun t => t.geometry.entries) hentries with ⟨lists, hlists⟩
  rw [mapM_eq_ok] at hlists
  cases hhead : tensor.terms with
  | nil =>
    rw [hhead, List.forall₂_nil_right_iff] at hrun
    unfold ElementTensor.evaluate
    rw [hhead, hrun]
    rfl
  | cons first others =>
    have hprimary : ElementTensor.primary tensor.terms = some primary := by
      unfold ElementTensor.primary
      rw [hhead, List.head?_cons, Option.map_some]
      exact congrArg some (hranges first (hhead ▸ List.mem_cons_self)).1
    -- There are as many terms as monomials.
    have hnonempty : ms.isEmpty = false := by
      cases ms with
      | nil => exact absurd hrun (by simp [hhead])
      | cons m ms => rfl
    rw [ElementTensor.evaluate_eq_sum hprimary hlists ?_ v, hnonempty, if_neg Bool.false_ne_true]
    · refine congrArg Except.ok (List.map_congr_left fun i hi => ?_)
      -- Each term was drawn from some allocator; from which one does not matter for its value.
      have hdrawn : List.Forall₂ (fun m z =>
          (∃ c₁ c₂, (TensorTerms.term s.gauss s.tabulator f facet primary m).run c₁ =
            (.ok z.1, c₂)) ∧ z.1.geometry.entries = .ok z.2) ms (tensor.terms.zip lists) :=
        forall₂_join hrun.flip (forall₂_zip hlists)
          (by rintro t _ m _ z ht ⟨rfl, hz⟩; exact ⟨ht, hz⟩)
      have hsums : List.Forall₂ (fun x z =>
          (z.2.map fun y => z.1.reference.entry i y.1 * y.2.value v).sum =
            x.2.entry v x.1.coefficient i) (ms.zip tables) (tensor.terms.zip lists) := by
        refine forall₂_join (forall₂_zip htables) hdrawn ?_
        rintro m hm x _ z ⟨rfl, hx⟩ ⟨⟨c₁, c₂, hterm⟩, hz⟩
        exact term_sum htabulator hepsilon hnodal hdims (hkinds x.1 hm) hterm hx v hz hi
      exact sum_eq_of_forall₂ hsums.flip fun z _ x hz => hz
    · intro t ht i hi a ha
      rcases hranges t ht with ⟨hi', ha'⟩
      exact hgap t ht i (hi' ▸ hi) a (ha' ▸ ha)

end

/-- The flux of a vector field through the boundary, tested with a scalar function. -/
def boundaryFlux : Form ℚ :=
  ⟨"flux", .triangle, 2,
    [⟨.vectorLagrange, .triangle, 1, [2], [2], .affine,
        Element.affineDofs 3 0 ++ Element.affineDofs 3 1⟩,
      ⟨.lagrange, .triangle, 1, [], [], .affine, Element.affineDofs 3 0⟩],
    [⟨.exteriorFacet, 0, 2, none, [⟨1, 0, [], none⟩, ⟨0, 1, [1], none⟩]⟩]⟩

/-- Contraction with the midpoint rule. -/
def midpointSetting : Setting ℚ :=
  ⟨⟨2, 0, true, none, .tensor⟩, fun _ => "1.0", fun _ => [(1 / 2, 1)], Tabulator.lagrange⟩

/-- The contracted terms of the flux on the second facet. -/
def fluxTerms : Except Failure (List (TensorTerm ℚ)) × Allocator :=
  (tensorTerms midpointSetting.gauss midpointSetting.tabulator boundaryFlux boundaryFlux.monomials
    (some 1) (MultiIndex.primary {} boundaryFlux.argumentDims).1).run {}

/-- A mixed monomial on a facet, with a derivative of one component of a vector. -/
theorem evaluate_eq_quadrature_flux : ∃ terms c' tensor tables,
    fluxTerms = (.ok terms, c') ∧
    ElementTensor.of terms .exteriorFacet 0 (Cpp.style midpointSetting.number) = .ok tensor ∧
    boundaryFlux.monomials.mapM (fun m => quadratureTerm midpointSetting boundaryFlux
      shearedTriangle.dims m (some 1, none)) = .ok tables ∧
    tensor.evaluate shearedTriangle.symbolValue = .ok ((Tuple.all [6, 3]).map fun i =>
      ((boundaryFlux.monomials.zip tables).map fun x =>
        x.2.entry shearedTriangle.symbolValue x.1.coefficient i).sum) := by
  have hnodal : ∀ e ∈ boundaryFlux.arguments, e.IsNodal := by
    intro e he
    rcases List.mem_cons.1 he with rfl | he
    · exact ⟨.triangle, 1, Or.inr (Or.inr ⟨2, by decide +kernel⟩)⟩
    · rw [List.mem_singleton.1 he]
      exact ⟨.triangle, 1, Or.inl (by decide +kernel)⟩
  have hchecked : (match fluxTerms.1 with
      | .ok terms => decide (ElementTensor.NoneTiny terms) &&
          (ElementTensor.of terms .exteriorFacet 0 (Cpp.style midpointSetting.number)).isOk
      | .error _ => false) = true := by decide +kernel
  cases hterms : fluxTerms with
  | mk result c' =>
    rw [hterms] at hchecked
    cases result with
    | error e => exact absurd hchecked Bool.false_ne_true
    | ok terms =>
      rw [Bool.and_eq_true, decide_eq_true_iff] at hchecked
      rcases exists_of_isOk hchecked.2 with ⟨tensor, htensor⟩
      rcases exists_of_isOk (x := boundaryFlux.monomials.mapM fun m =>
        quadratureTerm midpointSetting boundaryFlux shearedTriangle.dims m (some 1, none))
        (by decide +kernel) with ⟨tables, htables⟩
      exact ⟨terms, c', tensor, tables, rfl, htensor, htables,
        evaluate_eq_quadrature rfl rfl hnodal rfl (by decide) hterms htensor htables hchecked.1 _⟩

end WeakForm
