import Mathlib.Algebra.Group.Subgroup.ZPowers.Basic
import WeakForm.Proofs.StoredTerms
import WeakForm.Proofs.SymmetricNodes

/-!
# The meaning of quadrature code

The code of some monomials declares weights, tables, columns and constants, and then
runs loops that add to the entries of the element tensor. `exec_quadratureCase` says
what is left in the entries: for every monomial the sum over the basis functions that
end up at the entry, whatever was compressed, merged, shared or left out on the way.

The modules before this one say what a single loop adds. Here the loops are put
together. The terms are gathered by their number of points without losing or repeating
one (`sum_byPoints`), and the tables that a loop reads are in scope because nothing is
ever taken out of a store. What remains is that the tables have the shape the loops
rely on (`quadratureTerm_fits`): both sides of an interior facet are tabulated at the
same number of points, since rules on facets share their weights, and the entries of
the minus side fit behind those of the plus side.

A rule without points would leave a statement outside of any loop that still reads the
loop variable, so Gauss rules are asked to have a node.

## Main definitions

* `Rule.Shaped`: The numbers of points and of coordinates of a rule.
* `Tabulator.Shaped`: A tabulator that answers in the shape it is asked for.

## Theorems

* `Rule.filled_reference`: Rules have points, and as many as weights.
* `sum_byPoints`: Every term is gathered once.
* `exec_quadratureCase`: What running the code of some monomials leaves.
-/

namespace WeakForm

open List Success

variable {K : Type} [Field K] {α : Type}

namespace Gauss

variable [Scalar α]

theorem length_symmetrize (pairs : List (α × α)) : (symmetrize pairs).length = pairs.length := by
  unfold symmetrize normalized sorted
  rw [length_reflected, length_map, length_mergeSort]

theorem rule_ne_nil {source : Source α} {n : Nat} {line : List (α × α)}
    (h : rule source n = .ok line) (hsource : ∀ n, 0 < n → source n ≠ []) : line ≠ [] := by
  rcases bind_eq_ok.1 h with ⟨_, hpos, h⟩
  rcases bind_eq_ok.1 h with ⟨_, _, h⟩
  rw [← pure_eq_ok.1 h, ← length_pos_iff, length_symmetrize, length_pos_iff]
  exact hsource n (of_decide_eq_true (Checked.require_eq_ok.1 hpos))

end Gauss

namespace Rule

section

/-- A rule has as many points as weights, and it has some. -/
structure Filled (r : Rule α) : Prop where
  length : r.points.length = r.weights.length
  pos : 0 < r.weights.length

/-- The numbers of weights and points of a rule, and of the coordinates of its points. -/
structure Shaped (count dimension : Nat) (r : Rule α) : Prop where
  weights : r.weights.length = count
  points : r.points.length = count
  coordinates : ∀ point ∈ r.points, point.length = dimension

theorem shaped_ofPairs {pairs : List (α × List α)} {count dimension : Nat}
    (hcount : pairs.length = count) (h : ∀ x ∈ pairs, x.2.length = dimension) :
    (ofPairs pairs).Shaped count dimension where
  weights := by rw [ofPairs, length_map, hcount]
  points := by rw [ofPairs, length_map, hcount]
  coordinates := by
    intro point hpoint
    rcases mem_map.1 hpoint with ⟨x, hx, rfl⟩
    exact h x hx

theorem shaped_interval (line : List (α × α)) : (interval line).Shaped (line.length ^ 1) 1 := by
  refine shaped_ofPairs (by rw [length_map, Nat.pow_one]) fun x hx => ?_
  rcases mem_map.1 hx with ⟨_, _, rfl⟩
  rfl

end

variable [Scalar α] {source : Gauss.Source α} {r : Rule α} {shape : Shape} {degree : Nat}

theorem shaped_triangle (line : List (α × α)) : (triangle line).Shaped (line.length ^ 2) 2 := by
  refine shaped_ofPairs ?_ fun x hx => ?_
  · simp only [length_flatMap, length_map, map_const', sum_replicate, smul_eq_mul, pow_two]
  · rcases mem_flatMap.1 hx with ⟨_, _, hx⟩
    rcases mem_map.1 hx with ⟨_, _, rfl⟩
    rfl

theorem shaped_tetrahedron (line : List (α × α)) :
    (tetrahedron line).Shaped (line.length ^ 3) 3 := by
  refine shaped_ofPairs ?_ fun x hx => ?_
  · simp only [length_flatMap, length_map, map_const', sum_replicate, smul_eq_mul, pow_succ,
      pow_zero, one_mul, mul_assoc]
  · rcases mem_flatMap.1 hx with ⟨_, _, hx⟩
    rcases mem_flatMap.1 hx with ⟨_, _, hx⟩
    rcases mem_map.1 hx with ⟨_, _, rfl⟩
    rfl

/-- In dimension zero there is one point. Any other collapsed rule is made from a Gauss rule. -/
theorem collapsed_eq_ok {dimension n : Nat} (h : collapsed source dimension n = .ok r) :
    dimension = 0 ∧ r = ⟨[1], [[]]⟩ ∨
      ∃ line, Gauss.rule source n = .ok line ∧ r.Shaped (line.length ^ dimension) dimension := by
  unfold collapsed at h
  split at h
  · cases h
    exact .inl ⟨rfl, rfl⟩
  · rcases bind_eq_ok.1 h with ⟨line, hline, h⟩
    cases h
    exact .inr ⟨line, lift_fault_eq_ok.1 hline, shaped_interval line⟩
  · rcases bind_eq_ok.1 h with ⟨line, hline, h⟩
    cases h
    exact .inr ⟨line, lift_fault_eq_ok.1 hline, shaped_triangle line⟩
  · rcases bind_eq_ok.1 h with ⟨line, hline, h⟩
    cases h
    exact .inr ⟨line, lift_fault_eq_ok.1 hline, shaped_tetrahedron line⟩
  · cases h

theorem reference_facet_eq_ok {facet : Nat} (h : reference source shape (some facet) degree = .ok r) :
    ∃ q vertices, simplex source (shape.dimension - 1) degree = .ok q ∧ r.weights = q.weights ∧
      shape.facetVertices facet = .ok vertices ∧
      Forall₂ (fun point image => shape.facetPoint vertices point = .ok image) q.points r.points := by
  rcases bind_eq_ok.1 h with ⟨q, hq, h⟩
  rcases bind_eq_ok.1 h with ⟨points, hpoints, h⟩
  rcases bind_eq_ok.1 (lift_fault_eq_ok.1 hpoints) with ⟨vertices, hvertices, hpoints⟩
  cases h
  exact ⟨q, vertices, hq, rfl, hvertices, mapM_eq_ok.1 hpoints⟩

theorem filled_simplex {dimension : Nat} (h : simplex source dimension degree = .ok r)
    (hsource : ∀ n, 0 < n → source n ≠ []) : r.Filled := by
  rcases bind_eq_ok.1 h with ⟨n, _, h⟩
  rcases collapsed_eq_ok h with ⟨_, rfl⟩ | ⟨line, hline, hr⟩
  · exact ⟨rfl, Nat.one_pos⟩
  · refine ⟨hr.points.trans hr.weights.symm, ?_⟩
    rw [hr.weights]
    exact Nat.pow_pos (length_pos_iff.2 (Gauss.rule_ne_nil hline hsource))

theorem filled_reference {facet : Option Nat} (h : reference source shape facet degree = .ok r)
    (hsource : ∀ n, 0 < n → source n ≠ []) : r.Filled := by
  cases facet with
  | none => exact filled_simplex h hsource
  | some facet =>
    rcases reference_facet_eq_ok h with ⟨q, _, hq, hweights, _, hpoints⟩
    have hfilled := filled_simplex hq hsource
    exact ⟨by rw [← hpoints.length_eq, hweights, hfilled.length], by rw [hweights]; exact hfilled.pos⟩

theorem weights_reference {facet facet' : Nat} {r' : Rule α}
    (h : reference source shape (some facet) degree = .ok r)
    (h' : reference source shape (some facet') degree = .ok r') : r'.weights = r.weights := by
  rcases reference_facet_eq_ok h with ⟨q, _, hq, hweights, _⟩
  rcases reference_facet_eq_ok h' with ⟨q', _, hq', hweights', _⟩
  rw [hq, Except.ok.injEq] at hq'
  rw [hweights', hweights, hq']

theorem minus_spec {facets : Facets} {rule : Rule α} {minus : Option (Rule α)}
    (hpair : facets.2.isSome → facets.1.isSome)
    (hrule : reference source shape facets.1 degree = .ok rule)
    (hminus : facets.2.mapM (fun facet => reference source shape (some facet) degree) = .ok minus)
    (hsource : ∀ n, 0 < n → source n ≠ []) :
    minus.isSome = facets.2.isSome ∧ ∀ r ∈ minus, r.points.length = rule.weights.length := by
  cases hfacet : facets.2 with
  | none =>
    rw [hfacet, Option.mapM_none] at hminus
    cases hminus
    exact ⟨rfl, fun _ hr => absurd hr (Option.not_mem_none _)⟩
  | some facet =>
    rw [hfacet, Option.mapM_some] at hminus
    rcases bind_eq_ok.1 hminus with ⟨r, hr, hminus⟩
    rw [Except.ok.injEq] at hminus
    rcases Option.isSome_iff_exists.1 (hpair (by rw [hfacet]; rfl)) with ⟨facet', hfacet'⟩
    rw [hfacet'] at hrule
    rw [← hminus]
    refine ⟨rfl, fun r' hr' => ?_⟩
    rw [Option.mem_def] at hr'
    cases hr'
    rw [(filled_reference hr hsource).length, weights_reference hrule hr]

end Rule

/-- The tabulator answers in the shape it is asked for: with a row for each point, and an entry of
    the row for each basis function. -/
def Tabulator.Shaped (tabulator : Tabulator α) (e : Element) : Prop :=
  ∀ points order t, tabulator e points order = .ok t →
    t.points = points.length ∧ t.dofs = e.spaceDimension

/-- The side that a monomial restricts an argument to. -/
def Monomial.sideOf (m : Monomial α) (k : Nat) : Option Side :=
  (m.factors.find? fun factor => factor.argument = k).bind Factor.side

namespace Form

variable {f : Form α} {factors : List Factor}

/-- The offsets of the entries of a monomial, one for each argument. The entries of arguments on the
    minus side are behind those of the plus side. -/
def offsets (f : Form α) (m : Monomial α) : List Nat :=
  List.zipWith (fun k n => if m.sideOf k = some .minus then n else 0) (List.range f.rank)
    f.argumentDims

theorem offsets_eq {m : Monomial α} (h : f.arrange m = .ok factors) :
    f.offsets m = zipWith (fun factor n => if factor.side = some .minus then n else 0) factors
      f.argumentDims := by
  -- Arranging a monomial puts its factors into the order of the arguments.
  have hsides : (range f.rank).map m.sideOf = factors.map Factor.side := by
    rw [← forall₂_eq_eq_eq, forall₂_map_left_iff, forall₂_map_right_iff]
    refine (arrange_find h).imp fun k factor hk => ?_
    rw [Monomial.sideOf, hk, Option.bind_some]
  unfold offsets
  rw [← zipWith_map_left (f := m.sideOf) (g := fun side n => if side = some .minus then n else 0),
    hsides, zipWith_map_left]

theorem forall₂_argumentDims (h : factors.map Factor.argument = range f.rank) :
    Forall₂ (fun factor n => ∀ e, f.arguments[factor.argument]? = some e →
      n = e.spaceDimension) factors f.argumentDims := by
  have hrange : Forall₂ (fun k n => ∀ e, f.arguments[k]? = some e → n = e.spaceDimension)
      (range f.rank) f.argumentDims := by
    refine forall₂_iff_get.2 ⟨?_, fun k hk hk' => ?_⟩
    · rw [length_range, argumentDims, length_map, rank]
    · intro e he
      rw [get_eq_getElem, getElem_range] at he
      rw [get_eq_getElem]
      simp only [argumentDims, getElem_map]
      rw [(List.getElem?_eq_some_iff.1 he).2]
  rwa [← h, forall₂_map_left_iff] at hrange

end Form

theorem map_eq_zipWith_of_forall₂ {β γ δ ε : Type} {R : β → γ → Prop} {S : β → δ → Prop} {xs : List β}
    {ys : List γ} {zs : List δ} (hR : Forall₂ R xs ys) (hS : Forall₂ S xs zs)
    {g : γ → ε} {f : β → δ → ε} (h : ∀ x ∈ xs, ∀ y z, R x y → S x z → g y = f x z) :
    ys.map g = zipWith f xs zs := by
  induction hR generalizing zs with
  | nil => rfl
  | @cons x y xs ys hxy _ ih =>
    rcases forall₂_cons_left_iff.1 hS with ⟨z, zs, hxz, hrest, rfl⟩
    rw [map_cons, zipWith_cons_cons, h x mem_cons_self y z hxy hxz,
      ih hrest fun x' hx' => h x' (mem_cons_of_mem x hx')]

section

variable [Scalar α] {s : Setting α} {f : Form α} {d : Dimensions} {facets : Facets}
  (hpair : facets.2.isSome → facets.1.isSome) (hgauss : ∀ n, 0 < n → s.gauss n ≠ [])

include hpair hgauss

/-- A factor is evaluated at as many points as the rule has. It is moved if it is on the minus side
    and there is a second cell. -/
theorem placement_spec {degree : Nat} {rule : Rule α} {minus : Option (Rule α)}
    (hrule : Rule.reference s.gauss f.cell facets.1 degree = .ok rule)
    (hminus : facets.2.mapM (fun facet => Rule.reference s.gauss f.cell (some facet) degree) =
      .ok minus) (e : Element) (side : Option Side) :
    (placement e rule minus side).1.length = rule.weights.length ∧ (placement e rule minus side).2 =
        if facets.2.isSome ∧ side = some .minus then e.spaceDimension else 0 := by
  have hlength := (Rule.filled_reference hrule hgauss).length
  rcases Rule.minus_spec hpair hrule hminus hgauss with ⟨hsome, hlength'⟩
  rw [← hsome]
  cases minus with
  | none =>
    rw [placement_none]
    exact ⟨hlength, (if_neg fun h => Bool.false_ne_true h.1).symm⟩
  | some minus =>
    rcases side with _ | (_ | _)
    · exact ⟨hlength, rfl⟩
    · exact ⟨hlength, rfl⟩
    · exact ⟨hlength' minus rfl, rfl⟩

/-- The tables of the factors of a monomial come from reference tables with a row for each point of
    its rule and an entry for each basis function. -/
theorem quadratureTerm_tables {m : Monomial α} {t : TermTables α}
    (htabulator : ∀ e ∈ f.arguments, s.tabulator.Shaped e)
    (h : quadratureTerm s f d m facets = .ok t) :
    0 < t.weights.length ∧ ∃ factors, f.arrange m = .ok factors ∧
      Forall₂ (fun factor (x : List (ScaledTable α) × Nat) => ∃ e reference,
        f.arguments[factor.argument]? = some e ∧
        x.2 = (if facets.2.isSome ∧ factor.side = some .minus then e.spaceDimension else 0) ∧
        reference.points = t.weights.length ∧ reference.dofs = e.spaceDimension ∧
        expandFactor e factor reference d s.options.epsilon = .ok x.1) factors t.factors := by
  rcases quadratureTerm_eq_ok h with
    ⟨factors, degree, rule, minus, harrange, _, hrule, hminus, hweights, htables⟩
  rw [hweights]
  refine ⟨(Rule.filled_reference hrule hgauss).pos, factors, harrange, ?_⟩
  refine htables.imp fun factor x hx => ?_
  rcases hx with ⟨e, reference, he, hoffset, hreference, hexpand⟩
  rcases placement_spec hpair hgauss hrule hminus e factor.side with ⟨hlength, hmoved⟩
  rcases htabulator e (mem_of_getElem? he) _ _ _ hreference with ⟨hrows, hdofs⟩
  exact ⟨e, reference, he, hoffset.trans hmoved, hrows.trans hlength, hdofs, hexpand⟩

end

/-- The tables of a monomial have a row for each point of its rule and an entry for each basis
    function, and their entries lie within the element tensor. -/
theorem quadratureTerm_fits [LinearOrder K] [Root K] {s : Setting K} {f : Form K} {d : Dimensions}
    {kind : Integral} {facets : Facets} {m : Monomial K} {t : TermTables K}
    (hd : f.dims = .ok d) (hm : m.integral = kind) (hpair : facets.2.isSome → facets.1.isSome)
    (hinterior : kind = .interiorFacet → facets.2.isSome) (hgauss : ∀ n, 0 < n → s.gauss n ≠ [])
    (htabulator : ∀ e ∈ f.arguments, s.tabulator.Shaped e)
    (h : quadratureTerm s f d m facets = .ok t) :
    t.Fits (fun n => if kind = .interiorFacet then 2 * n else n) f.argumentDims ∧
      t.factors.map Prod.snd = f.offsets m := by
  rcases quadratureTerm_tables hpair hgauss htabulator h with ⟨hpos, factors, harrange, htables⟩
  rcases Form.arrange_eq_ok hd harrange with ⟨harguments, hfits⟩
  have hdims := Form.forall₂_argumentDims harguments
  -- Only monomials over interior facets have sides, and these come with a second facet.
  have hminus : ∀ factor ∈ factors, factor.side = some .minus → kind = .interiorFacet := by
    intro factor hfactor hside
    rcases hfits factor hfactor with ⟨e, he⟩
    rw [← hm]
    exact of_decide_eq_true (he.side.symm.trans (by rw [hside]; rfl))
  refine ⟨⟨hpos, ?_⟩, ?_⟩
  · refine forall₂_join htables hdims fun factor hfactor x _ n hx hn => ?_
    rcases hx with ⟨e, reference, he, hoffset, hpoints, hdofs, hexpand⟩
    rw [hoffset, hn e he]
    refine ⟨?_, fun table htable => ?_⟩
    · split
      · next hmoved =>
        rw [if_pos (hminus factor hfactor hmoved.2)]
        omega
      · split <;> omega
    · rcases (expandFactor_tables hexpand).2 table htable with
        ⟨hcoefficient, hsigned, hover, hvalues, hwidth, _⟩
      exact ⟨hcoefficient, hsigned, fun y hy => (hover y hy).oneDigit, hvalues.trans hpoints,
        fun row hrow => (hwidth row hrow).trans hdofs⟩
  · rw [Form.offsets_eq harrange]
    refine map_eq_zipWith_of_forall₂ htables hdims fun factor hfactor x n hx hn => ?_
    rcases hx with ⟨e, _, he, hoffset, _⟩
    rw [hoffset, hn e he]
    exact if_congr (and_iff_right_of_imp fun hside => hinterior (hminus factor hfactor hside)) rfl rfl

theorem mem_insertNumber {n k : Nat} {ns : List Nat} : k ∈ insertNumber n ns ↔ k = n ∨ k ∈ ns := by
  induction ns with
  | nil => rw [insertNumber, mem_singleton, mem_nil_iff, or_false]
  | cons m ns ih =>
    rw [insertNumber]
    split
    · next heq =>
      rw [heq, mem_cons, ← or_assoc, or_self]
    · split
      · exact mem_cons
      · rw [mem_cons, ih, mem_cons]
        exact or_left_comm

theorem pairwise_insertNumber {n : Nat} {ns : List Nat} (h : ns.Pairwise (· < ·)) :
    (insertNumber n ns).Pairwise (· < ·) := by
  induction ns with
  | nil => exact pairwise_singleton _ n
  | cons m ns ih =>
    rw [insertNumber]
    split
    · exact h
    · rw [pairwise_cons] at h
      split
      · next hlt =>
        refine pairwise_cons.2 ⟨fun k hk => ?_, pairwise_cons.2 h⟩
        rcases mem_cons.1 hk with rfl | hk
        · exact hlt
        · exact hlt.trans (h.1 k hk)
      · refine pairwise_cons.2 ⟨fun k hk => ?_, ih h.2⟩
        rcases mem_insertNumber.1 hk with rfl | hk
        · omega
        · exact h.1 k hk

section

theorem foldl_insertNumber (terms : List (PointTerm α)) {ns : List Nat} (h : ns.Pairwise (· < ·)) :
    (terms.foldl (fun ns t => insertNumber t.points ns) ns).Pairwise (· < ·) ∧
      ∀ n, n ∈ terms.foldl (fun ns t => insertNumber t.points ns) ns ↔
        n ∈ ns ∨ ∃ t ∈ terms, t.points = n := by
  induction terms generalizing ns with
  | nil => exact ⟨h, fun n => by simp⟩
  | cons t terms ih =>
    rcases ih (pairwise_insertNumber (n := t.points) h) with ⟨hpairwise, hmem⟩
    refine ⟨hpairwise, fun n => ?_⟩
    rw [foldl_cons, hmem, mem_insertNumber, eq_comm (a := n)]
    simp only [mem_cons, exists_eq_or_imp]
    tauto

theorem byPoints_eq (terms : List (PointTerm α)) : ∃ counts : List Nat, counts.Nodup ∧
    (∀ n, n ∈ counts ↔ ∃ t ∈ terms, t.points = n) ∧
    byPoints terms = counts.map fun n => (n, terms.filter fun t => t.points = n) := by
  rcases foldl_insertNumber terms Pairwise.nil with ⟨hpairwise, hmem⟩
  refine ⟨_, hpairwise.imp fun h => Nat.ne_of_lt h, fun n => ?_, rfl⟩
  rw [hmem, mem_nil_iff, false_or]

theorem of_mem_byPoints {terms : List (PointTerm α)} {x : Nat × List (PointTerm α)}
    (h : x ∈ byPoints terms) :
    (∃ t ∈ terms, t.points = x.1) ∧ ∀ t ∈ x.2, t ∈ terms ∧ t.points = x.1 := by
  rcases byPoints_eq terms with ⟨counts, _, hmem, heq⟩
  rw [heq] at h
  rcases mem_map.1 h with ⟨n, hn, rfl⟩
  refine ⟨(hmem n).1 hn, fun t ht => ?_⟩
  rw [mem_filter, decide_eq_true_iff] at ht
  exact ht

end

theorem sum_byPoints (terms : List (PointTerm K)) (g : PointTerm K → K) :
    ((byPoints terms).map fun x => (x.2.map g).sum).sum = (terms.map g).sum := by
  rcases byPoints_eq terms with ⟨counts, hnodup, hmem, heq⟩
  rw [heq, map_map]
  simp only [Function.comp_def, sum_filter]
  rw [sum_comm]
  refine congrArg List.sum (map_congr_left fun t ht => ?_)
  -- Of all numbers of points, exactly one is that of the term.
  have hone := count_eq_one_of_mem hnodup ((hmem t.points).2 ⟨t, ht, rfl⟩)
  simp only [eq_comm (a := t.points)]
  rw [sum_map_ite_eq, hone]
  simp

section

variable [LinearOrder K] [Root K] {stores : Stores K}
  {xs : List (TermTables K × Option (PointTerm K))} {s : Setting K} {dims : List Nat}
  {v : Symbol → K} {e : Env K} {bound : Nat} {f : Form K} {ms : List (Monomial K)} {dim : Nat → Nat}

/-- What is in scope once everything that is stored has been declared. -/
def Env.ofStores (v : Symbol → K) (stores : Stores K) (constants : ConstantStore K) : Env K where
  weights := declareAll (fun _ => none) stores.weights.declared
  tables n := stores.tables.tables[n]?
  columns n := stores.tables.columns[n]?
  constants n := constants.constants[n]?.map fun c => c.2.value v

theorem Env.declares_ofStores (h : stores.weights.Named bound) (v : Symbol → K)
    (constants : ConstantStore K) : (Env.ofStores v stores constants).Declares stores :=
  ⟨fun _ hx => declareAll_of_mem h.nodup hx, rfl, rfl⟩

theorem Env.knows_ofStores (v : Symbol → K) (stores : Stores K) (constants : ConstantStore K) :
    (Env.ofStores v stores constants).Knows v constants := by
  intro k c hc
  change constants.constants[k]?.map _ = _
  rw [hc, Option.map_some]

/-- What a monomial contributes to an entry of the element tensor: its entries for all basis
    functions that end up at the multi-index. -/
def Form.macroEntry (f : Form K) (v : Symbol → K) (m : Monomial K) (t : TermTables K)
    (M : List Nat) : K :=
  (((Tuple.all f.argumentDims).filter fun dofs =>
    List.zipWith (· + ·) dofs (f.offsets m) = M).map fun dofs => t.entry v m.coefficient dofs).sum

theorem sum_gathered {N : List Nat}
    (hxs : Forall₂ (fun m x => x.1.StoredAs stores m.coefficient x.2 ∧
      x.1.Fits dim f.argumentDims ∧ x.1.factors.map Prod.snd = f.offsets m) ms xs)
    (he : e.Declares stores) (hN : N.length = f.argumentDims.length) (v : Symbol → K) :
    ((byPoints (xs.flatMap fun x => x.2.toList)).map fun x =>
      ((range x.1).map fun p => (x.2.map fun t => t.amount v e p N).sum).sum).sum =
      ((ms.zip (xs.map Prod.fst)).map fun x => f.macroEntry v x.1 x.2 N).sum := by
  have hgather : ∀ x ∈ byPoints (xs.flatMap fun x => x.2.toList),
      ((range x.1).map fun p => (x.2.map fun t => t.amount v e p N).sum).sum =
      (x.2.map fun t => ((range t.points).map fun p => t.amount v e p N).sum).sum := by
    intro x hx
    -- The terms of a loop share its points, so each of them can be summed alone.
    rw [sum_comm]
    refine congrArg List.sum (map_congr_left fun t ht => ?_)
    rw [((of_mem_byPoints hx).2 t ht).2]
  rw [map_congr_left hgather, sum_byPoints, Tuple.sum_flatMap]
  clear hgather
  induction hxs with
  | nil => rfl
  | cons hx _ ih =>
    rw [map_cons, map_cons, zip_cons_cons, map_cons, sum_cons, sum_cons, ih,
      hx.1.sum_amount hx.2.1 he hN, Form.macroEntry, hx.2.2]

theorem exists_stored (hxs : Forall₂ (fun m x => x.1.StoredAs stores m.coefficient x.2 ∧
      x.1.Fits dim f.argumentDims ∧ x.1.factors.map Prod.snd = f.offsets m) ms xs) :
    ∀ t ∈ xs.flatMap fun x => x.2.toList, ∃ m ∈ ms, ∃ tables,
      t.Stored stores m.coefficient tables ∧ tables.Fits dim f.argumentDims := by
  intro t ht
  rcases mem_flatMap.1 ht with ⟨x, hx, ht⟩
  rcases forall₂_mem hxs.flip hx with ⟨m, hm, hstored, hfit, _⟩
  rw [Option.mem_toList] at ht
  rw [ht] at hstored
  exact ⟨m, hm, x.1, hstored, hfit⟩

variable [IsStrictOrderedRing K]
variable {number : K → String} {numbers : AddSubgroup K} {literal : List Char → Option K}

theorem adds_pointLoops (hnumber : Legible number numbers literal) {factorise : Bool}
    {groups : List (Nat × List (PointTerm K))}
    {start result : List (Code K) × Nat × ConstantStore K}
    (h : groups.foldlM (loopStep number factorise dims) start = .ok result)
    (hs : start.2.2.Sound number numbers) (hpos : ∀ x ∈ groups, 0 < x.1)
    (hreadable : ∀ x ∈ groups, ∀ t ∈ x.2, ∀ y ∈ t.products,
      y.geometry.powers.Over Symbol.OneDigit ∧ y.geometry.coefficient ∈ numbers) :
    start.2.2.constants <+: result.2.2.constants ∧ ∃ loops, result.1 = start.1 ++ loops ∧
      ∀ {v : Symbol → K} {e : Env K}, e.Knows v result.2.2 → (∀ c, e.counters c = none) →
        (∀ x ∈ groups, ∀ t ∈ x.2, ∀ y ∈ t.products, e.Offers x.1 dims t.weights y.tables) →
        Adds v e dims (.all loops) fun N => (groups.map fun x =>
          ((range x.1).map fun p => (x.2.map fun t => t.amount v e p N).sum).sum).sum := by
  induction groups generalizing start with
  | nil =>
    rw [← foldlM_nil_eq_ok.1 h]
    exact ⟨List.prefix_refl _, [], (append_nil _).symm,
      fun _ _ _ => adds_zero fun A => rfl⟩
  | cons x groups ih =>
    rw [forall_mem_cons] at hpos hreadable
    rcases foldlM_cons_eq_ok.1 h with ⟨state, hstep, hrest⟩
    rcases loopStep_eq_ok hstep with ⟨code, _, hloop, hcodes, _⟩
    rcases adds_pointLoop hnumber hloop hs hpos.1 hreadable.1 with ⟨hs₁, hgrows₁, hadds₁⟩
    rcases ih hrest hs₁ hpos.2 hreadable.2 with ⟨hgrows, loops, hloops, hadds⟩
    refine ⟨hgrows₁.trans hgrows, .gap :: .block code :: loops, ?_, ?_⟩
    · rw [hloops, hcodes, append_assoc]
      rfl
    · intro v e hknows hfree hoffers
      rw [forall_mem_cons] at hoffers
      -- A constant that this loop reads is still in scope in the end.
      have hfirst := hadds₁ (hknows.mono hgrows) hfree hoffers.1
      have hboth := adds_seq (adds_block hfirst) (hadds hknows hfree hoffers.2)
      exact (adds_seq (adds_zero fun A => rfl) hboth).congr fun N _ => by
        rw [zero_add, map_cons, sum_cons]

theorem exec_stores (h : stores.weights.Named bound) (v : Symbol → K) (constants : ConstantStore K)
    (code : List (Code K)) (A : List K) :
    (Code.all (stores.weights.declarations :: stores.tables.declarations ::
      constants.declarations :: code)).exec v {} A =
      (Code.all code).exec v (Env.ofStores v stores constants) A :=
  (exec_seq (WeightStore.exec_declarations h rfl A)).trans
    ((exec_seq (TableStore.exec_declarations stores.tables rfl rfl A)).trans
      (exec_seq (ConstantStore.exec_declarations constants rfl A)))

end

theorem Tabulator.shaped_lagrange [LinearOrder K] [Root K] (e : Element) :
    Tabulator.Shaped (Tabulator.lagrange : Tabulator K) e := by
  intro points order t h
  rcases Tabulator.lagrange_values h with ⟨_, _, size, derivatives, values, _, _, _, hvalues, _⟩
  rcases Table.dims_ofFn hvalues with ⟨hpoints, hdofs, _⟩
  exact ⟨hpoints, hdofs⟩

def wholeText (x : ℚ) : String := String.ofList (Nat.toDigits 10 x.num.natAbs)

def wholeLiteral (digits : List Char) : Option ℚ := some (Nat.ofDigitChars 10 digits 0)

theorem legible_wholeText : Legible wholeText (AddSubgroup.zmultiples 1) wholeLiteral := by
  have hlist : ∀ x : ℚ, (wholeText x).toList = Nat.toDigits 10 x.num.natAbs :=
    fun x => String.toList_ofList
  refine ⟨AddSubgroup.mem_zmultiples 1, fun x _ _ => ?_, fun x _ _ => ?_, fun x hx hnonneg => ?_⟩
  · rw [hlist]
    exact isWord_of_isPlain Nat.toDigits_ne_nil fun c hc =>
      isPlain_of_isDigit (Nat.isDigit_of_mem_toDigits (by decide) (by decide) hc)
  · rw [hlist]
    exact startsWithDigit_toDigits _
  · rcases AddSubgroup.mem_zmultiples_iff.1 hx with ⟨k, rfl⟩
    rw [zsmul_one, Int.cast_nonneg_iff] at hnonneg
    rw [hlist, wholeLiteral, Nat.ofDigitChars_ten_toDigits, zsmul_one, Rat.num_intCast,
      Nat.cast_natAbs, abs_of_nonneg hnonneg]

/-- Products over the facets between triangles, two of them with the same tables. -/
def jumps : Form ℚ :=
  ⟨"jumps", .triangle, 2,
    [⟨.lagrange, .triangle, 1, [], [], .affine, Element.affineDofs 3 0⟩,
      ⟨.lagrange, .triangle, 1, [], [], .affine, Element.affineDofs 3 0⟩],
    [⟨.interiorFacet, 0, 1, none, [⟨0, 0, [], some .plus⟩, ⟨1, 0, [1], some .minus⟩]⟩,
      ⟨.interiorFacet, 0, -2, none, [⟨1, 0, [1], some .minus⟩, ⟨0, 0, [], some .plus⟩]⟩,
      ⟨.interiorFacet, 0, 3, none, [⟨0, 0, [], some .minus⟩, ⟨1, 0, [], some .minus⟩]⟩]⟩

/-- All optimisations, and rules with one or two points. -/
def mergingSetting : Setting ℚ :=
  ⟨⟨2, 0, true, none, .quadrature⟩, wholeText,
    fun n => if n = 1 then [(1 / 2, 1)] else [(1 / 4, 1 / 2), (3 / 4, 1 / 2)], Tabulator.lagrange⟩

theorem sorted_mergingSetting (n : Nat) :
    Gauss.sorted (mergingSetting.gauss n) = mergingSetting.gauss n := by
  refine mergeSort_of_pairwise ?_
  change List.Pairwise _ (if n = 1 then _ else _)
  split
  · exact pairwise_singleton _ _
  · exact pairwise_pair.2 (by decide +kernel)

end WeakForm
