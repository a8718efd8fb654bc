import WeakForm.Proofs.CaseSymbols
import WeakForm.Proofs.SoundTables

/-!
# Loops without faults

The code of an integral by quadrature is written without a fault if its sizes fit. The
sizes of a monomial are collected in `Form.Sized`. They are known before anything is
tabulated, since they depend on the elements, on the degree and on the derivatives
only.

Some numbers do not belong to them (`QuadratureSized`). The chains of derivatives of a
factor and the products of tables are listed at once. The operations of all loops are
counted in a word too, and their number may overflow where the sizes of all rules, tables
and tensors fit: it is the size of the element tensor times the number of points, the
number of factors, and the number of products. How many products there are depends on
which tables vanish. So `quadratureOperations` counts the operations of the very nests
that are written, in numbers of any size.

What keeps everything else within bounds is that a stored table has at most as many
columns as its argument has basis functions. The ranges of a nest of loops are then
bounded by the dimensions of the element tensor, and every product of some of them by
its extent.

## Theorems

* `storeTerms_sound`: The tables of monomials as they are stored.
* `quadratureCase_sound`: The code of monomials.
-/

namespace WeakForm

open List Success Ensures Size

variable {α : Type}

namespace Form

/-- The dimension of what an integral is taken over. -/
def regionDimension (f : Form α) (kind : Integral) : Nat :=
  if kind = .cell then f.cell.dimension else f.cell.dimension - 1

/-- The number of points that a monomial is integrated with, as a number of any size. -/
def pointCount (f : Form α) (m : Monomial α) : Nat :=
  Rule.axisPoints (f.degree m) (f.regionDimension m.integral) ^ f.regionDimension m.integral

/-- The number of basis functions of the argument of a factor. -/
def width (f : Form α) (factor : Factor) : Nat :=
  (f.arguments[factor.argument]?.map Element.spaceDimension).getD 0

/-- The sizes of a monomial fit. -/
@[mk_iff]
structure Sized (f : Form α) (m : Monomial α) : Prop where
  degree : f.degree m + 4 < Size.limit
  /-- A Gauss rule needs a square of its number of points. -/
  axisPoints : f.regionDimension m.integral ≠ 0 →
    Rule.axisPoints (f.degree m) (f.regionDimension m.integral) < Gauss.capacity
  points : f.pointCount m < Tuple.capacity
  /-- The exponents of geometry symbols are words of 32 bits. -/
  order : m.order < 2 ^ 31
  axes : ∀ factor ∈ m.factors, f.geometricDimension ^ factor.order < Tuple.capacity
  tables : ∀ factor ∈ m.factors, ∀ e ∈ f.arguments[factor.argument]?,
    f.pointCount m * e.spaceDimension * f.cell.dimension ^ factor.order *
      max e.referenceShape.prod 1 < Table.capacity
  tensor : Size.extent (macroDims f m.integral) < Size.limit

instance (f : Form α) (m : Monomial α) : Decidable (f.Sized m) :=
  decidable_of_iff' _ (sized_iff f m)

/-- A monomial has a problem: it does not fit its form, or an element cannot be tabulated. -/
def Flawed (f : Form α) (m : Monomial α) : Prop :=
  (∃ p, f.arrange m = .error (.problem p)) ∨ ∃ e ∈ f.arguments, Tabulator.isLagrange e = false

end Form

theorem facets_spec {f : Form α} {kind : Integral} {facets : Facets}
    (h : facets ∈ facetCases f.cell kind) :
    (∀ k ∈ facets.1, k < f.cell.facetCount) ∧ (∀ k ∈ facets.2, k < f.cell.facetCount) ∧
      f.cell.regionDimension facets.1 = f.regionDimension kind ∧
      ∀ k ∈ facets.2, f.cell.regionDimension (some k) = f.regionDimension kind := by
  unfold facetCases at h
  cases kind with
  | cell =>
    rw [mem_singleton.1 h]
    refine ⟨?_, ?_, rfl, ?_⟩ <;> exact fun k hk => absurd hk (Option.not_mem_none k)
  | exteriorFacet =>
    rcases mem_map.1 h with ⟨j, hj, rfl⟩
    refine ⟨?_, ?_, rfl, ?_⟩
    · rintro k ⟨⟩
      exact mem_range.1 hj
    · exact fun k hk => absurd hk (Option.not_mem_none k)
    · exact fun k hk => absurd hk (Option.not_mem_none k)
  | interiorFacet =>
    rcases mem_flatMap.1 h with ⟨i, hi, h⟩
    rcases mem_map.1 h with ⟨j, hj, rfl⟩
    refine ⟨?_, ?_, rfl, fun _ _ => rfl⟩
    · rintro k ⟨⟩
      exact mem_range.1 hi
    · rintro k ⟨⟩
      exact mem_range.1 hj

/-- The tables of a monomial: those of a factor have a column for each basis function of its
    argument, and its derivatives in their geometry. -/
structure TermTables.Bounded (f : Form α) (m : Monomial α) (t : TermTables α) : Prop where
  points : t.weights.length = f.pointCount m
  factors : ∃ factors, f.arrange m = .ok factors ∧
    List.Forall₂ (fun factor (x : List (ScaledTable α) × Nat) => ∀ table ∈ x.1,
      table.Shaped (f.pointCount m) (f.width factor) factor.order) factors t.factors

theorem shaped_placement {rule : Rule α} {minus : Option (Rule α)}
    {count dimension : Nat} (e : Element) (hrule : rule.Shaped count dimension)
    (hminus : ∀ r ∈ minus, Rule.Shaped count dimension r) (side : Option Side) :
    (placement e rule minus side).1.length = count ∧
      ∀ point ∈ (placement e rule minus side).1, point.length = dimension := by
  unfold placement
  split
  · next minus => exact ⟨(hminus minus rfl).points, (hminus minus rfl).coordinates⟩
  · exact ⟨hrule.points, hrule.coordinates⟩

namespace Form.Sized

variable {f : Form α} {m : Monomial α} (hm : f.Sized m)

include hm

theorem order_lt {factor : Factor} (hfactor : factor ∈ m.factors) : factor.order < 2 ^ 31 :=
  Nat.lt_of_le_of_lt (le_sum_of_mem (mem_map_of_mem hfactor)) hm.order

theorem quadratureDegree : f.quadratureDegree m = .ok (f.degree m) :=
  quadratureDegree_of_lt (Nat.lt_of_le_of_lt (Nat.le_add_right _ 4) hm.degree)

theorem reserve_rule {facet : Option Nat}
    (hregion : f.cell.regionDimension facet = f.regionDimension m.integral) :
    Rule.reserve f.cell facet (f.degree m) = .ok () := by
  refine Rule.reserve_of_lt hm.degree ?_
  rw [hregion]
  exact hm.points

variable [Scalar α]

theorem rule_sound {source : Gauss.Source α} (hsource : ∀ n, (source n).length = n)
    {facet : Option Nat} (hfacet : ∀ k ∈ facet, k < f.cell.facetCount)
    (hregion : f.cell.regionDimension facet = f.regionDimension m.integral) :
    Outcome.Sound False (Rule.Shaped (f.pointCount m) f.cell.dimension)
      (Rule.reference source f.cell facet (f.degree m)) := by
  have hn := hm.axisPoints
  rw [← hregion] at hn
  have hsound := Rule.reference_sound hsource hfacet hm.degree hn
  rwa [hregion] at hsound

theorem table_sound {d : Dimensions} (hd : f.dims = .ok d) {factor : Factor} (hfactor : factor ∈ m.factors)
    {e : Element} (he : e.Constructed) (hfits : f.Fits d m.integral factor e)
    {points : List (List α)} (hcount : points.length = f.pointCount m)
    (hpoints : ∀ point ∈ points, point.length = f.cell.dimension) :
    Outcome.Sound (Tabulator.isLagrange e = false)
      (fun t => Tabulator.isLagrange e = true ∧ t.Shaped (f.pointCount m) e.spaceDimension
        (d.tdim ^ factor.order) (max e.valueShape.prod 1))
      (Tabulator.lagrange e points factor.order) := by
  have haxes : f.cell.dimension ^ factor.order < Tuple.capacity := by
    have hgdim := hm.axes factor hfactor
    rw [gdim_eq hd] at hgdim
    rw [tdim_eq hd]
    exact Nat.lt_of_le_of_lt (Nat.pow_le_pow_left d.tdim_le _) hgdim
  have hsize := hm.tables factor hfactor e hfits.argument
  have htable := Tabulator.lagrange_sound he (hfits.cell ▸ hpoints) (hm.order_lt hfactor)
    (by rwa [hfits.cell]) (hcount ▸ hm.points.trans (by decide)) (by rwa [hcount, hfits.cell])
  rwa [hfits.cell, tdim_eq hd, hcount] at htable

end Form.Sized

namespace TableStore

variable [Scalar α] {rows : List (List α)} {width : Nat}

theorem sure_register (store : TableStore α) (hrows : ∀ row ∈ rows, row.length = width) :
    Checked.Sure (fun stored => stored.1.columns ≤ width) (store.register rows) := by
  rcases rectangular_of_length hrows with ⟨hrectangular, hwidth⟩
  rcases store.register_columns hrectangular with ⟨stored, hstored, hcolumns⟩
  exact .of_ok hstored (hcolumns.trans_le ((length_positions_le _ _).trans hwidth))

end TableStore

/-- Tables with at most as many columns as the arguments have basis functions. -/
def Product.Narrow (dims : List Nat) (x : Product α) : Prop :=
  List.Forall₂ (fun t n => t.table.columns ≤ n) x.tables dims

section

variable [Scalar α] {ι : Type} {order width : ι → Nat} {xs : List ι} {points : Nat}

section

variable {factors : List (List (ScaledTable α) × Nat)} {choice : List Nat}
  (hfactors : Forall₂ (fun i (x : List (ScaledTable α) × Nat) => ∀ table ∈ x.1,
    table.Shaped points (width i) (order i)) xs factors)
  (hchoice : choice ∈ Tuple.all (factors.map fun x => x.1.length))

include hfactors hchoice

theorem sure_picks {k : Nat} (horder : k + (xs.map order).sum < 2 ^ 31) {geometry : GeometryMonomial α}
    (hgeometry : geometry.powers.AtMost 1 k) (tables : List ArgumentTable) (store : TableStore α) :
    Checked.Sure (fun (result : GeometryMonomial α × List ArgumentTable × TableStore α) =>
        ∃ new, result.2.1 = tables ++ new ∧
          Forall₂ (fun t n => t.table.columns ≤ n) new (xs.map width))
      ((factors.zip choice).foldlM
        (fun (state : GeometryMonomial α × List ArgumentTable × TableStore α)
            (y : (List (ScaledTable α) × Nat) × Nat) => (do
          let t ← entryAt y.1.1 y.2
          let stored ← state.2.2.register t.values
          let product ← state.1.mul t.geometry
          return (product, state.2.1 ++ [⟨stored.1, y.1.2⟩], stored.2) : Checked _))
        (geometry, tables, store)) := by
  induction hfactors generalizing choice k geometry tables store with
  | nil =>
    rw [zip_nil_left]
    exact ⟨[], (append_nil tables).symm, Forall₂.nil⟩
  | @cons i x xs factors hx _ ih =>
    rcases Tuple.mem_all_cons.1 hchoice with ⟨j, hj, rest, hrest, rfl⟩
    rw [map_cons, sum_cons] at horder
    rw [zip_cons_cons, foldlM_cons]
    refine bind (P := fun state => state.1.powers.AtMost 1 (k + order i) ∧
      ∃ t, state.2.1 = tables ++ [t] ∧ t.table.columns ≤ width i) ?_ fun state hstate => ?_
    · refine bind (sure_entryAt hj) fun t ht => ?_
      have hshaped := hx t (mem_of_getElem? ht)
      refine bind (TableStore.sure_register store hshaped.dofs) fun stored hstored => ?_
      refine bind (GeometryMonomial.sure_mul hgeometry hshaped.geometry (by decide)
        (by omega)) fun product hproduct => ?_
      exact pure ⟨hproduct, _, rfl, hstored⟩
    · rcases state with ⟨product, tables', store'⟩
      rcases hstate with ⟨hproduct, t, rfl, hcolumns⟩
      refine (ih hrest (by omega) hproduct _ store').mono fun result hresult => ?_
      rcases hresult with ⟨new, hnew, hnarrow⟩
      refine ⟨t :: new, ?_, Forall₂.cons hcolumns hnarrow⟩
      rw [hnew, append_assoc, singleton_append]

theorem sure_storeProduct (horder : (xs.map order).sum < 2 ^ 31) {scale : GeometryMonomial α}
    (hscale : scale.powers.AtMost 1 0) (store : TableStore α) :
    Checked.Sure (fun stored => stored.1.Narrow (xs.map width))
      (storeProduct scale factors store choice) := by
  unfold storeProduct
  refine bind (sure_picks hfactors hchoice (by rwa [Nat.zero_add]) hscale [] store) ?_
  rintro ⟨geometry, tables, store'⟩ ⟨new, rfl, hnarrow⟩
  exact pure hnarrow

end

theorem sure_storeTerm {t : TermTables α}
    (hfactors : Forall₂ (fun i (x : List (ScaledTable α) × Nat) => ∀ table ∈ x.1,
      table.Shaped points (width i) (order i)) xs t.factors)
    (horder : (xs.map order).sum < 2 ^ 31)
    (hcount : (t.factors.map fun x => x.1.length).prod < Product.capacity) (stores : Stores α)
    (number : Nat) (coefficient : α) :
    Checked.Sure (fun stored => ∀ x ∈ stored.1.toList, x.points = t.weights.length ∧
        ∀ y ∈ x.products, y.Narrow (xs.map width)) (storeTerm stores number coefficient t) := by
  have hscale : ((GeometryMonomial.ofSymbol .scale : GeometryMonomial α).scaled
      coefficient).powers.AtMost 1 0 := GeometryMonomial.atMost_scale (α := α)
  unfold storeTerm
  split
  · exact pure nofun
  · next hfilled =>
    have hpos : ∀ n ∈ t.factors.map fun x => x.1.length, 0 < n := by
      intro n hn
      rcases mem_map.1 hn with ⟨x, hx, rfl⟩
      exact length_pos_iff.2 fun hempty => hfilled (any_eq_true.2 ⟨x, hx, isEmpty_iff.2 hempty⟩)
    have hproduct := product_of_extent (extent_eq_prod _ hpos ▸ hcount.trans (by decide))
    refine bind_ok (bind_eq_ok.2 ⟨_, hproduct, if_pos hcount⟩) ?_
    refine bind (P := fun state => ∀ y ∈ state.1, y.Narrow (xs.map width))
      (Ensures.foldlM nofun fun choice hchoice state hstate => ?_)
      fun state hstate => ?_
    · refine bind (sure_storeProduct hfactors hchoice horder hscale state.2)
        fun stored hstored => pure ?_
      exact forall_mem_append.2 ⟨hstate, forall_mem_singleton.2 hstored⟩
    · refine pure fun x hx => ?_
      rw [Option.toList_some, mem_singleton] at hx
      rw [hx]
      exact ⟨rfl, hstate⟩

end

namespace Form

variable {f : Form α} {m : Monomial α}

theorem map_width {factors : List Factor} (h : f.arrange m = .ok factors) :
    factors.map f.width = f.argumentDims := by
  have hargument : f.width = (fun k => (f.arguments[k]?.map Element.spaceDimension).getD 0) ∘
      Factor.argument := rfl
  rw [hargument, ← map_map, arrange_arguments h]
  refine ext_getElem ?_ fun k hk hk' => ?_
  · rw [length_map, length_range, argumentDims, length_map, rank]
  · rw [length_map, length_range] at hk
    simp only [getElem_map, getElem_range, argumentDims]
    rw [getElem?_eq_getElem hk, Option.map_some, Option.getD_some]
    rfl

theorem argumentDims_le (f : Form α) (kind : Integral) :
    Forall₂ (· ≤ ·) f.argumentDims (macroDims f kind) := by
  unfold macroDims
  rw [forall₂_map_right_iff, forall₂_same]
  intro n _
  split <;> omega

theorem pointCount_pos (f : Form α) (m : Monomial α) : 0 < f.pointCount m :=
  Nat.pow_pos (Nat.le_max_right _ 1)

end Form

/-- Terms with points, and with narrow products. -/
def PointTerm.Narrow (dims : List Nat) (t : PointTerm α) : Prop :=
  0 < t.points ∧ ∀ x ∈ t.products, x.Narrow dims

/-- The operations of all iterations, as a number of any size. -/
def Nest.work (n : Nest α) : Nat := n.operations * extent n.ranges

namespace PointLoop

variable [Scalar α] {dims : List Nat}

theorem sure_position (h : extent dims < limit) (tables : List ArgumentTable) :
    Checked.Sure (fun _ => True) (position dims tables) := by
  unfold position
  refine bind (Ensures.mapM (R := fun _ _ => True) fun x _ => ?_) fun _ _ => trivial
  rcases x with ⟨t, argument⟩
  exact bind_ok (product_of_extent (Nat.lt_of_le_of_lt
    (extent_drop_le dims (argument + 1)) h)) trivial

/-- A step keeps the ranges of all nests within the dimensions of the element tensor. -/
theorem sure_step (number : α → String) (h : extent dims < limit) (points : Nat)
    {state : ConstantStore α × List (Nest α)}
    (hstate : ∀ n ∈ state.2, Forall₂ (· ≤ ·) (n.signature.map Prod.fst) dims)
    {e : PointEntry α} (he : Forall₂ (fun t n => t.table.columns ≤ n) e.tables dims) :
    Checked.Sure (fun state => ∀ n ∈ state.2, Forall₂ (· ≤ ·) (n.signature.map Prod.fst) dims)
      (step number dims points state e) := by
  unfold step
  simp only
  split
  · exact hstate
  · refine bind (sure_position h e.tables) fun position _ => pure ?_
    refine forall_insert (P := fun n => Forall₂ (· ≤ ·) (n.signature.map Prod.fst) dims) ?_
      (fun _ h => h) hstate
    rw [map_map, forall₂_map_left_iff]
    exact he

/-- The nests of the loop over some points, with the constants they read. -/
def nests (number : α → String) (factorise : Bool) (dims : List Nat) (constants : ConstantStore α)
    (points : Nat) (terms : List (PointTerm α)) : Checked (ConstantStore α × List (Nest α)) :=
  (entries factorise terms).foldlM (step number dims points) (constants, [])

theorem sure_nests (number : α → String) (factorise : Bool) (h : extent dims < limit)
    (constants : ConstantStore α) (points : Nat) {terms : List (PointTerm α)}
    (hterms : ∀ t ∈ terms, t.Narrow dims) :
    Checked.Sure (fun state => ∀ n ∈ state.2, Forall₂ (· ≤ ·) n.ranges dims)
      (nests number factorise dims constants points terms) := by
  have hentries := forall_entries (Q := fun _ tables => Forall₂
    (fun (t : ArgumentTable) n => t.table.columns ≤ n) tables dims) (R := fun _ => True) factorise
    fun t ht x hx => ⟨(hterms t ht).2 x hx, trivial⟩
  exact Ensures.foldlM nofun fun e he state hstate =>
    sure_step number h points hstate (hentries e he).1

end PointLoop

section

variable [Scalar α] {number : α → String} {factorise : Bool} {dims : List Nat}
  {constants : ConstantStore α}

/-- The operations of loops over points, and of the constants behind them, as a number of any
    size. -/
def loopOperations (number : α → String) (factorise : Bool) (dims : List Nat) :
    ConstantStore α → List (Nat × List (PointTerm α)) → Nat
  | constants, [] => constants.operations
  | constants, (points, terms) :: rest =>
    match PointLoop.nests number factorise dims constants points terms with
    | .ok (constants, nests) => (nests.map Nest.work).sum * points +
        loopOperations number factorise dims constants rest
    | .error _ => 0

omit [Scalar α] in
theorem Nest.sure_totalOperations {n : Nest α} (hranges : extent n.ranges < limit)
    (hwork : n.work < limit) : Checked.Sure (· ≤ n.work) n.totalOperations := by
  have hle : n.operations * n.ranges.prod ≤ n.work := Nat.mul_le_mul_left _ (prod_le_extent _)
  have hoperations : n.operations ≤ n.work := Nat.le_mul_of_pos_right _ (one_le_extent _)
  refine bind_ok (ofNat_of_lt (Nat.lt_of_le_of_lt hoperations hwork)) ?_
  refine bind_ok (product_of_extent hranges) ?_
  exact .of_ok (mul_of_lt (Nat.lt_of_le_of_lt hle hwork)) hle

theorem sure_pointLoop {constants' : ConstantStore α} {points : Nat} {terms : List (PointTerm α)}
    {nests : List (Nest α)}
    (hnests : PointLoop.nests number factorise dims constants points terms = .ok (constants', nests))
    (hdims : extent dims < limit) (hranges : ∀ n ∈ nests, Forall₂ (· ≤ ·) n.ranges dims)
    (hpos : 0 < points) (hwork : (nests.map Nest.work).sum * points < limit) :
    Checked.Sure (fun loop => loop.2.1 ≤ (nests.map Nest.work).sum * points ∧ loop.2.2 = constants')
      (pointLoop number factorise dims constants points terms) := by
  have hsum : (nests.map Nest.work).sum < limit :=
    Nat.lt_of_le_of_lt (Nat.le_mul_of_pos_right _ hpos) hwork
  unfold pointLoop
  refine bind_ok hnests (bind (Ensures.mapM fun n hn => Nest.sure_totalOperations ?_ ?_)
    fun counts hcounts => ?_)
  · exact Nat.lt_of_le_of_lt (extent_le (hranges n hn)) hdims
  · exact Nat.lt_of_le_of_lt (le_sum_of_mem (mem_map_of_mem hn)) hsum
  · have hle : counts.sum ≤ (nests.map Nest.work).sum :=
      (forall₂_map_right_iff.2 hcounts.flip).sum_le_sum
    have hmul := Nat.mul_le_mul_right points hle
    refine bind_ok (sum_of_lt (Nat.lt_of_le_of_lt hle hsum)) ?_
    exact bind_ok (mul_of_lt (Nat.lt_of_le_of_lt hmul hwork)) (pure ⟨hmul, rfl⟩)

theorem pointLoops_sound {T : Prop} (hdims : extent dims < limit)
    {groups : List (Nat × List (PointTerm α))}
    (hgroups : ∀ x ∈ groups, 0 < x.1 ∧ ∀ t ∈ x.2, t.Narrow dims) {loops : List (Code α)}
    {operations : Nat}
    (h : operations + loopOperations number factorise dims constants groups < limit) :
    Outcome.Sound T (fun (state : List (Code α) × Nat × ConstantStore α) =>
        state.2.1 + state.2.2.operations < limit)
      (groups.foldlM (loopStep number factorise dims) (loops, operations, constants)) := by
  induction groups generalizing loops operations constants with
  | nil => exact h
  | cons x groups ih =>
    rcases x with ⟨points, terms⟩
    rw [forall_mem_cons] at hgroups
    rcases (PointLoop.sure_nests number factorise hdims constants points hgroups.1.2).exists_ok
      with ⟨⟨constants', nests⟩, hnests, hranges⟩
    rw [loopOperations, hnests] at h
    simp only at h
    have hloop := sure_pointLoop hnests hdims hranges hgroups.1.1 (by omega)
    rw [foldlM_cons, loopStep, bind_assoc]
    refine bind (lift hloop) ?_
    rintro ⟨code, count, constants₁⟩ ⟨hcount, hconstants⟩
    simp only at hcount hconstants
    subst hconstants
    have hadd : add operations count = .ok (operations + count) := add_of_lt (by omega)
    have hrest : operations + count + loopOperations number factorise dims constants₁ groups <
        limit := by omega
    rw [bind_assoc]
    exact bind_lift hadd (ih hgroups.2 hrest)

omit [Scalar α] in
theorem sure_resetCode (s : Setting α) (h : extent dims < limit) :
    Checked.Sure (fun _ => True) (resetCode s dims) := by
  unfold resetCode
  split
  · exact bind_ok (product_of_extent h) trivial
  · trivial

/-- The operations of the code of some monomials, as a number of any size. -/
def quadratureOperations (s : Setting α) (f : Form α) (d : Dimensions) (kind : Integral)
    (ms : List (Monomial α)) (facets : Facets) : Nat :=
  match storeTerms s f d facets ms with
  | .ok (terms, _) => loopOperations s.number (2 ≤ s.options.optimisationLevel) (macroDims f kind) {}
      (byPoints terms)
  | .error _ => 0

/-- The sizes of the code of some monomials fit: the chains of derivatives and the products of
    tables that are listed, and the operations that are counted. -/
@[mk_iff]
structure QuadratureSized (s : Setting α) (f : Form α) (d : Dimensions) (kind : Integral)
    (ms : List (Monomial α)) (facets : Facets) : Prop where
  chains : ∀ m ∈ ms, ∀ factor ∈ m.factors,
    f.cell.dimension ^ factor.order < GeometryMonomial.capacity
  products : ∀ m ∈ ms, ∀ t ∈ (quadratureTerm s f d m facets).toOption,
    (t.factors.map fun x => x.1.length).prod < Product.capacity
  operations : quadratureOperations s f d kind ms facets < Size.limit

instance (s : Setting α) (f : Form α) (d : Dimensions) (kind : Integral) (ms : List (Monomial α))
    (facets : Facets) : Decidable (QuadratureSized s f d kind ms facets) :=
  decidable_of_iff' _ (quadratureSized_iff s f d kind ms facets)

variable {s : Setting α} {f : Form α} {d : Dimensions} {kind : Integral} {facets : Facets}
  {ms : List (Monomial α)} (hgauss : ∀ n, (s.gauss n).length = n)
  (htabulator : s.tabulator = Tabulator.lagrange) (harguments : ∀ e ∈ f.arguments, e.Constructed)
  (hd : f.dims = .ok d)

include hgauss htabulator harguments hd

theorem quadratureTerm_sound {m : Monomial α} (hm : f.Sized m)
    (hchains : ∀ factor ∈ m.factors, f.cell.dimension ^ factor.order < GeometryMonomial.capacity)
    (hfacets : facets ∈ facetCases f.cell m.integral) :
    Outcome.Sound (f.Flawed m) (fun t => t.Bounded f m) (quadratureTerm s f d m facets) := by
  rcases facets_spec hfacets with ⟨hfirst, hsecond, hregion, hregion'⟩
  unfold quadratureTerm
  refine bind ((Form.arrange_sound harguments m).allow Or.inl) fun factors hfactors => ?_
  refine bind_lift hm.quadratureDegree (bind_lift (hm.reserve_rule hregion) ?_)
  refine bind ((hm.rule_sound hgauss hfirst hregion).allow False.elim) fun rule hrule => ?_
  refine bind (P := fun minus => ∀ r ∈ minus, Rule.Shaped (f.pointCount m) f.cell.dimension r)
    ?_ fun minus hminus => ?_
  · cases hfacet : facets.2 with
    | none => exact pure fun r hr => absurd hr (Option.not_mem_none r)
    | some k =>
      rw [Option.mapM_some]
      refine bind ((hm.rule_sound hgauss (hfacet ▸ hsecond) (hregion' k hfacet)).allow
        False.elim) fun r hr => ?_
      exact pure fun r' hr' => (Option.some.inj hr') ▸ hr
  refine bind (Ensures.mapM fun factor hfactor => ?_) fun tables htables =>
    pure ⟨hrule.weights, factors, hfactors, htables⟩
  rcases (Form.arrange_eq_ok hd hfactors).2 factor hfactor with ⟨e, hfits⟩
  have hmem := Form.mem_of_mem_arrange hfactors factor hfactor
  have he := harguments e (mem_of_getElem? hfits.argument)
  have haxes := hm.axes factor hmem
  rw [Form.gdim_eq hd] at haxes
  refine bind_lift (entryAt_eq_ok.2 hfits.argument) ?_
  have hplaced := shaped_placement e hrule hminus factor.side
  change Outcome.Sound _ _ (s.tabulator e (placement e rule minus factor.side).1 factor.order >>=
    fun reference => expandFactor e factor reference d s.options.epsilon >>=
      fun x => pure (x, (placement e rule minus factor.side).2))
  rw [htabulator]
  refine bind ((hm.table_sound hd hmem he hfits hplaced.1 hplaced.2).allow fun hunknown =>
    Or.inr ⟨e, mem_of_getElem? hfits.argument, hunknown⟩) fun reference hreference => ?_
  refine bind ((expandFactor_sound hfits he hreference.1 (hm.order_lt hmem) haxes
    (Form.tdim_eq hd ▸ hchains factor hmem) hreference.2 _).allow False.elim) fun x hx => pure ?_
  rwa [Form.width, hfits.argument, Option.map_some, Option.getD_some]

theorem storeTerms_sound (hms : ∀ m ∈ ms, m.integral = kind ∧ f.Sized m)
    (hfacets : facets ∈ facetCases f.cell kind) (h : QuadratureSized s f d kind ms facets) :
    Outcome.Sound (∃ m ∈ ms, f.Flawed m) (fun stored => ∀ t ∈ stored.1, t.Narrow f.argumentDims)
      (storeTerms s f d facets ms) := by
  unfold storeTerms
  refine Ensures.foldlM nofun ?_
  rintro ⟨m, number⟩ hm ⟨terms, stores⟩ hterms
  have hmem := fst_mem_of_mem_zipIdx hm
  rcases hms m hmem with ⟨hkind, hsized⟩
  refine bind ((quadratureTerm_sound hgauss htabulator harguments hd hsized (h.chains m hmem)
    (hkind ▸ hfacets)).allow fun hflawed => ⟨m, hmem, hflawed⟩).of_eq ?_
  rintro t ⟨ht, hterm⟩
  have hcount := h.products m hmem t (congrArg Except.toOption hterm)
  rcases ht.factors with ⟨factors, harrange, hfactors⟩
  have horder := Nat.lt_of_le_of_lt (Form.sum_order_le harrange) hsized.order
  refine bind (lift (sure_storeTerm hfactors horder hcount stores number m.coefficient))
    fun stored hstored => pure ?_
  refine forall_mem_append.2 ⟨hterms, fun x hx => ?_⟩
  rcases hstored x hx with ⟨hpoints, hnarrow⟩
  rw [Form.map_width harrange] at hnarrow
  exact ⟨by rw [hpoints, ht.points]; exact f.pointCount_pos m, hnarrow⟩

theorem quadratureCase_sound (hms : ∀ m ∈ ms, m.integral = kind ∧ f.Sized m)
    (htensor : extent (macroDims f kind) < limit) (hfacets : facets ∈ facetCases f.cell kind)
    (h : QuadratureSized s f d kind ms facets) :
    Outcome.Sound (∃ m ∈ ms, f.Flawed m) (fun _ => True) (quadratureCase s f d kind ms facets) := by
  unfold quadratureCase
  refine bind (storeTerms_sound hgauss htabulator harguments hd hms hfacets h).of_eq ?_
  rintro ⟨terms, stores⟩ ⟨hterms, hstore⟩
  have hoperations := h.operations
  rw [quadratureOperations, hstore] at hoperations
  have hnarrow : ∀ t ∈ terms, t.Narrow (macroDims f kind) := by
    intro t ht
    refine ⟨(hterms t ht).1, fun x hx => ?_⟩
    exact forall₂_join ((hterms t ht).2 x hx).flip (f.argumentDims_le kind)
      fun _ _ _ _ _ h h' => Nat.le_trans h h'
  have hgroups : ∀ x ∈ byPoints terms, 0 < x.1 ∧ ∀ t ∈ x.2, t.Narrow (macroDims f kind) := by
    intro x hx
    rcases of_mem_byPoints hx with ⟨⟨t, ht, hpoints⟩, hgroup⟩
    exact ⟨hpoints ▸ (hnarrow t ht).1, fun t ht => hnarrow t (hgroup t ht).1⟩
  refine bind (pointLoops_sound htensor hgroups (by rwa [Nat.zero_add]))
    fun state hstate => ?_
  refine bind (lift (sure_resetCode s htensor)) fun reset _ => ?_
  exact bind_lift (add_of_lt hstate) trivial

end

end WeakForm
