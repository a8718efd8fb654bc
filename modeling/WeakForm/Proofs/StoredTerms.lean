import WeakForm.Proofs.PointLoops
import WeakForm.Proofs.Arrangement
import WeakForm.Proofs.Storing

/-!
# Stored terms

A monomial becomes a sum of products, one for every choice of a table for each of
its factors. Storing the products only ever adds to the store, so what a product
found there when it was made is still there when the loops read it: every fact about
the store in this module is kept while the store grows.

Multiplying out is undone by the distributive law. The products of a term add up to
a product over the factors of the sums of their tables, and that is what the entries
of a term are defined by.

## Main definitions

* `TermTables.Fits`: Tables of the shape of the arguments.
* `TermTables.amount`: What the tables of a monomial add at a point.

## Theorems

* `Product.Made.chosen`: What is made of a choice of tables is its product.
* `TermTables.sum_amount`: What the tables add at all points are the entries of the term.
-/

namespace WeakForm

open List Success GeometryMonomial ScaledTable

theorem Symbol.Within.oneDigit {d : Dimensions} {s : Symbol} (h : s.Within d) : s.OneDigit := by
  have htdim := d.tdim_le
  have hgdim := d.gdim_le
  cases s with
  | jacobian side row col =>
    have hrow : row < d.gdim := h.1
    have hcol : col < d.tdim := h.2
    exact ⟨by omega, by omega⟩
  | inverse side row col =>
    have hrow : row < d.tdim := h.1
    have hcol : col < d.gdim := h.2
    exact ⟨by omega, by omega⟩
  | determinant side => exact trivial
  | scale => exact trivial

section

variable {K : Type} [Field K]

/-- A table of a factor with a row for each point and a value for each basis function, whose
    geometry is a product of symbols. -/
structure ScaledTable.Tabulated (points n : Nat) (s : ScaledTable K) : Prop where
  coefficient : s.geometry.coefficient = 1
  signed : s.geometry.powers.Signed
  names : s.geometry.powers.Over Symbol.OneDigit
  points : s.values.length = points
  width : ∀ row ∈ s.values, row.length = n

/-- The tables of a monomial fit arguments with the given numbers of basis functions: there is a
    point, every table has a row for each point, and the entries of an argument lie within its
    dimension of the element tensor. -/
structure TermTables.Fits (dim : Nat → Nat) (ns : List Nat) (t : TermTables K) : Prop where
  pos : 0 < t.weights.length
  factors : List.Forall₂ (fun (x : List (ScaledTable K) × Nat) n =>
    n + x.2 ≤ dim n ∧ ∀ s ∈ x.1, s.Tabulated t.weights.length n) t.factors ns

theorem TermTables.Fits.tabulated {dim : Nat → Nat} {ns : List Nat} {t : TermTables K}
    (h : t.Fits dim ns) : ∀ y ∈ t.factors, ∃ points n, ∀ s ∈ y.1, s.Tabulated points n := by
  intro y hy
  rcases forall₂_mem h.factors hy with ⟨n, _, hn⟩
  exact ⟨t.weights.length, n, hn.2⟩

end

section

variable {K : Type} [Field K] [LinearOrder K] [Root K] {store : TableStore K}
  {factors : List (List (ScaledTable K) × Nat)} {stores : Stores K} {coefficient : K}
  {choice : List Nat} {stores' : Stores K} {t : TermTables K} {x : Option (PointTerm K)}

def Pick.value (v : Symbol → K) (y : Pick K) : K :=
  (y.1.1[y.2]?.map fun s => s.geometry.value v).getD 0

/-- A product of a choice of tables: the tables are stored with the offsets of their factors, and
    the geometry is the product of their geometry and a scale. -/
structure Product.Chosen (store : TableStore K) (scale : GeometryMonomial K) (picks : List (Pick K))
    (x : Product K) : Prop where
  tables : List.Forall₂ (fun t (y : Pick K) => ∃ s, y.1.1[y.2]? = some s ∧ t.offset = y.1.2 ∧
    store.Holds t.table s.values) x.tables picks
  signed : x.geometry.powers.Signed
  names : x.geometry.powers.Over Symbol.OneDigit
  coefficient : x.geometry.coefficient = scale.coefficient
  value : ∀ v, x.geometry.value v = scale.value v * (picks.map (Pick.value v)).prod

theorem Product.Made.chosen {scale : GeometryMonomial K} {picks : List (Pick K)} {x : Product K}
    (h : x.Made TableStore.Rectangular store scale picks) (hsigned : scale.powers.Signed)
    (hnames : scale.powers.Over Symbol.OneDigit)
    (hpicks : ∀ z ∈ picks, ∃ points n, ∀ s ∈ z.1.1, s.Tabulated points n) :
    x.Chosen store scale picks := by
  -- The geometry so far is that of the picks in front.
  have hgeometry := foldlM_along (P := fun picks (g : GeometryMonomial K) => g.powers.Signed ∧
    g.powers.Over Symbol.OneDigit ∧ g.coefficient = scale.coefficient ∧
    ∀ v, g.value v = scale.value v * (picks.map (Pick.value v)).prod) h.geometry
    ⟨hsigned, hnames, rfl, fun v => by rw [map_nil, prod_nil, mul_one]⟩ ?_
  · refine ⟨h.tables.imp fun t z ht => ?_, hgeometry.1, hgeometry.2.1, hgeometry.2.2.1,
      hgeometry.2.2.2⟩
    rcases ht with ⟨s, hs, hoffset, htook⟩
    exact ⟨s, hs, hoffset, htook.keeps.holds htook.1⟩
  · rintro picks z hz g g' ⟨hsigned, hnames, hcoefficient, hvalue⟩ hstep
    rcases bind_eq_ok.1 hstep with ⟨s, hs, hmul⟩
    rw [entryAt_eq_ok] at hs
    rcases hpicks z (mem_of_getElem? hz) with ⟨points, n, htabulated⟩
    have hs' := htabulated s (mem_of_getElem? hs)
    have hspec := mul_spec hmul hsigned hs'.signed
    refine ⟨(hspec fun _ => 0).1, ?_, ?_, fun v => ?_⟩
    · rcases bind_eq_ok.1 hmul with ⟨powers, hpowers, hgeometry⟩
      cases hgeometry
      exact Powers.over_mul hpowers hnames hs'.names
    · rw [(hspec fun _ => 0).2.2, hcoefficient, hs'.coefficient, mul_one]
    · rw [(hspec v).2.1, hvalue, map_append, prod_append, map_singleton, prod_singleton, Pick.value,
        hs, Option.map_some, Option.getD_some, mul_assoc]

/-- A stored term: its weights are declared, and there is a product for every choice of a table for
    each factor. -/
structure PointTerm.Stored (stores : Stores K) (coefficient : K) (t : TermTables K)
    (x : PointTerm K) : Prop where
  points : x.points = t.weights.length
  weights : (x.weights, t.weights) ∈ stores.weights.declared
  products : List.Forall₂ (fun choice (y : Product K) => y.Chosen stores.tables
    ((GeometryMonomial.ofSymbol .scale).scaled coefficient) (t.factors.zip choice))
    (Tuple.all (t.factors.map fun y => y.1.length)) x.products

/-- What is stored of a term. A term with a factor that vanishes is left out. -/
def TermTables.StoredAs (stores : Stores K) (coefficient : K) (t : TermTables K) :
    Option (PointTerm K) → Prop
  | none => ∃ y ∈ t.factors, y.1 = []
  | some x => x.Stored stores coefficient t

theorem TermTables.MadeAs.storedAs {calls : List (Nat × List K)}
    (h : t.MadeAs TableStore.Rectangular stores calls coefficient x)
    (hgroups : stores.weights.Groups calls)
    (hfactors : ∀ y ∈ t.factors, ∃ points n, ∀ s ∈ y.1, s.Tabulated points n) :
    t.StoredAs stores coefficient x := by
  cases x with
  | none => exact h
  | some x =>
    rcases h.find?_weights with ⟨ws, hfind⟩
    have hsame : sameRow t.weights ws = true := by simpa using find?_some hfind
    have hnames : Powers.Over Symbol.OneDigit (ofSymbol .scale : GeometryMonomial K).powers :=
      forall_mem_singleton.2 trivial
    refine ⟨h.points, ?_, h.products.imp fun choice y hy => ?_⟩
    · rw [sameRow_iff.1 hsame]
      exact hgroups.mem_declared hfind
    · exact hy.chosen (signed_ofSymbol (K := K) rfl) hnames fun z hz =>
        hfactors z.1 (of_mem_zip hz).1

/-- Storing monomials from left to right gives what is stored of each, and different names to
    different weights. -/
theorem storeTerms_spec {s : Setting K} {f : Form K} {d : Dimensions} {facets : Facets}
    {ms : List (Monomial K)} {terms : List (PointTerm K)}
    (h : storeTerms s f d facets ms = .ok (terms, stores))
    (hfactors : ∀ m ∈ ms, ∀ t, quadratureTerm s f d m facets = .ok t →
      ∀ y ∈ t.factors, ∃ points n, ∀ s ∈ y.1, s.Tabulated points n) :
    ∃ xs : List (TermTables K × Option (PointTerm K)),
      Forall₂ (fun m x => quadratureTerm s f d m facets = .ok x.1 ∧
        x.1.StoredAs stores m.coefficient x.2) ms xs ∧
      terms = xs.flatMap (fun x => x.2.toList) ∧ ∃ bound, stores.weights.Named bound := by
  have hrows : ∀ m ∈ ms, ∀ t, quadratureTerm s f d m facets = .ok t →
      ∀ y ∈ t.factors, ∀ s ∈ y.1, TableStore.Rectangular s.values := by
    intro m hm t ht y hy s hs
    rcases hfactors m hm t ht y hy with ⟨points, n, htabulated⟩
    exact (TableStore.rectangular_of_length (htabulated s hs).width).1
  rcases storeTerms_made h hrows with ⟨calls, xs, hweights, hnumbers, _, hxs, hterms⟩
  have hgroups : stores.weights.Groups calls := hweights ▸ WeightStore.groups_after calls
  refine ⟨xs, ((forall₂_and_left ms xs).2 ⟨fun m hm => hm, hxs⟩).imp fun m x hx => ?_, hterms,
    ms.length, hgroups.named (nodup_range.sublist hnumbers) fun c hc =>
      mem_range.1 (hnumbers.subset (mem_map_of_mem hc))⟩
  exact ⟨hx.2.1, hx.2.2.storedAs hgroups (hfactors m hx.1 x.1 hx.2.1)⟩

/-- What stores hold is in scope. -/
structure Env.Declares (e : Env K) (stores : Stores K) : Prop where
  weights : ∀ x ∈ stores.weights.declared, e.weights x.1 = some x.2
  tables : e.tables = fun n => stores.tables.tables[n]?
  columns : e.columns = fun n => stores.tables.columns[n]?

/-- What the tables of a factor add at a point to a component of a multi-index. -/
def factorAmount (v : Symbol → K) (p : Nat) (x : List (ScaledTable K) × Nat) (i : Nat) : K :=
  if x.2 ≤ i then ScaledTable.total v x.1 p (i - x.2) else 0

def TermTables.amount (v : Symbol → K) (coefficient : K) (t : TermTables K) (p : Nat)
    (N : List Nat) : K :=
  t.weights[p]?.getD 0 * (v .scale * coefficient) *
    (List.zipWith (factorAmount v p) t.factors N).prod

/-- What a chosen table adds at a point to a component of a multi-index. -/
def Pick.amount (v : Symbol → K) (p i : Nat) (y : Pick K) : K :=
  if y.1.2 ≤ i then (y.1.1[y.2]?.map fun s => s.geometry.value v * s.entry p (i - y.1.2)).getD 0
  else 0

theorem sum_pick_amount (v : Symbol → K) (p i : Nat) (x : List (ScaledTable K) × Nat) :
    ((range x.1.length).map fun c => Pick.amount v p i (x, c)).sum = factorAmount v p x i := by
  unfold Pick.amount factorAmount
  by_cases hle : x.2 ≤ i
  · simp only [if_pos hle]
    refine congrArg List.sum (ext_getElem ?_ fun c hc hc' => ?_)
    · rw [length_map, length_range, length_map]
    · rw [length_map] at hc'
      rw [getElem_map, getElem_range, getElem_map, getElem?_eq_getElem hc', Option.map_some,
        Option.getD_some]
  · simp only [if_neg hle, map_const', sum_replicate, nsmul_zero]

theorem prod_picks {v : Symbol → K} {e : Env K} {p : Nat} {tables : List ArgumentTable}
    {N : List Nat} (h : Forall₂ (fun t (y : Pick K) => ∀ i,
      Pick.value v y * t.amount e p i = Pick.amount v p i y) tables (factors.zip choice))
    (hchoice : choice.length = factors.length) (hN : N.length = factors.length) :
    ((factors.zip choice).map (Pick.value v)).prod *
        (zipWith (fun t i => t.amount e p i) tables N).prod = (zipWith (fun g c => g c)
        (zipWith (fun x i c => Pick.amount v p i (x, c)) factors N) choice).prod := by
  induction factors generalizing choice N tables with
  | nil =>
    rw [length_eq_zero_iff.1 hN]
    simp
  | cons x factors ih =>
    rcases exists_cons_of_length_eq_add_one hchoice with ⟨c, choice, rfl⟩
    rcases exists_cons_of_length_eq_add_one hN with ⟨i, N, rfl⟩
    rw [zip_cons_cons] at h
    rcases forall₂_cons_right_iff.1 h with ⟨t, tables, ht, hrest, rfl⟩
    simp only [zip_cons_cons, map_cons, zipWith_cons_cons, prod_cons]
    rw [← ih hrest (Nat.succ.inj hchoice) (Nat.succ.inj hN), ← ht i]
    ring

namespace PointTerm.Stored

variable {stores : Stores K} {coefficient : K} {t : TermTables K} {x : PointTerm K}
  {dim : Nat → Nat} {ns : List Nat} {e : Env K} (h : x.Stored stores coefficient t)

include h

theorem stands (he : e.Declares stores) {table : ArgumentTable} {z : List (ScaledTable K) × Nat}
    {s : ScaledTable K} {n : Nat} (hs : s ∈ z.1) (hoffset : table.offset = z.2)
    (hholds : stores.tables.Holds table.table s.values)
    (hz : n + z.2 ≤ dim n ∧ ∀ s ∈ z.1, s.Tabulated t.weights.length n) :
    table.Stands e x.points (dim n) s.values := by
  have htabulated := hz.2 s hs
  refine ⟨?_, ?_, fun row hrow => ?_⟩
  · rw [he.tables, he.columns]
    exact hholds
  · rw [htabulated.points, h.points]
  · rw [htabulated.width row hrow, hoffset]
    exact hz.1

theorem offers (ht : t.Fits dim ns) (he : e.Declares stores) :
    ∀ y ∈ x.products, e.Offers x.points (ns.map dim) x.weights y.tables := by
  intro y hy
  refine ⟨⟨t.weights, he.weights _ h.weights, h.points.symm⟩, ?_⟩
  rcases forall₂_mem h.products.flip hy with ⟨choice, hchoice, hchosen⟩
  have hlength : t.factors.length = choice.length := by
    rw [Tuple.length_of_mem_all hchoice, length_map]
  have hfits : Forall₂ (fun (z : Pick K) n =>
      n + z.1.2 ≤ dim n ∧ ∀ s ∈ z.1.1, s.Tabulated t.weights.length n)
      (t.factors.zip choice) ns := by
    have hfactors := ht.factors
    rwa [← map_fst_zip hlength.le, forall₂_map_left_iff] at hfactors
  rw [forall₂_map_right_iff]
  refine forall₂_join hchosen.tables.flip hfits fun z _ table _ n htable hz => ?_
  rcases htable with ⟨s, hs, hoffset, hholds⟩
  exact ⟨s.values, h.stands he (mem_of_getElem? hs) hoffset hholds hz⟩

theorem readable {numbers : AddSubgroup K} (hcoefficient : coefficient ∈ numbers) :
    ∀ y ∈ x.products,
    y.geometry.powers.Over Symbol.OneDigit ∧ y.geometry.coefficient ∈ numbers := by
  intro y hy
  rcases forall₂_mem h.products.flip hy with ⟨choice, _, hchosen⟩
  refine ⟨hchosen.names, ?_⟩
  rw [hchosen.coefficient]
  change 1 * coefficient ∈ numbers
  rwa [one_mul]

theorem amount_product (ht : t.Fits dim ns) (he : e.Declares stores) {p : Nat} (hp : p < x.points)
    {N choice : List Nat} (hN : N.length = t.factors.length)
    (hchoice : choice ∈ Tuple.all (t.factors.map fun y => y.1.length)) {y : Product K}
    (hy : y.Chosen stores.tables ((ofSymbol .scale).scaled coefficient) (t.factors.zip choice))
    (v : Symbol → K) : t.weights[p]?.getD 0 * (v .scale * coefficient) * (zipWith (fun g c => g c)
      (zipWith (fun x i c => Pick.amount v p i (x, c)) t.factors N) choice).prod =
      e.amount x.weights y.tables (y.geometry.value v) p N := by
  have hweight : e.weight x.weights p = t.weights[p]?.getD 0 := by
    rw [Env.weight, he.weights _ h.weights, Option.getD_some]
  have hscale : ((ofSymbol .scale : GeometryMonomial K).scaled coefficient).value v =
      v .scale * coefficient := by
    rw [value_scaled, value_ofSymbol]
  have hfits : ∀ z ∈ t.factors.zip choice, ∃ n,
      n + z.1.2 ≤ dim n ∧ ∀ s ∈ z.1.1, s.Tabulated t.weights.length n := by
    intro z hz
    rcases forall₂_mem ht.factors (of_mem_zip hz).1 with ⟨n, _, hn⟩
    exact ⟨n, hn⟩
  have htables : Forall₂ (fun table (z : Pick K) => ∀ i,
      Pick.value v z * table.amount e p i = Pick.amount v p i z) y.tables
      (t.factors.zip choice) := by
    refine ((forall₂_and_left _ _).2 ⟨hfits, hy.tables.flip⟩).flip.imp fun table z hz i => ?_
    rcases hz with ⟨⟨n, hn⟩, s, hs, hoffset, hholds⟩
    rw [(h.stands he (mem_of_getElem? hs) hoffset hholds hn).amount_eq hp, hoffset, Pick.value,
      Pick.amount, hs]
    split
    · rfl
    · exact mul_zero _
  have hlength : choice.length = t.factors.length := by
    rw [Tuple.length_of_mem_all hchoice, length_map]
  -- The geometry of a product is that of its tables, so it can be split among them.
  rw [← prod_picks htables hlength hN, Env.amount, hweight, hy.value, hscale]
  ring

theorem amount_eq (ht : t.Fits dim ns) (he : e.Declares stores) {p : Nat} (hp : p < x.points)
    {N : List Nat} (hN : N.length = ns.length) (v : Symbol → K) :
    x.amount v e p N = t.amount v coefficient p N := by
  have hlength : N.length = t.factors.length := hN.trans ht.factors.length_eq.symm
  -- There is a product for every choice of tables, so the distributive law applies.
  rw [PointTerm.amount, ← sum_eq_of_forall₂ h.products fun choice hchoice y hy =>
    h.amount_product ht he hp hlength hchoice hy v, sum_map_mul_left,
    Tuple.sum_all_prod, PointLoop.zipWith_zipWith_map]
  · simp only [sum_pick_amount]
    rfl
  · rw [length_zipWith, hlength, Nat.min_self, length_map]

end PointTerm.Stored

namespace TermTables

variable {t : TermTables K} {dim : Nat → Nat} {ns N : List Nat}

theorem amount_of_vanishing (h : ∃ y ∈ t.factors, y.1 = []) (hN : N.length = t.factors.length)
    (v : Symbol → K) (coefficient : K) (p : Nat) : t.amount v coefficient p N = 0 := by
  rcases h with ⟨y, hy, hempty⟩
  rcases mem_iff_getElem.1 hy with ⟨k, hk, rfl⟩
  have hmem : (0 : K) ∈ zipWith (factorAmount v p) t.factors N := by
    refine mem_iff_getElem.2 ⟨k, by rw [length_zipWith]; omega, ?_⟩
    rw [getElem_zipWith, factorAmount, hempty]
    split
    · rfl
    · rfl
  rw [amount, prod_eq_zero hmem, mul_zero]

/-- A factor counts for one basis function only, the one at the component of the multi-index. -/
theorem sum_factor {points n : Nat} {x : List (ScaledTable K) × Nat}
    (hx : ∀ s ∈ x.1, s.Tabulated points n) (v : Symbol → K) (p i : Nat) : ((range n).map fun k =>
      if k + x.2 = i then total v x.1 p k else 0).sum = factorAmount v p x i := by
  have hzero : ∀ k, n ≤ k → total v x.1 p k = 0 := by
    intro k hk
    refine sum_eq_zero fun y hy => ?_
    rcases mem_map.1 hy with ⟨s, hs, rfl⟩
    rw [ScaledTable.entry]
    cases hrow : s.values[p]? with
    | none => exact mul_zero _
    | some row =>
      have hwidth := (hx s hs).width row (mem_of_getElem? hrow)
      rw [Option.getD_some, getElem?_eq_none (by omega), Option.getD_none, mul_zero]
  unfold factorAmount
  by_cases hle : x.2 ≤ i
  · rw [if_pos hle, sum_eq_of_pick _ _ (i - x.2) fun m k hk hm => ?_]
    · by_cases hlt : i - x.2 < n
      · rw [getElem?_range hlt, Option.map_some, Option.getD_some, if_pos (by omega)]
      · rw [getElem?_eq_none (by rw [length_range]; omega), Option.map_none, Option.getD_none,
          hzero _ (Nat.not_lt.1 hlt)]
    · rw [List.getElem?_eq_some_iff] at hk
      rcases hk with ⟨_, hk⟩
      rw [getElem_range] at hk
      exact if_neg (by omega)
  · rw [if_neg hle]
    refine sum_eq_zero fun y hy => ?_
    rcases mem_map.1 hy with ⟨k, _, rfl⟩
    exact if_neg (by omega)

/-- The products over the factors for all basis functions that end up at a multi-index. -/
theorem sum_dofs {points : Nat} (hfactors : Forall₂ (fun (x : List (ScaledTable K) × Nat) n =>
      ∀ s ∈ x.1, s.Tabulated points n) factors ns) (hN : N.length = ns.length) (v : Symbol → K)
    (p : Nat) : ((Tuple.all ns).map fun dofs =>
      if zipWith (· + ·) dofs (factors.map Prod.snd) = N then
        (zipWith (fun x k => total v x.1 p k) factors dofs).prod else 0).sum =
      (zipWith (factorAmount v p) factors N).prod := by
  have hlength : N.length = factors.length := hN.trans hfactors.length_eq.symm
  have hselect : ∀ dofs ∈ Tuple.all ns,
      (if zipWith (· + ·) dofs (factors.map Prod.snd) = N then
        (zipWith (fun x k => total v x.1 p k) factors dofs).prod else 0) =
      (zipWith (fun h k => h k) (zipWith (fun x i k =>
        if k + x.2 = i then total v x.1 p k else 0) factors N) dofs).prod := by
    intro dofs hdofs
    have hdofs : dofs.length = factors.length := by
      rw [Tuple.length_of_mem_all hdofs, hfactors.length_eq]
    rw [PointLoop.prod_select (fun x k => k + x.2) (fun x k => total v x.1 p k) hlength
      hdofs, zipWith_map_right, zipWith_comm]
  rw [map_congr_left hselect, Tuple.sum_all_prod]
  · congr 1
    -- Each factor now has a sum of its own.
    clear hselect hlength
    induction hfactors generalizing N with
    | nil => simp
    | cons hx _ ih =>
      rcases exists_cons_of_length_eq_add_one hN with ⟨i, N, rfl⟩
      rw [zipWith_cons_cons, zipWith_cons_cons, zipWith_cons_cons, sum_factor hx,
        ih (Nat.succ.inj hN)]
  · rw [length_zipWith, hlength, Nat.min_self, hfactors.length_eq]

theorem sum_amount (ht : t.Fits dim ns) (hN : N.length = ns.length) (v : Symbol → K)
    (coefficient : K) : ((range t.weights.length).map fun p => t.amount v coefficient p N).sum =
      (((Tuple.all ns).filter fun dofs => zipWith (· + ·) dofs (t.factors.map Prod.snd) = N).map
          fun dofs => t.entry v coefficient dofs).sum := by
  have hfactors := ht.factors.imp fun _ _ hx => hx.2
  have hamount : ∀ p, t.amount v coefficient p N = ((Tuple.all ns).map fun dofs =>
      t.weights[p]?.getD 0 * (v .scale * coefficient) *
        if zipWith (· + ·) dofs (t.factors.map Prod.snd) = N then
          (zipWith (fun x k => total v x.1 p k) t.factors dofs).prod
        else 0).sum := by
    intro p
    rw [sum_map_mul_left, sum_dofs hfactors hN, amount]
  -- Points are summed on the inside, and basis functions on the outside.
  simp only [hamount]
  rw [sum_comm, sum_filter]
  refine congrArg List.sum (map_congr_left fun dofs _ => ?_)
  by_cases hplace : zipWith (· + ·) dofs (t.factors.map Prod.snd) = N
  · rw [if_pos hplace, entry, sum_zipIdx_eq_range t.weights fun p =>
      (zipWith (fun x k => total v x.1 p k) t.factors dofs).prod,
      ← sum_map_mul_left]
    refine congrArg List.sum (map_congr_left fun p _ => ?_)
    rw [if_pos hplace]
    ring
  · rw [if_neg hplace]
    refine sum_eq_zero fun y hy => ?_
    rcases mem_map.1 hy with ⟨p, _, rfl⟩
    rw [if_neg hplace, mul_zero]

theorem StoredAs.sum_amount {x : Option (PointTerm K)} {e : Env K}
    (h : t.StoredAs stores coefficient x) (ht : t.Fits dim ns) (he : e.Declares stores)
    (hN : N.length = ns.length) (v : Symbol → K) :
    (x.toList.map fun y => ((range y.points).map fun p => y.amount v e p N).sum).sum =
      (((Tuple.all ns).filter fun dofs => zipWith (· + ·) dofs (t.factors.map Prod.snd) = N).map
          fun dofs => t.entry v coefficient dofs).sum := by
  rw [← TermTables.sum_amount ht hN]
  cases x with
  | none =>
    have hlength : N.length = t.factors.length := hN.trans ht.factors.length_eq.symm
    refine (sum_eq_zero fun y hy => ?_).symm
    rcases mem_map.1 hy with ⟨p, _, rfl⟩
    exact amount_of_vanishing h hlength v coefficient p
  | some x =>
    have hx : x.Stored stores coefficient t := h
    rw [Option.toList_some, map_singleton, sum_singleton, ← hx.points]
    refine congrArg List.sum (map_congr_left fun p hp => ?_)
    exact hx.amount_eq ht he (mem_range.1 hp) hN v

end TermTables

end

end WeakForm
