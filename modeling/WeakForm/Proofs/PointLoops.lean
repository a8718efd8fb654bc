import WeakForm.Proofs.Statements
import WeakForm.Proofs.CaseStructure

/-!
# What loops over quadrature points add

The loop over the points of some terms adds, at every point, the products of the
terms to the element tensor. This module proves it in the order in which the loop is
put together: statements, nests of statements, entries with merged geometry, and the
loop around all nests.

Merging products with the same weights and tables, and sorting statements into nests,
both leave the sum over all of them as it is. Neither needs to know what is summed. That
the statements can be run at all is carried along separately (`Nest.Runs`), since nothing
is said about what code adds that fails.

Constants are numbered while the statements are made, so what a statement reads is in
scope only once the store is complete. The lemmas about a step therefore ask for the
constants of a later store, and `Env.Knows.mono` takes them back to an earlier one.

## Main definitions

* `Nest.amount`: What all iterations of a nest add.
* `PointTerm.amount`: What the products of a term add at a point.

## Theorems

* `PointLoop.amount_statement`: What a nest with a single statement adds.
* `PointLoop.step_spec`, `PointLoop.foldlM_step`: What entries add to the nests.
* `adds_pointLoop`: What the loop over the points adds.
-/

namespace WeakForm

open List Success GeometrySum

section

variable {K : Type} [Field K] [LinearOrder K] [Root K] {ν : Type} {read : ν → Checked K}
  {es : List (Expr ν K)} {ys : List K}

/-- An expression has a value, given what its names read. -/
def Expr.Evaluates {ν : Type} (read : ν → Checked K) (x : Expr ν K) (y : K) : Prop :=
  x.value read = .ok y

theorem Expr.value_foldl_mul (h : Forall₂ (Expr.Evaluates read) es ys) {a : Expr ν K} {y : K}
    (ha : a.value read = .ok y) : (es.foldl Expr.mul a).value read = .ok (y * ys.prod) := by
  induction h generalizing a y with
  | nil => rw [foldl_nil, ha, prod_nil, mul_one]
  | cons hx _ ih =>
    rw [foldl_cons, prod_cons, ← mul_assoc]
    exact ih (bind_eq_ok.2 ⟨y, ha, bind_eq_ok.2 ⟨_, hx, rfl⟩⟩)

theorem Expr.value_productOf (h : Forall₂ (Expr.Evaluates read) es ys) :
    (Expr.productOf (.literal 1) es).value read = .ok ys.prod := by
  cases h with
  | nil => rfl
  | cons hx hrest =>
    rw [prod_cons]
    exact Expr.value_foldl_mul hrest hx

/-- The constants of a store are in scope with their values. -/
def Env.Knows (v : Symbol → K) (e : Env K) (s : ConstantStore K) : Prop :=
  ∀ k c, s.constants[k]? = some c → e.constants k = some (c.2.value v)

theorem Env.Knows.mono {v : Symbol → K} {e : Env K} {s s' : ConstantStore K} (h : e.Knows v s')
    (hgrows : s.constants <+: s'.constants) : e.Knows v s :=
  fun k c hc => h k c (prefix_get hgrows hc)

/-- What code adds to the entry at a multi-index of an element tensor of zeros. -/
def Code.added (v : Symbol → K) (e : Env K) (dims : List Nat) (c : Code K) (N : List Nat) : K :=
  match c.exec v e ((Tuple.all dims).map fun _ => 0) with
  | .ok (_, A) => A[Tuple.linear dims N]?.getD 0
  | .error _ => 0

theorem Adds.added_eq {v : Symbol → K} {e : Env K} {dims : List Nat} {c : Code K}
    {amount : List Nat → K} (h : Adds v e dims c amount) {N : List Nat} (hN : N ∈ Tuple.all dims) :
    c.added v e dims N = amount N := by
  rw [Code.added, h]
  simp only [getElem?_map, Tuple.get_linear hN, Option.map_some, Option.getD_some, zero_add]

namespace Nest

def statement (s : Position × List (Expr Operand K)) : Code K :=
  .accumulate s.1 (Expr.productOf (.literal 1) s.2)

variable {v : Symbol → K} {e : Env K} {dims : List Nat}

/-- The statements of a nest can be run in all iterations. -/
def Runs (v : Symbol → K) (e : Env K) (dims : List Nat) (n : Nest K) : Prop :=
  ∀ js ∈ Tuple.all n.ranges, ∀ s ∈ n.statements,
    ∃ amount, Adds v (e.bindAll 0 js) dims (statement s) amount

/-- What all iterations of a nest add. -/
def amount (v : Symbol → K) (e : Env K) (dims : List Nat) (n : Nest K) (N : List Nat) : K :=
  ((Tuple.all n.ranges).map fun js =>
    (n.statements.map fun s => (statement s).added v (e.bindAll 0 js) dims N).sum).sum

theorem adds_code {n : Nest K} (hfree : ∀ k, e.counters (.argument k) = none)
    (h : n.Runs v e dims) : Adds v e dims n.code (n.amount v e dims) := by
  have hbody : ∀ js ∈ Tuple.all n.ranges, Adds v (e.bindAll 0 js) dims
      (.all (n.statements.map statement)) fun N =>
        (n.statements.map fun s => (statement s).added v (e.bindAll 0 js) dims N).sum := by
    intro js hjs
    refine adds_all fun s hs => ?_
    rcases h js hjs s hs with ⟨amount, hadds⟩
    exact hadds.congr fun N hN => (hadds.added_eq hN).symm
  exact adds_loops (fun k _ => hfree k) hbody

/-- A statement that is sorted into nests adds what it adds in a nest of its own. -/
theorem amount_insert (signature : Signature) (s : Position × List (Expr Operand K))
    (nests : List (Nest K)) (N : List Nat) :
    ((PointLoop.insert signature s nests).map fun n => n.amount v e dims N).sum =
      (nests.map fun n => n.amount v e dims N).sum + amount v e dims ⟨signature, [s]⟩ N := by
  induction nests with
  | nil => rw [PointLoop.insert, map_nil, sum_nil, zero_add, map_singleton, sum_singleton]
  | cons n nests ih =>
    rw [PointLoop.insert]
    split
    · next hsignature =>
      -- The nest has the loops of the statement already, and one more statement in them.
      have hadd : amount v e dims { n with statements := n.statements ++ [s] } N =
          n.amount v e dims N + amount v e dims ⟨signature, [s]⟩ N := by
        subst hsignature
        unfold amount ranges
        rw [← sum_map_add]
        refine congrArg List.sum (map_congr_left fun js _ => ?_)
        rw [map_append, sum_append]
      rw [map_cons, map_cons, sum_cons, sum_cons, hadd]
      ring
    · rw [map_cons, map_cons, sum_cons, sum_cons, ih, add_assoc]

end Nest

variable {v : Symbol → K} {e : Env K} {dims : List Nat} {points p : Nat}

def Env.weight (e : Env K) (name p : Nat) : K := ((e.weights name).getD [])[p]?.getD 0

/-- What products with given weights and tables add at a point, if their geometry has the given
    value. -/
def Env.amount (e : Env K) (weights : Nat) (tables : List ArgumentTable) (geometry : K) (p : Nat)
    (N : List Nat) : K :=
  e.weight weights p * geometry * (List.zipWith (fun t i => t.amount e p i) tables N).prod

/-- Weights and tables that can be read at all points. -/
structure Env.Offers (e : Env K) (points : Nat) (dims : List Nat) (weights : Nat)
    (tables : List ArgumentTable) : Prop where
  weights : ∃ ws, e.weights weights = some ws ∧ ws.length = points
  tables : List.Forall₂ (fun t dim => ∃ rows, t.Stands e points dim rows) tables dims

namespace PointLoop

theorem zipWith_eq_zipIdx {β γ : Type} (f : β → Nat → γ) {xs : List β} (hjs : js.length = xs.length) :
    zipWith f xs js = xs.zipIdx.map fun x => f x.1 (js[x.2]?.getD 0) := by
  apply ext_getElem
  · rw [length_zipWith, hjs, Nat.min_self, length_map, length_zipIdx]
  · intro n hn hn'
    rw [length_zipWith, hjs, Nat.min_self] at hn
    rw [getElem_zipWith, getElem_map, getElem_zipIdx, Nat.zero_add, getElem?_eq_getElem (hjs ▸ hn),
      Option.getD_some]

variable {tables : List ArgumentTable} {geometry : List (Expr Operand K)} {js : List Nat}
  {weights : Nat} {pos : Position} {g : K}

theorem adds_statement (hoffers : e.Offers points dims weights tables) (hp : p < points)
    (hpos : position dims tables = .ok pos)
    (hjs : js ∈ Tuple.all (tables.map fun t => t.table.columns))
    (hgeometry : ∃ ys, Forall₂ (Expr.Evaluates ((e.atPoint points p).bindAll 0 js).operand)
      geometry ys ∧ ys.prod = g) :
    Adds v ((e.atPoint points p).bindAll 0 js) dims (Nest.statement (pos,
      [Expr.name (.weight weights (points ≠ 1))] ++ (tables.zipIdx.map fun x =>
        Expr.name (.entry x.1.table.number (points ≠ 1) x.2)) ++ geometry))
      fun N => if N = places e tables js then
        e.weight weights p * (zipWith (fun t j => t.cell e p j) tables js).prod * g else 0 := by
  have hreads := e.reads_atPoint points p js
  have hlength : js.length = tables.length := by
    rw [Tuple.length_of_mem_all hjs, length_map]
  rcases hoffers.weights with ⟨ws, hws, hwlength⟩
  rcases hgeometry with ⟨ys, hys, rfl⟩
  have hweight : Expr.Evaluates ((e.atPoint points p).bindAll 0 js).operand
      (.name (.weight weights (points ≠ 1))) (e.weight weights p) := by
    have hlt : p < ws.length := hwlength ▸ hp
    rw [Expr.Evaluates, Expr.value, Env.weight, hws, Option.getD_some, getElem?_eq_getElem hlt,
      Option.getD_some]
    exact hreads.weight hp hws hwlength (getElem?_eq_getElem hlt)
  have hcells : Forall₂ (Expr.Evaluates ((e.atPoint points p).bindAll 0 js).operand)
      (tables.zipIdx.map fun x => Expr.name (.entry x.1.table.number (points ≠ 1) x.2))
      (zipWith (fun t j => t.cell e p j) tables js) := by
    rw [zipWith_eq_zipIdx _ hlength, forall₂_map_left_iff, forall₂_map_right_iff, forall₂_same]
    rintro ⟨t, k⟩ hx
    have hget := mem_zipIdx_iff_getElem?.1 hx
    rcases forall₂_get hoffers.tables hget with ⟨dim, _, rows, hrows⟩
    rcases get_of_mem_all hjs hget with ⟨j, hj, hlt⟩
    rw [hj, Option.getD_some, Expr.Evaluates, Expr.value]
    exact hrows.operand hp hreads hj hlt
  -- The factors stand in the order weight, tables, geometry.
  have hvalue := Expr.value_productOf
    (rel_append (rel_append (Forall₂.cons hweight Forall₂.nil) hcells) hys)
  rw [prod_append, prod_append, prod_singleton] at hvalue
  exact adds_accumulate (places_mem hoffers.tables hjs hp)
    (position_value hpos hoffers.tables hjs hreads) hvalue

theorem amount_statement (hoffers : e.Offers points dims weights tables) (hp : p < points)
    (hpos : position dims tables = .ok pos) (hgeometry : ∀ js, ∃ ys, Forall₂
      (Expr.Evaluates ((e.atPoint points p).bindAll 0 js).operand) geometry ys ∧ ys.prod = g)
    {n : Nest K}
    (hsignature : n.signature = tables.map fun t => (t.table.columns, t.table.nonzero, t.offset))
    (hstatements : n.statements = [(pos, [Expr.name (.weight weights (points ≠ 1))] ++
      (tables.zipIdx.map fun x => Expr.name (.entry x.1.table.number (points ≠ 1) x.2)) ++
        geometry)]) : n.Runs v (e.atPoint points p) dims ∧ ∀ N ∈ Tuple.all dims,
      n.amount v (e.atPoint points p) dims N = e.amount weights tables g p N := by
  have hranges : n.ranges = tables.map fun t => t.table.columns := by
    rw [Nest.ranges, hsignature, map_map]
    rfl
  have hadds : ∀ js ∈ Tuple.all n.ranges, ∀ s ∈ n.statements,
      Adds v ((e.atPoint points p).bindAll 0 js) dims (Nest.statement s) fun N =>
        if N = places e tables js then
          e.weight weights p * (zipWith (fun t j => t.cell e p j) tables js).prod * g else 0 := by
    intro js hjs s hs
    rw [hstatements, mem_singleton] at hs
    rw [hranges] at hjs
    rw [hs]
    exact adds_statement hoffers hp hpos hjs (hgeometry js)
  refine ⟨fun js hjs s hs => ⟨_, hadds js hjs s hs⟩, fun N hN => ?_⟩
  have hlength : N.length = tables.length := by
    rw [Tuple.length_of_mem_all hN, hoffers.tables.length_eq]
  -- Summed over the loops, the entry of each table is the one that its column goes to.
  rw [Env.amount, ← sum_statement hlength, Nest.amount, ← hranges]
  refine congrArg List.sum (map_congr_left fun js hjs => ?_)
  have hmem : ∀ s ∈ n.statements, (Nest.statement s).added v ((e.atPoint points p).bindAll 0 js)
      dims N = if N = places e tables js then
        e.weight weights p * (zipWith (fun t j => t.cell e p j) tables js).prod * g else 0 :=
    fun s hs => (hadds js hjs s hs).added_eq hN
  rw [map_congr_left hmem, hstatements, map_singleton, sum_singleton]

end PointLoop

def PointTerm.amount (v : Symbol → K) (e : Env K) (t : PointTerm K) (p : Nat) (N : List Nat) : K :=
  (t.products.map fun x => e.amount t.weights x.tables (x.geometry.value v) p N).sum

namespace PointLoop

theorem sum_merge (weights : Nat) (x : Product K) (xs : List (PointEntry K)) (N : List Nat) :
    ((merge weights x xs).map fun y => e.amount y.weights y.tables (total v y.geometry) p N).sum =
      (xs.map fun y => e.amount y.weights y.tables (total v y.geometry) p N).sum +
        e.amount weights x.tables (x.geometry.value v) p N := by
  induction xs with
  | nil =>
    rw [merge, map_singleton, sum_singleton, map_nil, sum_nil, zero_add, total]
    simp only [map_singleton, sum_singleton]
  | cons y xs ih =>
    rw [merge]
    split
    · next hsame =>
      -- Geometry of the same weights and tables is added up before it is multiplied.
      rw [map_cons, map_cons, sum_cons, sum_cons, ← hsame.1, ← hsame.2]
      simp only [total, map_append, map_singleton, sum_append, sum_singleton, Env.amount]
      ring
    · rw [map_cons, map_cons, sum_cons, sum_cons, ih, add_assoc]

/-- Merging products with the same weights and tables keeps the sum over all of them. -/
theorem sum_entries (factorise : Bool) (terms : List (PointTerm K)) (N : List Nat) :
    ((entries factorise terms).map fun x =>
      e.amount x.weights x.tables (total v x.geometry) p N).sum =
      (terms.map fun t => t.amount v e p N).sum := by
  have hterms : (terms.map fun t => t.amount v e p N).sum =
      ((terms.flatMap fun t => t.products.map fun x => (t.weights, x)).map fun x =>
        e.amount x.1 x.2.tables (x.2.geometry.value v) p N).sum := by
    rw [Tuple.sum_flatMap]
    simp only [map_map]
    rfl
  have hfold : ∀ (products : List (Nat × Product K)) (acc : List (PointEntry K)),
      ((products.foldl (fun xs x => merge x.1 x.2 xs) acc).map fun x =>
        e.amount x.weights x.tables (total v x.geometry) p N).sum =
      (acc.map fun x => e.amount x.weights x.tables (total v x.geometry) p N).sum +
        (products.map fun x => e.amount x.1 x.2.tables (x.2.geometry.value v) p N).sum := by
    intro products
    induction products with
    | nil => exact fun acc => (add_zero _).symm
    | cons x products ih =>
      intro acc
      rw [foldl_cons, ih, sum_merge, map_cons, sum_cons, add_assoc]
  rw [hterms, entries]
  simp only
  split
  · exact (hfold _ []).trans (zero_add _)
  · rw [map_map]
    refine congrArg List.sum (map_congr_left fun x _ => ?_)
    simp only [Function.comp_apply, total, map_singleton, sum_singleton]

variable {Q : Nat → List ArgumentTable → Prop} {α : Type} {R : GeometryMonomial α → Prop}

theorem forall_merge {weights : Nat} {x : Product α} {xs : List (PointEntry α)}
    (hx : Q weights x.tables ∧ R x.geometry)
    (hxs : ∀ y ∈ xs, Q y.weights y.tables ∧ ∀ g ∈ y.geometry, R g) :
    ∀ y ∈ merge weights x xs, Q y.weights y.tables ∧ ∀ g ∈ y.geometry, R g := by
  induction xs with
  | nil => exact forall_mem_singleton.2 ⟨hx.1, forall_mem_singleton.2 hx.2⟩
  | cons y xs ih =>
    rw [forall_mem_cons] at hxs
    rw [merge]
    split
    · exact forall_mem_cons.2 ⟨⟨hxs.1.1, forall_mem_append.2
        ⟨hxs.1.2, forall_mem_singleton.2 hx.2⟩⟩, hxs.2⟩
    · exact forall_mem_cons.2 ⟨hxs.1, ih hxs.2⟩

/-- The entries are made of the products: their weights and tables are those of a product, and so
    is all of their geometry. -/
theorem forall_entries (factorise : Bool) {terms : List (PointTerm α)}
    (h : ∀ t ∈ terms, ∀ x ∈ t.products, Q t.weights x.tables ∧ R x.geometry) :
    ∀ x ∈ entries factorise terms, Q x.weights x.tables ∧ ∀ g ∈ x.geometry, R g := by
  have hproducts : ∀ x ∈ terms.flatMap fun t => t.products.map fun x => (t.weights, x),
      Q x.1 x.2.tables ∧ R x.2.geometry := by
    intro x hx
    rcases mem_flatMap.1 hx with ⟨t, ht, hx⟩
    rcases mem_map.1 hx with ⟨y, hy, rfl⟩
    exact h t ht y hy
  rw [entries]
  simp only
  split
  · exact List.foldlRecOn _ _
      (motive := fun (xs : List (PointEntry α)) => ∀ x ∈ xs, Q x.weights x.tables ∧
        ∀ g ∈ x.geometry, R g)
      nofun fun acc hacc x hx => forall_merge (hproducts x hx) hacc
  · intro x hx
    rcases mem_map.1 hx with ⟨y, hy, rfl⟩
    exact ⟨(hproducts y hy).1, forall_mem_singleton.2 (hproducts y hy).2⟩

end PointLoop

variable {number : K → String} {numbers : AddSubgroup K} {literal : List Char → Option K}

/-- Monomials with the same powers are added up. What these sums have if their parts do, all terms
    of a sum have. -/
theorem GeometrySum.forall_ofTerms {α : Type} [Scalar α] {P : GeometryMonomial α → Prop}
    (hadd : ∀ m t, P m → P t → P { t with coefficient := t.coefficient + m.coefficient })
    {ms : List (GeometryMonomial α)} (h : ∀ m ∈ ms, P m) : ∀ t ∈ (ofTerms ms).terms, P t := by
  have hinsert : ∀ (m : GeometryMonomial α) (ts : List (GeometryMonomial α)), P m →
      (∀ t ∈ ts, P t) → ∀ t ∈ insert m ts, P t := by
    intro m ts hm hts
    induction ts with
    | nil => exact forall_mem_singleton.2 hm
    | cons t ts ih =>
      rw [forall_mem_cons] at hts
      rw [insert]
      split
      · exact forall_mem_cons.2 ⟨hadd m t hm hts.1, hts.2⟩
      · split
        · exact forall_mem_cons.2 ⟨hm, forall_mem_cons.2 hts⟩
        · exact forall_mem_cons.2 ⟨hts.1, ih hts.2⟩
  intro t ht
  exact List.foldlRecOn ms _ (motive := fun ts => ∀ t ∈ ts, P t) (forall_mem_nil _)
    (fun acc hacc m hm => hinsert m acc (h m hm) hacc) t (mem_filter.1 ht).1

theorem GeometrySum.readable_ofTerms {ms : List (GeometryMonomial K)}
    (h : ∀ m ∈ ms, m.powers.Over Symbol.OneDigit ∧ m.coefficient ∈ numbers) :
    (ofTerms ms).Readable numbers :=
  forall_ofTerms (fun _ _ hm ht => ⟨ht.1, numbers.add_mem ht.2 hm.2⟩) h

variable [IsStrictOrderedRing K] {constants : ConstantStore K}

/-- The factor that stands for the geometry of a statement has the value of the geometry, wherever
    the constants are in scope. -/
theorem PointLoop.geometryFactor_value (hnumber : Legible number numbers literal)
    (hs : constants.Sound number numbers) {sum : GeometrySum K} (hsum : sum.Readable numbers) :
    (geometryFactor number constants sum).2.Sound number numbers ∧
      constants.constants <+: (geometryFactor number constants sum).2.constants ∧
      ∀ (v : Symbol → K) (e : Env K), e.Knows v (geometryFactor number constants sum).2 →
        ∃ ys, Forall₂ (Expr.Evaluates e.operand)
          (geometryFactor number constants sum).1 ys ∧ ys.prod = sum.value v := by
  rcases ConstantStore.register_sound hnumber hs hsum with ⟨hsound, hgrows, c, hc, hvalue⟩
  -- The constant may have been registered for another sum, but then for one of the same value.
  have hnamed : ∀ (v : Symbol → K) (e : Env K), e.Knows v (constants.register number sum).2 →
      ∃ ys, Forall₂ (Expr.Evaluates e.operand)
        [.name (.constant (constants.register number sum).1)] ys ∧ ys.prod = sum.value v := by
    intro v e hknows
    refine ⟨[sum.value v], Forall₂.cons ?_ Forall₂.nil, prod_singleton⟩
    rw [Expr.Evaluates, Expr.value, Env.operand, declared_eq_ok, hknows _ c hc, hvalue v]
  unfold geometryFactor
  simp only
  split
  · next term hterms =>
    have hterm : sum.value = fun v => term.value v := by
      funext v
      rw [value, hterms, Scalar.sum_eq_sum]
      exact sum_singleton
    by_cases hconstant : term.isConstant = true
    · -- Geometry without symbols is a number.
      have hpowers : term.powers = [] := List.isEmpty_iff.1 hconstant
      have hcoefficient : ∀ v, term.value v = term.coefficient := by
        intro v
        rw [GeometryMonomial.value_eq, hpowers, Powers.value_nil, mul_one]
      rw [if_pos hconstant, hterm]
      refine ⟨hs, List.prefix_refl _, fun v e _ => ?_⟩
      simp only [hcoefficient]
      split
      · next hone => exact ⟨[], Forall₂.nil, (Scalar.eq_eq_true.1 hone).symm⟩
      · exact ⟨[term.coefficient], Forall₂.cons rfl Forall₂.nil, prod_singleton⟩
    · rw [if_neg hconstant]
      exact ⟨hsound, hgrows, hnamed⟩
  · exact ⟨hsound, hgrows, hnamed⟩

namespace PointLoop

variable {constants' : ConstantStore K} {nests nests' : List (Nest K)}

/-- Entries add their statements to nests, and their constants to a store. -/
def Gathers (number : K → String) (numbers : AddSubgroup K) (dims : List Nat) (points : Nat)
    (s s' : ConstantStore K × List (Nest K)) (entries : List (PointEntry K)) : Prop :=
  s'.1.Sound number numbers ∧ s.1.constants <+: s'.1.constants ∧
    ∀ {v : Symbol → K} {e : Env K} {p : Nat}, e.Knows v s'.1 → p < points →
      (∀ x ∈ entries, e.Offers points dims x.weights x.tables) →
      (∀ n ∈ s.2, n.Runs v (e.atPoint points p) dims) →
      (∀ n ∈ s'.2, n.Runs v (e.atPoint points p) dims) ∧ ∀ N ∈ Tuple.all dims,
        (s'.2.map fun n => n.amount v (e.atPoint points p) dims N).sum =
          (s.2.map fun n => n.amount v (e.atPoint points p) dims N).sum +
            (entries.map fun x => e.amount x.weights x.tables (total v x.geometry) p N).sum

theorem step_spec (hnumber : Legible number numbers literal) {entry : PointEntry K}
    (h : step number dims points (constants, nests) entry = .ok (constants', nests'))
    (hs : constants.Sound number numbers) (hreadable : (ofTerms entry.geometry).Readable numbers) :
    Gathers number numbers dims points (constants, nests) (constants', nests') [entry] := by
  unfold step at h
  simp only at h
  split at h
  · next hzero =>
    -- Geometry that vanishes adds nothing.
    cases h
    refine ⟨hs, List.prefix_refl _, fun {v e p} _ _ _ hruns => ⟨hruns, fun N _ => ?_⟩⟩
    have hvalue : total v entry.geometry = 0 := by
      rw [← value_ofTerms, value, List.isEmpty_iff.1 hzero, Scalar.sum_eq_sum]
      rfl
    rw [map_singleton, sum_singleton, Env.amount, hvalue, mul_zero, zero_mul, add_zero]
  · rcases bind_eq_ok.1 h with ⟨pos, hpos, h⟩
    cases h
    rcases geometryFactor_value hnumber hs hreadable with ⟨hsound, hgrows, hgeometry⟩
    refine ⟨hsound, hgrows, fun {v e p} hknows hp hoffers hruns => ?_⟩
    have hvalues : ∀ js, ∃ ys, Forall₂
        (Expr.Evaluates ((e.atPoint points p).bindAll 0 js).operand)
        (geometryFactor number constants (ofTerms entry.geometry)).1 ys ∧
          ys.prod = total v entry.geometry := by
      intro js
      rw [← value_ofTerms]
      -- Loops do not hide the constants declared in front of them.
      refine hgeometry v _ fun k c hc => ?_
      rw [(e.reads_atPoint points p js).constants]
      exact hknows k c hc
    rcases amount_statement (v := v) (n := ⟨_, _⟩) (hoffers entry mem_cons_self) hp hpos
      hvalues rfl rfl with ⟨hrun, hamount⟩
    refine ⟨forall_insert hrun (fun _ hn js hjs => forall_mem_append.2 ⟨hn js hjs, hrun js hjs⟩) hruns,
      fun N hN => ?_⟩
    rw [map_singleton, sum_singleton, ← hamount N hN]
    exact Nest.amount_insert _ _ nests N

theorem foldlM_step (hnumber : Legible number numbers literal) {entries : List (PointEntry K)}
    (h : entries.foldlM (step number dims points) (constants, nests) = .ok (constants', nests'))
    (hs : constants.Sound number numbers)
    (hreadable : ∀ x ∈ entries, (ofTerms x.geometry).Readable numbers) :
    Gathers number numbers dims points (constants, nests) (constants', nests') entries := by
  induction entries generalizing constants nests with
  | nil =>
    rw [foldlM_nil_eq_ok, Prod.mk.injEq] at h
    rcases h with ⟨rfl, rfl⟩
    refine ⟨hs, List.prefix_refl _, fun {v e p} _ _ _ hruns => ⟨hruns, fun N _ => ?_⟩⟩
    rw [map_nil, sum_nil, add_zero]
  | cons x entries ih =>
    rcases foldlM_cons_eq_ok.1 h with ⟨⟨constants₁, nests₁⟩, hstep, hrest⟩
    rw [forall_mem_cons] at hreadable
    rcases step_spec hnumber hstep hs hreadable.1 with ⟨hs₁, hgrows₁, hadd₁⟩
    rcases ih hrest hs₁ hreadable.2 with ⟨hs₂, hgrows₂, hadd₂⟩
    refine ⟨hs₂, hgrows₁.trans hgrows₂, fun {v e p} hknows hp hoffers hruns => ?_⟩
    rw [forall_mem_cons] at hoffers
    -- What the store knows in the end it also knew after this entry.
    rcases hadd₁ (hknows.mono hgrows₂) hp (forall_mem_singleton.2 hoffers.1) hruns with
      ⟨hruns₁, hamount₁⟩
    rcases hadd₂ hknows hp hoffers.2 hruns₁ with ⟨hruns₂, hamount₂⟩
    refine ⟨hruns₂, fun N hN => ?_⟩
    rw [hamount₂ N hN, hamount₁ N hN, map_singleton, sum_singleton, map_cons, sum_cons, add_assoc]

end PointLoop

theorem adds_pointLoop (hnumber : Legible number numbers literal) {factorise : Bool}
    {constants' : ConstantStore K} {terms : List (PointTerm K)} {code : Code K} {operations : Nat}
    (h : pointLoop number factorise dims constants points terms = .ok (code, operations, constants'))
    (hs : constants.Sound number numbers) (hpoints : 0 < points)
    (hreadable : ∀ t ∈ terms, ∀ x ∈ t.products,
      x.geometry.powers.Over Symbol.OneDigit ∧ x.geometry.coefficient ∈ numbers) :
    constants'.Sound number numbers ∧ constants.constants <+: constants'.constants ∧
      ∀ {v : Symbol → K} {e : Env K}, e.Knows v constants' → (∀ c, e.counters c = none) →
        (∀ t ∈ terms, ∀ x ∈ t.products, e.Offers points dims t.weights x.tables) →
        Adds v e dims code fun N =>
          ((range points).map fun p => (terms.map fun t => t.amount v e p N).sum).sum := by
  rcases pointLoop_eq_ok h with ⟨nests, _, hfold, _, _, rfl⟩
  rcases PointLoop.foldlM_step hnumber hfold hs fun x hx => readable_ofTerms
    (PointLoop.forall_entries (Q := fun _ _ => True) factorise
      (fun t ht y hy => ⟨trivial, hreadable t ht y hy⟩) x hx).2 with ⟨hs₁, hgrows, hadd⟩
  refine ⟨hs₁, hgrows, fun {v e} hknows hfree hoffers => ?_⟩
  have hentries : ∀ x ∈ PointLoop.entries factorise terms, e.Offers points dims x.weights x.tables :=
    fun x hx => (PointLoop.forall_entries (R := fun _ => True) factorise
      (fun t ht y hy => ⟨hoffers t ht y hy, trivial⟩) x hx).1
  have hbody : ∀ p < points, Adds v (e.atPoint points p) dims (.all (nests.map Nest.code))
      fun N => (terms.map fun t => t.amount v e p N).sum := by
    intro p hp
    rcases hadd (v := v) hknows hp hentries nofun with
      ⟨hruns, hamount⟩
    refine (adds_all fun n hn => Nest.adds_code (fun k => ?_) (hruns n hn)).congr fun N hN => ?_
    · rw [Env.atPoint_argument, hfree]
    · rw [hamount N hN, map_nil, sum_nil, zero_add, PointLoop.sum_entries]
  unfold loopCode
  by_cases hloop : 1 < points
  · simp only [if_pos hloop]
    refine adds_note (adds_note (adds_last (adds_loop (hfree .point) fun p hp => ?_)) _) _
    have hp := hbody p hp
    rwa [Env.atPoint, if_pos hloop] at hp
  · -- Without a loop the body runs once, at the only point.
    have hone : points = 1 := by omega
    subst hone
    simp only [if_neg hloop]
    refine adds_note (adds_note (adds_note (adds_last (adds_block ?_)) _) _) _
    refine (hbody 0 Nat.one_pos).congr fun N _ => ?_
    exact sum_singleton.symm

end

end WeakForm
