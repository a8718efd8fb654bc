import WeakForm.Proofs.KeptTerms
import WeakForm.Proofs.PositionReading

/-!
# Addresses of quadrature loops

The loops of a case by quadrature read weights, tables and columns by index, and add to
the element tensor at a position that is written as text. `quadratureCase_addresses` says
that no index is out of bounds and that every statement adds at the right entry, for
everything that a run of the code comes to: the position is the row-major number of the
columns that the loop variables stand for, each moved by the offset of its argument, and
lies within what the code clears first.

A nest of loops is told apart by its signature, and the signature decides where all
statements of the nest add. Columns are listed in increasing order, so different iterations
of a nest have different columns, and hence add to different entries.

## Main definitions

* `Locals.address`: The value of a position.

## Theorems

* `Locals.places_injective`: Different iterations add at different multi-indices.
* `Nest.Made.addresses`: The statements of a nest stay within bounds.
* `Nest.From.locals_injective`: Different iterations of a nest add to different entries.
* `quadratureCase_addresses`: All accesses of a case stay within bounds.
-/

namespace WeakForm

open List Success PointLoop Code Locals

variable {α : Type}

theorem lookup_of_mem {β : Type} {xs : List (String × β)} (hxs : (xs.map Prod.fst).Nodup)
    {name : String} {x : β} (h : (name, x) ∈ xs) : xs.lookup name = some x := by
  rcases append_of_mem h with ⟨front, back, rfl⟩
  rw [map_append, map_cons, nodup_append] at hxs
  refine lookup_eq_some_iff.2 ⟨front, back, rfl, fun y hy => bne_iff_ne.2 (Ne.symm ?_)⟩
  exact hxs.2.2 y.1 (mem_map_of_mem hy) name mem_cons_self

namespace Locals

/-- The value of a position, read from its text. -/
def address (s : Locals α) (p : Position) : Option ℚ := Cpp.read s.word? (Code.positionText p)

/-- The multi-index that the statements of a nest add at: for each argument its column, moved by the
    offset. -/
def places (s : Locals α) (signature : Signature) (js : List Nat) : List Nat :=
  List.zipWith (fun x j => (s.column? x.2.1 j).getD 0 + x.2.2) signature js

theorem column?_congr {s s' : Locals α} (h : s.arrays = s'.arrays) : s.column? = s'.column? := by
  unfold column? listed?
  rw [h]

theorem places_congr {s s' : Locals α} (h : s.arrays = s'.arrays) : s.places = s'.places := by
  unfold places
  rw [column?_congr h]

end Locals

namespace ArgumentTable.Readable

variable {s : Locals α} {t : ArgumentTable} {points dim : Nat}
  (hs : (s.arrays.map Prod.fst).Nodup) (h : t.Readable s.arrays points dim)

include hs h

/-- The columns that the loop of an argument stands for are those that are listed. -/
theorem listed :
    ∃ dofs : List Nat, (∀ j < t.table.columns, s.column? t.table.nonzero j = dofs[j]?) ∧
      dofs.length = t.table.columns ∧ dofs.Pairwise (· < ·) ∧ ∀ dof ∈ dofs, dof + t.offset < dim := by
  rcases h.columns with ⟨dofs, hlists, hdofs⟩
  refine ⟨dofs, fun j hj => ?_, hdofs⟩
  unfold TableRef.Lists at hlists
  cases href : t.table.nonzero with
  | some number =>
    rw [href] at hlists
    rw [column?, listed?, lookup_of_mem hs hlists]
  | none =>
    rw [href] at hlists
    rw [column?, hlists, getElem?_range hj]

/-- A column of an argument lies within the element tensor, together with the offset. -/
theorem column {j : Nat} (hj : j < t.table.columns) :
    ∃ column, s.column? t.table.nonzero j = some column ∧ column + t.offset < dim := by
  rcases h.listed hs with ⟨dofs, hlisted, hlength, _, hinside⟩
  have hget := getElem?_eq_getElem (hlength.symm ▸ hj : j < dofs.length)
  exact ⟨_, (hlisted j hj).trans hget, hinside _ (mem_of_getElem? hget)⟩

theorem column_injective {j j' : Nat} (hj : j < t.table.columns) (hj' : j' < t.table.columns)
    (heq : s.column? t.table.nonzero j = s.column? t.table.nonzero j') : j = j' := by
  rcases h.listed hs with ⟨dofs, hlisted, hlength, hincreasing, _⟩
  -- Columns are listed in increasing order, so none is listed twice.
  rw [hlisted j hj, hlisted j' hj'] at heq
  exact (getElem?_inj (hlength.symm ▸ hj) (hincreasing.imp Nat.ne_of_lt)).1 heq

end ArgumentTable.Readable

/-- What the nest of a statement is told apart by. -/
def PointLoop.signature (tables : List ArgumentTable) : Signature :=
  tables.map fun t => (t.table.columns, t.table.nonzero, t.offset)

theorem PointLoop.map_fst_signature (tables : List ArgumentTable) :
    (signature tables).map Prod.fst = tables.map fun t => t.table.columns := by
  rw [signature, map_map]
  rfl

namespace Locals

variable {s : Locals α} {tables : List ArgumentTable} {dims : List Nat} {points : Nat}
  {js js' : List Nat} (hs : (s.arrays.map Prod.fst).Nodup)
  (htables : Forall₂ (fun t dim => t.Readable s.arrays points dim) tables dims)
  (hjs : js ∈ Tuple.all (tables.map fun t => t.table.columns))

include hs htables hjs

theorem places_mem :
    s.places (PointLoop.signature tables) js ∈ Tuple.all dims := by
  rw [Tuple.mem_all_iff] at hjs ⊢
  induction htables generalizing js with
  | nil => exact .nil
  | cons ht _ ih =>
    rcases forall₂_cons_right_iff.1 hjs with ⟨j, js, hj, hrest, rfl⟩
    rcases ht.column hs hj with ⟨column, hcolumn, hinside⟩
    refine .cons ?_ (ih hrest)
    simp only [hcolumn, Option.getD_some]
    exact hinside

theorem places_injective
    (hjs' : js' ∈ Tuple.all (tables.map fun t => t.table.columns))
    (h : s.places (PointLoop.signature tables) js = s.places (PointLoop.signature tables) js') :
    js = js' := by
  rw [Tuple.mem_all_iff] at hjs hjs'
  induction htables generalizing js js' with
  | nil =>
    rw [forall₂_nil_right_iff.1 hjs, forall₂_nil_right_iff.1 hjs']
  | cons ht _ ih =>
    rcases forall₂_cons_right_iff.1 hjs with ⟨j, js, hj, hrest, rfl⟩
    rcases forall₂_cons_right_iff.1 hjs' with ⟨j', js', hj', hrest', rfl⟩
    rcases cons.inj h with ⟨hplace, hplaces⟩
    -- The offset is the same for both, so the columns are equal.
    rcases ht.column hs hj with ⟨column, hcolumn, _⟩
    rcases ht.column hs hj' with ⟨column', hcolumn', _⟩
    simp only [hcolumn, hcolumn', Option.getD_some, Nat.add_right_cancel_iff] at hplace
    rw [ht.column_injective hs hj hj' (by rw [hcolumn, hcolumn', hplace]), ih hrest hrest' hplaces]

end Locals

/-- The indices of an operand are below the extents of the arrays that it reads. A single weight is
    a scalar, and is read without an index. -/
def Operand.Within (s : Locals α) : Operand → Prop
  | weight term inLoop => ∃ ws, s.arrays.lookup (Cpp.weightName term) = some (.weights ws) ∧
    if inLoop then ws.length ≠ 1 ∧ ∃ p, s.counter? .point = some p ∧ p < ws.length
    else ws.length = 1
  | entry number inLoop k => ∃ rows p j, s.arrays.lookup (Cpp.tableName number) = some (.table rows) ∧
    (if inLoop then s.counter? .point = some p else p = 0) ∧ s.counter? (.argument k) = some j ∧
    p < rows.length ∧ ∀ row ∈ rows, j < row.length
  | constant _ | geometry _ _ => True

/-- What a statement reads and where it adds, in a scope: it reads the given tables, one for each
    argument, and adds at a multi-index below the dimensions. The components are the columns that
    the loop variables stand for, moved by the offsets of the tables. A column that is listed is an
    entry of its array, so the loop variable is below the extent of the array. -/
structure Addresses (s : Locals α) (dims : List Nat) (tables : List ArgumentTable)
    (position : Position) (value : Expr Operand α) (places : List Nat) : Prop where
  columns : ∀ k t, tables[k]? = some t → ∃ j column, s.counter? (.argument k) = some j ∧
    s.column? t.table.nonzero j = some column ∧ places[k]? = some (column + t.offset)
  inside : places ∈ Tuple.all dims
  address : s.address position = some ((Tuple.linear dims places : Nat) : ℚ)
  entries : ∀ k t, tables[k]? = some t → ∃ inLoop, .entry t.table.number inLoop k ∈ value.names
  operands : ∀ x ∈ value.names, x.Within s

/-- Weights and tables that a statement can read at each of the given points. -/
structure PointLoop.Readable (arrays : List (String × Contents α)) (points : Nat)
    (dims : List Nat) (weights : Nat) (tables : List ArgumentTable) : Prop where
  weights : ∃ ws, (Cpp.weightName weights, .weights ws) ∈ arrays ∧ ws.length = points
  tables : List.Forall₂ (fun t dim => t.Readable arrays points dim) tables dims

/-- A statement of a nest reads one weight, one entry of each of its tables, and constants. -/
structure Nest.Made (dims : List Nat) (points weights : Nat) (tables : List ArgumentTable)
    (signature : Signature) (x : Position × List (Expr Operand α)) : Prop where
  signature : signature = PointLoop.signature tables
  position : PointLoop.position dims tables = .ok x.1
  names : ∀ y ∈ x.2.flatMap Expr.names, y = .weight weights (points ≠ 1) ∨
    (∃ k t, tables[k]? = some t ∧ y = .entry t.table.number (points ≠ 1) k) ∨
    ∃ number, y = .constant number
  entries : ∀ k t, tables[k]? = some t →
    .entry t.table.number (points ≠ 1) k ∈ x.2.flatMap Expr.names

/-- The statements of a nest are made from weights and tables with a property. -/
def Nest.From (dims : List Nat) (points : Nat) (Q : Nat → List ArgumentTable → Prop)
    (n : Nest α) : Prop :=
  ∀ x ∈ n.statements, ∃ weights tables, Q weights tables ∧
    Made dims points weights tables n.signature x

namespace Nest.Made

variable {dims : List Nat} {points weights p : Nat} {tables : List ArgumentTable}
  {signature : Signature} {x : Position × List (Expr Operand α)} {s : Locals α} {js : List Nat}
  (h : Made dims points weights tables signature x) (hs : (s.arrays.map Prod.fst).Nodup)

include h hs

section

variable (hjs : js ∈ Tuple.all (tables.map fun t => t.table.columns))
  (hcounters : ∀ k j, js[k]? = some j → s.counter? (.argument k) = some j)

include hjs hcounters

/-- The position of a statement is that of the multi-index it adds at. -/
theorem address (htables : Forall₂ (fun t dim => t.Readable s.arrays points dim) tables dims) :
    s.address x.1 = some ((Tuple.linear dims (s.places signature js) : Nat) : ℚ) := by
  have hcolumn : ∀ k (t : ArgumentTable) j, tables[k]? = some t → js[k]? = some j →
      s.index? (t.subscript k).text.toList = some ((s.column? t.table.nonzero j).getD 0) := by
    intro k t j ht hj
    rcases forall₂_get htables ht with ⟨dim, _, hreadable⟩
    rcases get_of_mem_all hjs ht with ⟨j', hj', hlt⟩
    rw [hj, Option.some.injEq] at hj'
    rcases hreadable.column hs (hj' ▸ hlt) with ⟨column, hcolumn, _⟩
    rw [s.index?_subscript t (hcounters k j hj), hcolumn, Option.getD_some]
  have hlength : js.length = tables.length := by
    rw [Tuple.length_of_mem_all hjs, length_map]
  rw [Locals.address, read_position h.position htables.length_eq.symm hlength hcolumn, h.signature,
    Locals.places, PointLoop.signature, zipWith_map_left]

theorem within (hreadable : Readable s.arrays points dims weights tables) (hp : p < points)
    (hpoint : 1 < points → s.counter? .point = some p) :
    ∀ y ∈ x.2.flatMap Expr.names, y.Within s := by
  intro y hy
  rcases h.names y hy with rfl | ⟨k, t, ht, rfl⟩ | ⟨number, rfl⟩
  · rcases hreadable.weights with ⟨ws, hws, hlength⟩
    refine ⟨ws, lookup_of_mem hs hws, ?_⟩
    by_cases hone : points = 1
    · rw [if_neg (by simpa using hone), hlength, hone]
    · rw [if_pos (by simpa using hone), hlength]
      exact ⟨hone, p, hpoint (by omega), hp⟩
  · rcases forall₂_get hreadable.tables ht with ⟨dim, _, htable⟩
    rcases htable.table with ⟨rows, hrows, hlength, hwidth⟩
    rcases get_of_mem_all hjs ht with ⟨j, hj, hlt⟩
    refine ⟨rows, p, j, lookup_of_mem hs hrows, ?_, hcounters k j hj, hlength ▸ hp,
      fun row hrow => (hwidth row hrow).symm ▸ hlt⟩
    by_cases hone : points = 1
    · -- A single point is the first one.
      rw [if_neg (by simpa using hone)]
      omega
    · rw [if_pos (by simpa using hone)]
      exact hpoint (by omega)
  · trivial

end

theorem addresses [Scalar α] (hreadable : Readable s.arrays points dims weights tables) (hp : p < points)
    (hjs : js ∈ Tuple.all (signature.map Prod.fst)) :
    Addresses ((s.atPoint points p).bindAll 0 js) dims tables x.1
      (Expr.productOf (.literal 1) x.2) (s.places signature js) := by
  have harrays : s.arrays = ((s.atPoint points p).bindAll 0 js).arrays := by
    rw [arrays_bindAll, arrays_atPoint]
  have hcounters : ∀ k j, js[k]? = some j →
      ((s.atPoint points p).bindAll 0 js).counter? (.argument k) = some j := by
    intro k j hj
    have hbound := (s.atPoint points p).counter?_bindAll (n := 0) hj
    rwa [Nat.zero_add] at hbound
  have hpoint : 1 < points →
      ((s.atPoint points p).bindAll 0 js).counter? .point = some p := by
    intro hmany
    rw [counter?_bindAll_of_ne _ _ fun k _ => Counter.noConfusion, s.counter?_atPoint p hmany]
  rw [h.signature, map_fst_signature] at hjs
  rw [places_congr harrays]
  rw [harrays] at hs hreadable
  refine ⟨fun k t ht => ?_, ?_, h.address hs hjs hcounters hreadable.tables, fun k t ht => ?_, ?_⟩
  · rcases forall₂_get hreadable.tables ht with ⟨dim, _, htable⟩
    rcases get_of_mem_all hjs ht with ⟨j, hj, hlt⟩
    rcases htable.column hs hlt with ⟨column, hcolumn, _⟩
    refine ⟨j, column, hcounters k j hj, hcolumn, ?_⟩
    rw [h.signature, Locals.places, PointLoop.signature, zipWith_map_left, getElem?_zipWith, ht, hj]
    simp only [hcolumn, Option.getD_some]
  · rw [h.signature]
    exact Locals.places_mem hs hreadable.tables hjs
  · rw [Expr.names_productOf]
    exact ⟨_, h.entries k t ht⟩
  · rw [Expr.names_productOf]
    exact h.within hs hjs hcounters hreadable hp hpoint

end Nest.Made

namespace PointLoop

variable [Scalar α] {dims : List Nat} {points : Nat}
  {Q : Nat → List ArgumentTable → Prop} {number : α → String}

theorem names_geometryFactor (number : α → String) (constants : ConstantStore α)
    (sum : GeometrySum α) :
    ∀ x ∈ (geometryFactor number constants sum).1.flatMap Expr.names, ∃ k, x = .constant k := by
  have hnamed : ∀ k, ∀ x ∈ [(Expr.name (.constant k) : Expr Operand α)].flatMap Expr.names,
      ∃ k, x = .constant k := fun k => forall_mem_singleton.2 ⟨k, rfl⟩
  unfold geometryFactor
  simp only
  split
  · split
    · split
      · exact nofun
      · exact nofun
    · exact hnamed _
  · exact hnamed _

omit [Scalar α] in
theorem made_statement {weights : Nat} {tables : List ArgumentTable} {pos : Position}
    (hpos : position dims tables = .ok pos) {geometry : List (Expr Operand α)}
    (hgeometry : ∀ x ∈ geometry.flatMap Expr.names, ∃ k, x = .constant k) :
    Nest.Made dims points weights tables (signature tables)
      (pos, [Expr.name (.weight weights (points ≠ 1))] ++ (tables.zipIdx.map fun x =>
        Expr.name (.entry x.1.table.number (points ≠ 1) x.2)) ++ geometry) := by
  refine ⟨rfl, hpos, fun y hy => ?_, fun k t ht => ?_⟩
  · rw [flatMap_append, flatMap_append, mem_append, mem_append] at hy
    rcases hy with (hy | hy) | hy
    · exact .inl (mem_singleton.1 hy)
    · rw [flatMap_map] at hy
      rcases mem_flatMap.1 hy with ⟨x, hx, hy⟩
      exact .inr (.inl ⟨x.2, x.1, mem_zipIdx_iff_getElem?.1 hx, mem_singleton.1 hy⟩)
    · exact .inr (.inr (hgeometry y hy))
  · refine mem_flatMap.2 ⟨_, mem_append_left _ (mem_append_right _
      (mem_map.2 ⟨(t, k), mem_zipIdx_iff_getElem?.2 ht, rfl⟩)), mem_singleton_self _⟩

theorem step_from {state state' : ConstantStore α × List (Nest α)} {e : PointEntry α}
    (h : step number dims points state e = .ok state') (he : Q e.weights e.tables)
    (hstate : ∀ n ∈ state.2, n.From dims points Q) : ∀ n ∈ state'.2, n.From dims points Q := by
  unfold step at h
  simp only at h
  split at h
  · -- An entry whose geometry cancels has no statement.
    cases h
    exact hstate
  · rcases bind_eq_ok.1 h with ⟨pos, hpos, h⟩
    cases h
    suffices hmade : ∃ weights tables, Q weights tables ∧
        Nest.Made dims points weights tables (signature e.tables) _ from
      forall_insert (forall_mem_singleton.2 hmade)
        (fun _ hs => forall_mem_append.2 ⟨hs, forall_mem_singleton.2 hmade⟩) hstate
    exact ⟨_, _, he, made_statement hpos (names_geometryFactor _ _ _)⟩

/-- All statements of a loop over points are made from the weights and tables of its terms. -/
theorem foldlM_from {factorise : Bool} {terms : List (PointTerm α)}
    {constants constants' : ConstantStore α} {nests : List (Nest α)}
    (h : (entries factorise terms).foldlM (step number dims points) (constants, []) =
      .ok (constants', nests)) (hQ : ∀ t ∈ terms, ∀ y ∈ t.products, Q t.weights y.tables) :
    ∀ n ∈ nests, n.From dims points Q := by
  have hentries := forall_entries (R := fun _ => True) factorise
    fun t ht y hy => ⟨hQ t ht y hy, trivial⟩
  exact foldlM_invariant (P := fun state => ∀ n ∈ state.2, n.From dims points Q) h
    nofun
    fun e he _ _ hstate hstep => step_from hstep (hentries e he).1 hstate

end PointLoop

namespace Nest

variable [Scalar α]

theorem arrays_code (n : Nest α) : n.code.arrays = [] := by
  rw [code, arrays_loops, arrays_all, flatMap_map, flatMap_eq_nil_iff]
  exact fun _ _ => rfl

theorem mem_visits_code {n : Nest α} {s s' : Locals α} {position : Position} {value : Expr Operand α}
    (h : (.accumulate position value, s') ∈ n.code.visits s) :
    ∃ js ∈ Tuple.all n.ranges, s' = s.bindAll 0 js ∧ ∃ x ∈ n.statements, position = x.1 ∧
      value = Expr.productOf (.literal 1) x.2 := by
  rcases mem_visits_loops h with ⟨k, count, inner, hloop⟩ | ⟨js, hjs, h⟩
  · cases hloop
  · have harrays : ∀ c ∈ n.statements.map fun x =>
        accumulate x.1 (Expr.productOf (.literal 1) x.2), c.arrays = [] :=
      forall_mem_map.2 fun _ _ => rfl
    rw [visits_all harrays, flatMap_map] at h
    rcases mem_flatMap.1 h with ⟨x, hx, h⟩
    rcases Prod.mk.inj (mem_singleton.1 h) with ⟨hcode, hlocals⟩
    rcases accumulate.inj hcode with ⟨hposition, hvalue⟩
    exact ⟨js, hjs, hlocals, x, hx, hposition, hvalue⟩

namespace From

variable {dims : List Nat} {points p : Nat} {Q : Nat → List ArgumentTable → Prop} {n : Nest α}
  {s : Locals α} {position : Position} {value : Expr Operand α} {s' : Locals α}
  (h : n.From dims points Q) (hs : (s.arrays.map Prod.fst).Nodup)
  (hQ : ∀ weights tables, Q weights tables → Readable s.arrays points dims weights tables)
  (hp : p < points)
  (hx : (.accumulate position value, s') ∈ n.code.visits (s.atPoint points p))

include h hs hQ hp hx

theorem addresses :
    ∃ js ∈ Tuple.all n.ranges, s' = (s.atPoint points p).bindAll 0 js ∧
      ∃ weights tables, Q weights tables ∧ n.signature = PointLoop.signature tables ∧
        Addresses s' dims tables position value (s.places n.signature js) := by
  rcases mem_visits_code hx with ⟨js, hjs, rfl, x, hstatement, rfl, rfl⟩
  rcases h x hstatement with ⟨weights, tables, htables, hmade⟩
  exact ⟨js, hjs, rfl, weights, tables, htables, hmade.signature,
    hmade.addresses hs (hQ weights tables htables) hp hjs⟩

theorem locals_injective {position' : Position} {value' : Expr Operand α} {s'' : Locals α}
    (hy : (.accumulate position' value', s'') ∈ n.code.visits (s.atPoint points p))
    (heq : s'.address position = s''.address position') : s' = s'' := by
  rcases h.addresses hs hQ hp hx with ⟨js, hjs, rfl, weights, tables, htables, hsignature, hx⟩
  rcases h.addresses hs hQ hp hy with ⟨js', hjs', rfl, _, _, _, _, hy⟩
  rw [hx.address, hy.address, Option.some.injEq, Nat.cast_inj] at heq
  -- The statements may read different tables, but the signature gives all of them the same places.
  have hplaces := Tuple.linear_injective hx.inside hy.inside heq
  rw [ranges, hsignature, map_fst_signature] at hjs hjs'
  rw [hsignature] at hplaces
  rw [places_injective hs (hQ weights tables htables).tables hjs hjs' hplaces]

end From

end Nest

section

variable {body : Code α} {points operations : Nat} {s : Locals α} {x : Code α × Locals α}
  {number : α → String} {factorise : Bool} {terms : List (PointTerm α)}

theorem arrays_loopCode (points : Nat) (h : body.arrays = []) :
    ∀ c ∈ loopCode points body, c.arrays = [] := by
  unfold loopCode
  split
  · exact forall_mem_singleton.2 h
  · exact forall_mem_cons.2 ⟨rfl, forall_mem_singleton.2 h⟩

theorem mem_visits_loopCode (hpoints : 0 < points) {c : Code α} (hc : c ∈ loopCode points body)
    (hx : x ∈ c.visits s) : x.1.declares = true ∨ x.1 = .loop .point points body ∨
      ∃ p < points, x ∈ body.visits (s.atPoint points p) := by
  unfold loopCode at hc
  split at hc
  · next hmany =>
    rw [mem_singleton.1 hc] at hx
    rcases mem_cons.1 hx with rfl | hx
    · exact .inr (.inl rfl)
    · rcases mem_flatMap.1 hx with ⟨p, hp, hx⟩
      refine .inr (.inr ⟨p, mem_range.1 hp, ?_⟩)
      rwa [atPoint, if_pos hmany]
  · next hone =>
    rcases mem_cons.1 hc with rfl | hc
    · exact .inl (declares_of_mem_visits rfl hx)
    · rw [mem_singleton.1 hc] at hx
      refine .inr (.inr ⟨0, hpoints, ?_⟩)
      rwa [atPoint, if_neg hone]

variable [Scalar α]

/-- What loops over points come to: comments, the loops themselves, and what is in nests whose
    statements are made from given weights and tables. -/
def InLoops (dims : List Nat) (Q : Nat → Nat → List ArgumentTable → Prop) (s : Locals α)
    (x : Code α × Locals α) : Prop :=
  x.1.declares = true ∨ (∃ points body, x.1 = .loop .point points body) ∨
    ∃ (n : Nest α) (points p : Nat), p < points ∧ x ∈ n.code.visits (s.atPoint points p) ∧
      n.From dims points (Q points)

variable {dims : List Nat} {Q : Nat → Nat → List ArgumentTable → Prop} {constants : ConstantStore α}

theorem InLoops.nest (h : InLoops dims Q s x) (hdeclares : x.1.declares = false)
    (hloop : ∀ points body, x.1 ≠ .loop .point points body) :
    ∃ (n : Nest α) (points p : Nat), p < points ∧ x ∈ n.code.visits (s.atPoint points p) ∧
      n.From dims points (Q points) := by
  rcases h with h | ⟨points, body, h⟩ | h
  · exact absurd (hdeclares.symm.trans h) Bool.false_ne_true
  · exact absurd h (hloop points body)
  · exact h

theorem pointLoop_visits {constants' : ConstantStore α} {code : Code α} (hpoints : 0 < points)
    (h : pointLoop number factorise dims constants points terms = .ok (code, operations, constants'))
    (hQ : ∀ t ∈ terms, ∀ y ∈ t.products, Q points t.weights y.tables) :
    code.arrays = [] ∧ ∀ s, ∀ x ∈ code.visits s, InLoops dims Q s x := by
  rcases pointLoop_eq_ok h with ⟨nests, _, hfold, _, _, rfl⟩
  have harrays : ∀ c ∈ nests.map Nest.code, c.arrays = [] :=
    forall_mem_map.2 fun n _ => n.arrays_code
  have hbody : (Code.all (nests.map Nest.code)).arrays = [] := by
    rw [arrays_all]
    exact flatMap_eq_nil_iff.2 harrays
  have hall : ∀ c ∈ [.note ("Loop quadrature points (tensor/monomial terms " ++
        termTuple (terms.map fun t => t.number) ++ ")"),
      .note ("Number of operations to compute element tensor for following IP loop = " ++
        toString operations)] ++ loopCode points (Code.all (nests.map Nest.code)),
      c.arrays = [] := by
    refine forall_mem_append.2 ⟨?_, arrays_loopCode points hbody⟩
    exact forall_mem_cons.2 ⟨rfl, forall_mem_singleton.2 rfl⟩
  refine ⟨?_, fun s x hx => ?_⟩
  · rw [arrays_all]
    exact flatMap_eq_nil_iff.2 hall
  rw [visits_all hall] at hx
  rcases mem_flatMap.1 hx with ⟨c, hc, hx⟩
  rcases mem_append.1 hc with hc | hc
  · have hnote : c.declares = true := by
      rcases mem_cons.1 hc with rfl | hc
      · rfl
      · rw [mem_singleton.1 hc]
        rfl
    exact .inl (declares_of_mem_visits hnote hx)
  · rcases mem_visits_loopCode hpoints hc hx with hx | hx | ⟨p, hp, hx⟩
    · exact .inl hx
    · exact .inr (.inl ⟨_, _, hx⟩)
    · rw [visits_all harrays, flatMap_map] at hx
      rcases mem_flatMap.1 hx with ⟨n, hn, hx⟩
      exact .inr (.inr ⟨n, points, p, hp, hx, foldlM_from hfold hQ n hn⟩)

/-- The statements of all loops are made from the weights and tables of terms with their number of
    points. -/
theorem loops_visits {loops : List (Code α)}
    (h : (byPoints terms).foldlM (loopStep number factorise dims) ([], 0, {}) =
      .ok (loops, operations, constants))
    (hQ : ∀ t ∈ terms, 0 < t.points ∧ ∀ y ∈ t.products, Q t.points t.weights y.tables) :
    (∀ c ∈ loops, c.arrays = []) ∧ ∀ s, ∀ x ∈ (Code.all loops).visits s, InLoops dims Q s x := by
  have hloops : ∀ c ∈ loops, c.arrays = [] ∧ ∀ s, ∀ x ∈ c.visits s, InLoops dims Q s x := by
    refine foldlM_invariant (P := fun state => ∀ c ∈ state.1, c.arrays = [] ∧
      ∀ s, ∀ x ∈ c.visits s, InLoops dims Q s x) h nofun ?_
    intro group hgroup state state' hstate hstep
    rcases loopStep_eq_ok hstep with ⟨code, count, hloop, hcodes, _⟩
    rcases of_mem_byPoints hgroup with ⟨⟨t, ht, hpoints⟩, hgroup⟩
    have hcode := pointLoop_visits (hpoints ▸ (hQ t ht).1) hloop fun t ht y hy =>
      (hgroup t ht).2 ▸ (hQ t (hgroup t ht).1).2 y hy
    rw [hcodes]
    refine forall_mem_append.2 ⟨hstate, forall_mem_cons.2 ⟨⟨rfl, fun s x hx => ?_⟩,
      forall_mem_singleton.2 hcode⟩⟩
    exact .inl (declares_of_mem_visits rfl hx)
  refine ⟨fun c hc => (hloops c hc).1, fun s x hx => ?_⟩
  rw [visits_all fun c hc => (hloops c hc).1] at hx
  rcases mem_flatMap.1 hx with ⟨c, hc, hx⟩
  exact (hloops c hc).2 s x hx

end

section

variable {body : Code α} {x : Code α × Locals α} (stores : Stores α)
  (constants : ConstantStore α)

theorem WeightStore.declares_declarations (s : WeightStore α) : s.declarations.declares = true :=
  declares_all.2 (forall_mem_map.2 fun _ _ => rfl)

theorem TableStore.declares_declarations (s : TableStore α) : s.declarations.declares = true :=
  declares_all.2 (forall_mem_append.2
    ⟨forall_mem_map.2 fun _ _ => rfl, forall_mem_map.2 fun _ _ => rfl⟩)

theorem ConstantStore.declares_declarations [Scalar α] (s : ConstantStore α) :
    s.declarations.declares = true ∧ s.declarations.arrays = [] := by
  have hall : ∀ c ∈ ([.gap] ++ (if 0 < s.operations then
      [.note s!"Number of operations to compute geometry constants = {s.operations}"] else []) ++
      (s.constants.zipIdx.map fun x => .constant x.2 x.1.2) : List (Code α)),
      c.declares = true ∧ c.arrays = [] := by
    refine forall_mem_append.2 ⟨forall_mem_append.2
      ⟨forall_mem_singleton.2 ⟨rfl, rfl⟩, ?_⟩, forall_mem_map.2 fun _ _ => ⟨rfl, rfl⟩⟩
    split
    · exact forall_mem_singleton.2 ⟨rfl, rfl⟩
    · exact nofun
  refine ⟨declares_all.2 fun c hc => (hall c hc).1, ?_⟩
  exact (arrays_all _).trans (flatMap_eq_nil_iff.2 fun c hc => (hall c hc).2)

/-- What stands behind the declarations of a case sees all of them. -/
theorem Stores.mem_visits_declared [Scalar α] (h : x ∈ (Code.all [stores.weights.declarations,
      stores.tables.declarations, constants.declarations, .block body]).visits {}) :
    x.1.declares = true ∨ x ∈ body.visits { arrays := stores.arrays } := by
  rcases mem_visits_seq_of_declares stores.weights.declares_declarations h with h | h
  · exact .inl h
  rcases mem_visits_seq_of_declares stores.tables.declares_declarations h with h | h
  · exact .inl h
  rcases mem_visits_seq_of_declares constants.declares_declarations.1 h with h | h
  · exact .inl h
  rw [constants.declares_declarations.2, declare_nil] at h
  rcases mem_append.1 h with h | h
  · exact .inr h
  · cases h

theorem Stores.arrays_declared [Scalar α] (h : body.arrays = []) :
    (Code.all [stores.weights.declarations, stores.tables.declarations, constants.declarations,
      .block body]).arrays = stores.arrays := by
  rw [arrays_all, Stores.arrays]
  simp only [flatMap_cons, flatMap_nil, constants.declares_declarations.2, Code.arrays, h,
    append_nil]

theorem Code.mem_visits_reset {size : Nat} {s : Locals α} (h : x ∈ (reset size).visits s) :
    x.1.declares = true ∨ x.1 = loop (.argument 0) size (clear (.name (.counter 0))) ∨
      x.1 = clear (.name (.counter 0)) := by
  have harrays : ∀ c ∈ [note "Reset values of the element tensor block",
      loop (.argument 0) size (clear (.name (.counter 0))), (gap : Code α)], c.arrays = [] :=
    forall_mem_cons.2 ⟨rfl, forall_mem_cons.2 ⟨rfl, forall_mem_singleton.2 rfl⟩⟩
  rw [reset, visits, visits_all harrays] at h
  rcases mem_cons.1 h with rfl | h
  · exact .inl rfl
  rcases mem_cons.1 h with rfl | h
  · exact .inr (.inl rfl)
  rcases mem_append.1 h with h | h
  · rcases mem_flatMap.1 h with ⟨i, _, h⟩
    rw [mem_singleton.1 h]
    exact .inr (.inr rfl)
  · rw [mem_singleton.1 h]
    exact .inl rfl

end

section

variable [Scalar α] {s : Setting α} {f : Form α} {d : Dimensions} {kind : Integral}
  {ms : List (Monomial α)} {facets : Facets} {c : CaseCode α}

/-- Weights and tables that belong to one of some monomials and can be read. -/
def Form.Reads (f : Form α) (kind : Integral) (ms : List (Monomial α)) (facets : Facets)
    (arrays : List (String × Contents α)) (points weights : Nat) (tables : List ArgumentTable) :
    Prop :=
  (∃ m ∈ ms, tables.map ArgumentTable.offset = f.offsetsOn m facets) ∧
    PointLoop.Readable arrays points (macroDims f kind) weights tables

section

variable [LawfulKeys α] (hpair : facets.2.isSome → facets.1.isSome)
  (hinterior : facets.2.isSome → kind = .interiorFacet) (hgauss : ∀ n, 0 < n → s.gauss n ≠ [])
  (htabulator : ∀ e ∈ f.arguments, s.tabulator.Shaped e)
  (h : quadratureCase s f d kind ms facets = .ok c)

include hpair hinterior hgauss htabulator h

/-- A case by quadrature comes to the clearing, and to its loops in the scope of everything that it
    declares. -/
theorem quadratureCase_visits :
    (c.code.arrays.map Prod.fst).Nodup ∧ ∀ x ∈ c.code.visits {},
      x ∈ (reset (macroDims f kind).prod).visits {} ∨
      x.1.assigns = false ∧ InLoops (macroDims f kind) (f.Reads kind ms facets c.code.arrays)
        { arrays := c.code.arrays } x := by
  rcases quadratureCase_eq_ok h with
    ⟨terms, stores, loops, operations, constants, hstore, hloops, _, hcode⟩
  rcases storeTerms_kept hstore fun m _ t ht =>
    quadratureTerm_rectangular hpair hgauss htabulator ht with ⟨calls, bound, hready, hkept⟩
  have hreads : ∀ t ∈ terms, 0 < t.points ∧ ∀ y ∈ t.products,
      f.Reads kind ms facets stores.arrays t.points t.weights y.tables := by
    intro x hx
    rcases hkept x hx with ⟨t, ⟨m, hm, hterm⟩, hkept⟩
    rcases hkept.readable hready hpair hinterior hgauss htabulator hterm with
      ⟨hpoints, hweights, hproducts⟩
    exact ⟨hpoints, fun y hy => ⟨⟨m, hm, (hproducts y hy).1⟩, hweights, (hproducts y hy).2⟩⟩
  rcases loops_visits hloops hreads with ⟨hnone, hvisits⟩
  have hclear : (if s.options.resetTensor then reset (macroDims f kind).prod
      else .skip : Code α).arrays = [] := by
    split
    · rfl
    · rfl
  have harrays : c.code.arrays = stores.arrays := by
    rw [hcode, Code.arrays, hclear, nil_append]
    refine stores.arrays_declared constants ?_
    rw [arrays_all]
    exact flatMap_eq_nil_iff.2 hnone
  rw [harrays]
  refine ⟨hready.nodup_names, fun x hx => ?_⟩
  rw [hcode] at hx
  rcases mem_append.1 hx with hx | hx
  · split at hx
    · exact .inl hx
    · cases hx
  rw [locals_of_arrays hclear] at hx
  refine .inr ⟨?_, ?_⟩
  · -- Only the clearing assigns, and everything else adds.
    by_contra hassigns
    rw [Bool.not_eq_false] at hassigns
    exact Bool.false_ne_true
      ((assigns_stored stores hloops).symm.trans (assigns_of_mem_visits hx hassigns))
  · rcases stores.mem_visits_declared constants hx with hx | hx
    · exact .inl hx
    · exact hvisits _ x hx

/-- Every statement that adds, and every loop over an argument around one, is in a nest. The clearing
    also loops over an argument, but adds nothing. -/
theorem quadratureCase_nest {x : Code α × Locals α} (hx : x ∈ c.code.visits {})
    (hloop : ∀ points body, x.1 ≠ .loop .point points body)
    {position : Position} {value : Expr Operand α} {s' : Locals α}
    (hstatement : (.accumulate position value, s') ∈ x.1.visits x.2) :
    ∃ (n : Nest α) (points p : Nat), p < points ∧
      x ∈ n.code.visits (atPoint { arrays := c.code.arrays } points p) ∧
      n.From (macroDims f kind) points (f.Reads kind ms facets c.code.arrays points) := by
  rcases (quadratureCase_visits hpair hinterior hgauss htabulator h).2 x hx with hx | ⟨_, hx⟩
  · rcases mem_visits_reset (mem_visits_of_mem hx hstatement) with h | h | h
    · cases h
    · cases h
    · cases h
  · refine hx.nest ?_ hloop
    by_contra hdeclares
    rw [Bool.not_eq_false] at hdeclares
    exact absurd (declares_of_mem_visits hdeclares hstatement) Bool.false_ne_true

end

/-- All accesses of the loops of a case by quadrature are within bounds and address the right entry.

    No array is declared twice. The one loop that clears runs over as many entries as the element
    tensor has. Each statement, in each iteration of the loops around it, reads its weight, the rows
    and columns of its tables and the listed columns within their extents, and the text of its
    position is the row-major number of the columns moved by the offsets of a monomial, which is one
    of the entries that are cleared. Different iterations of a nest add to different entries. -/
theorem quadratureCase_addresses [LawfulKeys α] (hpair : facets.2.isSome → facets.1.isSome)
    (hinterior : facets.2.isSome → kind = .interiorFacet)
    (hgauss : ∀ n, 0 < n → s.gauss n ≠ [])
    (htabulator : ∀ e ∈ f.arguments, s.tabulator.Shaped e)
    (h : quadratureCase s f d kind ms facets = .ok c) :
    (c.code.arrays.map Prod.fst).Nodup ∧
    (∀ counter count p s', (.loop counter count (.clear p), s') ∈ c.code.visits {} →
      counter = .argument 0 ∧ count = (macroDims f kind).prod ∧ p = .name (.counter 0)) ∧
    (s.options.resetTensor = true →
      (.loop (.argument 0) (macroDims f kind).prod (.clear (.name (.counter 0))), {}) ∈
        c.code.visits {}) ∧
    (∀ position value s', (.accumulate position value, s') ∈ c.code.visits {} →
      ∃ m ∈ ms, ∃ tables places, tables.map ArgumentTable.offset = f.offsetsOn m facets ∧
        Addresses s' (macroDims f kind) tables position value places ∧
        Tuple.linear (macroDims f kind) places < (macroDims f kind).prod) ∧
    ∀ k count body s₁, (.loop (.argument k) count body, s₁) ∈ c.code.visits {} →
      ∀ position value s₂ position' value' s₃,
        (.accumulate position value, s₂) ∈ (Code.loop (.argument k) count body).visits s₁ →
        (.accumulate position' value', s₃) ∈ (Code.loop (.argument k) count body).visits s₁ →
        s₂.address position = s₃.address position' → s₂ = s₃ := by
  rcases quadratureCase_visits hpair hinterior hgauss htabulator h with ⟨hnodup, hvisits⟩
  refine ⟨hnodup, fun counter count p s' hx => ?_, fun hreset => ?_,
    fun position value s' hx => ?_,
    fun k count body s₁ hx position value s₂ position' value' s₃ hfirst hsecond heq => ?_⟩
  · -- A loop that clears assigns, so it is that of the clearing.
    rcases hvisits _ hx with hx | ⟨hassigns, _⟩
    · rcases Code.mem_visits_reset hx with h | h | h
      · exact absurd h Bool.false_ne_true
      · rcases Code.loop.inj h with ⟨hcounter, hcount, hbody⟩
        exact ⟨hcounter, hcount, Code.clear.inj hbody⟩
      · exact absurd h (by simp)
    · exact absurd hassigns.symm Bool.false_ne_true
  · rcases quadratureCase_eq_ok h with ⟨_, _, _, _, _, _, _, _, hcode⟩
    rw [hcode, if_pos hreset]
    exact List.mem_append_left _ (List.mem_cons_of_mem _ List.mem_cons_self)
  · rcases quadratureCase_nest hpair hinterior hgauss htabulator h hx (by simp)
      (List.mem_singleton_self _) with ⟨n, points, p, hp, hx, hfrom⟩
    rcases hfrom.addresses hnodup (fun _ _ hreads => hreads.2) hp hx with
      ⟨js, _, _, _, tables, ⟨⟨m, hm, hoffsets⟩, _⟩, _, haddresses⟩
    exact ⟨m, hm, tables, _, hoffsets, haddresses, Tuple.linear_lt haddresses.inside⟩
  · -- Everything in a loop over an argument is in the nest of that loop.
    rcases quadratureCase_nest hpair hinterior hgauss htabulator h hx (by simp) hfirst with
      ⟨n, points, p, hp, hx, hfrom⟩
    exact hfrom.locals_injective hnodup (fun _ _ hreads => hreads.2) hp
      (Code.mem_visits_of_mem hx hfirst) (Code.mem_visits_of_mem hx hsecond) heq

end

/-- A statement with listed columns on the far side of a facet, at the last point. -/
theorem quadratureCase_addresses_jumps : ∃ c position value s' tables places,
    quadratureCase mergingSetting jumps ⟨2, 2, by decide, by decide, by decide⟩ .interiorFacet
      jumps.monomials (some 0, some 2) = .ok c ∧
    (.accumulate position value, s') ∈ c.code.visits {} ∧
    Code.positionText position = "(nzc1[j] + 3)*6 + nzc1[k] + 3" ∧
    s'.counters = [("k", 1), ("j", 1), ("ip", 1)] ∧
    Addresses s' [6, 6] tables position value places ∧ Tuple.linear [6, 6] places < 36 := by
  have hvisited : ((quadratureCase mergingSetting jumps ⟨2, 2, by decide, by decide, by decide⟩
      .interiorFacet jumps.monomials (some 0, some 2)).toOption.any fun c =>
      (c.code.visits {}).any fun x => x.2.counters = [("k", 1), ("j", 1), ("ip", 1)] &&
        match x.1 with
        | .accumulate position _ => Code.positionText position = "(nzc1[j] + 3)*6 + nzc1[k] + 3"
        | _ => false) = true := by
    -- Sorting does not evaluate, but the nodes are sorted already.
    unfold quadratureCase storeTerms quadratureTerm Rule.reference Rule.simplex Rule.collapsed
      Gauss.rule Gauss.symmetrize
    simp only [sorted_mergingSetting]
    decide +kernel
  rcases exists_of_any hvisited with ⟨c, hc, hvisited⟩
  rcases List.any_eq_true.1 hvisited with ⟨⟨code, s'⟩, hx, hchecks⟩
  rw [Bool.and_eq_true, decide_eq_true_eq] at hchecks
  rcases hchecks with ⟨hcounters, htext⟩
  have hgauss : ∀ n, 0 < n → mergingSetting.gauss n ≠ [] := by
    intro n _
    change (if n = 1 then _ else _) ≠ []
    split
    · exact List.cons_ne_nil _ _
    · exact List.cons_ne_nil _ _
  rcases quadratureCase_addresses (fun _ => rfl) (fun _ => rfl) hgauss
    (fun e _ => Tabulator.shaped_lagrange e) hc with ⟨_, _, _, haddresses, _⟩
  cases code with
  | accumulate position value =>
    rcases haddresses position value s' hx with ⟨_, _, tables, places, _, haddresses, hlt⟩
    exact ⟨c, position, value, s', tables, places, hc, hx, of_decide_eq_true htext, hcounters,
      haddresses, hlt⟩
  | _ => exact absurd htext Bool.false_ne_true

end WeakForm
