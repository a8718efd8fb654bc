import WeakForm.Proofs.Stores

/-!
# What statements read and where they add

A statement of a nest of loops reads one weight and one entry of a stored table for each
argument, and adds to one entry of the element tensor. A stored table may hold some of
the columns of the table it stands for. The loop of its argument then runs over the
stored columns, and the position looks up which column that is.

`position_value` says that the position of a statement is the row-major position of a
multi-index, with the offsets of the arguments added. Run for all stored columns, the
statement adds to the entry at a multi-index the product of what the tables hold for
the components of that multi-index: `sum_statement` is the distributive law that turns
the sum over tuples of columns into this product. A stored table and the table it stands
for hold the same for every column (`ArgumentTable.Stands.amount_eq`), so compression is
no longer visible from there on.

## Theorems

* `PointLoop.sum_statement`: What a statement adds in all of its loops.
-/

namespace WeakForm

open List Success Position

section

variable {K : Type}

/-- What is in scope at a quadrature point. A single point needs no loop. -/
def Env.atPoint (e : Env K) (points p : Nat) : Env K := if 1 < points then e.bind .point p else e

namespace Env

variable (e : Env K) (points p : Nat)

theorem atPoint_declarations : (e.atPoint points p).weights = e.weights ∧
    (e.atPoint points p).tables = e.tables ∧ (e.atPoint points p).columns = e.columns ∧
    (e.atPoint points p).constants = e.constants := by
  unfold atPoint
  split
  · exact ⟨rfl, rfl, rfl, rfl⟩
  · exact ⟨rfl, rfl, rfl, rfl⟩

theorem atPoint_argument (k : Nat) :
    (e.atPoint points p).counters (.argument k) = e.counters (.argument k) := by
  unfold atPoint
  split
  · exact e.bind_counters_of_ne p Counter.noConfusion
  · rfl

theorem atPoint_point (h : 1 < points) : (e.atPoint points p).counters .point = some p := by
  unfold atPoint
  rw [if_pos h, bind_counters_self]

end Env

/-- What is read at a point: the weights and tables in scope, and the loop variables. -/
structure Env.Reads (e' e : Env K) (points p : Nat) (js : List Nat) : Prop where
  weights : e'.weights = e.weights
  tables : e'.tables = e.tables
  columns : e'.columns = e.columns
  constants : e'.constants = e.constants
  point : 1 < points → e'.counters .point = some p
  argument : ∀ k j, js[k]? = some j → e'.counters (.argument k) = some j

theorem Env.Reads.current {e' e : Env K} {points p : Nat} {js : List Nat}
    (h : e'.Reads e points p js) (hp : p < points) {β : Type} {xs : List β} {x : β}
    (hx : xs[p]? = some x) : e'.current (points ≠ 1) xs = .ok x := by
  unfold Env.current
  by_cases hone : points = 1
  · -- A single point is the first one.
    have hzero : p = 0 := by omega
    rw [if_neg (by simp [hone]), entryAt_eq_ok, ← hzero, hx]
  · rw [if_pos (by simp [hone]), bind_eq_ok]
    exact ⟨p, declared_eq_ok.2 (h.point (by omega)), entryAt_eq_ok.2 hx⟩

theorem Env.Reads.weight {e' e : Env K} {points p : Nat} {js : List Nat}
    (h : e'.Reads e points p js) (hp : p < points) {name : Nat} {weights : List K}
    (hweights : e.weights name = some weights) (hlength : weights.length = points) {w : K}
    (hw : weights[p]? = some w) : e'.operand (.weight name (points ≠ 1)) = .ok w := by
  rw [Env.operand, bind_eq_ok]
  refine ⟨weights, declared_eq_ok.2 (h.weights ▸ hweights), bind_eq_ok.2 ⟨(),
    Checked.require_eq_ok.2 ?_, h.current hp hw⟩⟩
  -- The loop flag of the statement agrees with how the weights were declared.
  rw [hlength]
  by_cases hone : points = 1 <;> simp [hone]

theorem Env.reads_atPoint (e : Env K) (points p : Nat) (js : List Nat) :
    ((e.atPoint points p).bindAll 0 js).Reads e points p js := by
  rcases (e.atPoint points p).bindAll_declarations 0 js with ⟨hw, ht, hc, hk, hp⟩
  rcases e.atPoint_declarations points p with ⟨hw', ht', hc', hk'⟩
  refine ⟨hw.trans hw', ht.trans ht', hc.trans hc', hk.trans hk', fun h => ?_, fun k j hj => ?_⟩
  · rw [hp, Env.atPoint_point _ _ _ h]
  · have hbound := (e.atPoint points p).bindAll_counters (n := 0) hj
    rwa [Nat.zero_add] at hbound

end

section

variable {K : Type} [Field K] {β : Type} {read : Subscript → Checked Nat} {xs : List β}

/-- The table of an argument can be read at every point, and its entries go to components below a
    dimension. -/
def ArgumentTable.Stands (e : Env K) (points dim : Nat) (t : ArgumentTable) (rows : List (List K)) :
    Prop :=
  t.table.Holds e.tables e.columns rows ∧ rows.length = points ∧
    ∀ row ∈ rows, row.length + t.offset ≤ dim

/-- The entry of a stored table at a point and a column. -/
def ArgumentTable.cell (e : Env K) (t : ArgumentTable) (p j : Nat) : K :=
  ((((e.tables t.table.number).getD [])[p]?.getD [])[j]?).getD 0

/-- What a table holds at a point for a component of a multi-index. -/
def ArgumentTable.amount (e : Env K) (t : ArgumentTable) (p i : Nat) : K :=
  ((List.range t.table.columns).map fun j =>
    if t.table.column e.columns j + t.offset = i then t.cell e p j else 0).sum

namespace ArgumentTable.Stands

variable {e e' : Env K} {points dim p k j : Nat} {js : List Nat} {t : ArgumentTable}
  {rows : List (List K)} (h : t.Stands e points dim rows)

include h

theorem get (hp : p < points) : ∃ row ∈ rows, rows[p]? = some row := by
  have hlt : p < rows.length := h.2.1 ▸ hp
  exact ⟨rows[p], getElem_mem hlt, getElem?_eq_getElem hlt⟩

theorem stored (hp : p < points) (hlt : j < t.table.columns) :
    t.cell e p j = (rows[p]?.getD [])[t.table.column e.columns j]?.getD 0 ∧
      ∃ stored row, e.tables t.table.number = some stored ∧ stored[p]? = some row ∧
        row[j]? = some (t.cell e p j) := by
  rcases h.get hp with ⟨row, _, hrow⟩
  -- A stored row lists the entries of the columns that are held.
  have hcell : (rows.map fun row => (range t.table.columns).map fun j =>
      row[t.table.column e.columns j]?.getD 0)[p]? =
      some ((range t.table.columns).map fun j => row[t.table.column e.columns j]?.getD 0) := by
    rw [getElem?_map, hrow]
    rfl
  have heq : t.cell e p j = row[t.table.column e.columns j]?.getD 0 := by
    rw [ArgumentTable.cell, h.1.stored, Option.getD_some, hcell, Option.getD_some, getElem?_map,
      getElem?_range hlt]
    rfl
  refine ⟨by rw [heq, hrow, Option.getD_some], _, _, h.1.stored, hcell, ?_⟩
  rw [heq, getElem?_map, getElem?_range hlt]
  rfl

theorem operand (hp : p < points) (hreads : e'.Reads e points p js) (hj : js[k]? = some j)
    (hlt : j < t.table.columns) :
    e'.operand (.entry t.table.number (points ≠ 1) k) = .ok (t.cell e p j) := by
  rcases (h.stored hp hlt).2 with ⟨stored, row, hstored, hrow, hcell⟩
  rw [Env.operand, bind_eq_ok]
  exact ⟨stored, declared_eq_ok.2 (hreads.tables ▸ hstored), bind_eq_ok.2 ⟨row,
    hreads.current hp hrow, bind_eq_ok.2 ⟨j, declared_eq_ok.2 (hreads.argument k j hj),
      entryAt_eq_ok.2 hcell⟩⟩⟩

theorem subscript (hreads : e'.Reads e points p js) (hj : js[k]? = some j)
    (hlt : j < t.table.columns) : value e'.subscript (match t.table.nonzero with
      | some columns => .name (.column columns k)
      | none => .name (.counter k)) = .ok (t.table.column e.columns j) := by
  have hcounter := declared_eq_ok.2 (hreads.argument k j hj)
  unfold TableRef.column
  cases href : t.table.nonzero with
  | none =>
    rw [value]
    exact hcounter
  | some number =>
    rcases h.1.listed number href with ⟨cols, hcols, hlength⟩
    simp only [value, Env.subscript, bind_eq_ok]
    refine ⟨cols, declared_eq_ok.2 (hreads.columns ▸ hcols), j, hcounter, ?_⟩
    rw [entryAt_eq_ok, hcols, Option.getD_some, getElem?_eq_getElem (hlength ▸ hlt),
      Option.getD_some]

theorem column_lt (hp : p < points) (hlt : j < t.table.columns) :
    t.table.column e.columns j + t.offset < dim := by
  rcases h.get hp with ⟨row, hrow, _⟩
  have hinside := h.1.inside j hlt row hrow
  have hdim := h.2.2 row hrow
  omega

/-- What a table holds for a component is the entry of the table it stands for, moved by the
    offset. -/
theorem amount_eq (hp : p < points) (i : Nat) :
    t.amount e p i = if t.offset ≤ i then (rows[p]?.getD [])[i - t.offset]?.getD 0 else 0 := by
  rcases h.get hp with ⟨row, hmem, hrow⟩
  unfold ArgumentTable.amount
  split
  · next hle =>
    rw [hrow, Option.getD_some, ← h.1.sum_column hmem (i - t.offset)]
    refine congrArg List.sum (map_congr_left fun j hj => ?_)
    rw [(h.stored hp (mem_range.1 hj)).1, hrow, Option.getD_some]
    have hiff : t.table.column e.columns j + t.offset = i ↔
        t.table.column e.columns j = i - t.offset := by omega
    simp only [hiff]
  · next hlt =>
    -- The component lies in front of all that the offset leaves for this table.
    refine sum_eq_zero fun x hx => ?_
    rcases mem_map.1 hx with ⟨j, _, rfl⟩
    exact if_neg (by omega)

end ArgumentTable.Stands

theorem Position.value_foldl_add {part : β → Position} {value : β → Nat} {a : Position} {n : Nat}
    (ha : Position.value read a = .ok n)
    (h : ∀ x ∈ xs, Position.value read (part x) = .ok (value x)) :
    Position.value read ((xs.map part).foldl Expr.add a) = .ok (n + (xs.map value).sum) := by
  induction xs generalizing a n with
  | nil => exact ha
  | cons x xs ih =>
    rw [forall_mem_cons] at h
    rw [map_cons, map_cons, sum_cons, ← Nat.add_assoc, foldl_cons]
    refine ih ?_ h.2
    rw [Position.value, ha, h.1]
    rfl

theorem Position.value_sumOf {part : β → Position} {value : β → Nat}
    (h : ∀ x ∈ xs, Position.value read (part x) = .ok (value x)) :
    Position.value read (Expr.sumOf (.literal 0) (xs.map part)) = .ok (xs.map value).sum := by
  cases xs with
  | nil => rfl
  | cons x xs =>
    rw [forall_mem_cons] at h
    rw [map_cons, map_cons, sum_cons]
    exact value_foldl_add h.1 h.2

/-- The number of a tuple as a sum over its entries with their strides. -/
theorem Tuple.linear_zipWith (f : β → Nat → Nat) {dims js : List Nat}
    (hdims : dims.length = xs.length) (hjs : js.length = xs.length) :
    Tuple.linear dims (zipWith f xs js) =
      (xs.zipIdx.map fun x => f x.1 (js[x.2]?.getD 0) * (dims.drop (x.2 + 1)).prod).sum := by
  induction xs generalizing dims js with
  | nil =>
    rw [length_eq_zero_iff.1 hdims]
    rfl
  | cons x xs ih =>
    rcases exists_cons_of_length_eq_add_one hdims with ⟨dim, dims, rfl⟩
    rcases exists_cons_of_length_eq_add_one hjs with ⟨j, js, rfl⟩
    rw [zipWith_cons_cons, Tuple.linear, ih (Nat.succ.inj hdims) (Nat.succ.inj hjs), zipIdx_cons',
      map_cons, sum_cons, map_map]
    rfl

namespace PointLoop

variable {e e' : Env K} {points p : Nat} {js : List Nat} {tables : List ArgumentTable}

theorem positionPart_value {k j dim : Nat} {t : ArgumentTable} {rows : List (List K)}
    (h : t.Stands e points dim rows) (hreads : e'.Reads e points p js) (hj : js[k]? = some j)
    (hlt : j < t.table.columns) (stride : Nat) : value e'.subscript (positionPart k t stride) =
      .ok ((t.table.column e.columns j + t.offset) * stride) := by
  have hbase := h.subscript hreads hj hlt
  -- Brackets and a stride of one do not change the value.
  have hmoved : ∀ (base : Position) (column : Nat), value e'.subscript base = .ok column →
      value e'.subscript (if 0 < t.offset then
        (if stride = 1 then base + .literal t.offset else .group (base + .literal t.offset))
        else base) = .ok (column + t.offset) := by
    intro base column hcolumn
    have hsum : value e'.subscript (base + .literal t.offset) = .ok (column + t.offset) := by
      change value e'.subscript (.add base (.literal t.offset)) = _
      rw [value, hcolumn]
      rfl
    split
    · split
      · exact hsum
      · rw [value]
        exact hsum
    · next hoffset => rw [hcolumn, Nat.eq_zero_of_not_pos hoffset, Nat.add_zero]
  unfold positionPart
  simp only
  split
  · next hone =>
    rw [hone, Nat.mul_one]
    have hpart := hmoved _ _ hbase
    simp only [hone, if_true] at hpart
    exact hpart
  · next hone =>
    have hpart := hmoved _ _ hbase
    simp only [hone, if_false] at hpart
    change value e'.subscript (.mul _ _) = _
    rw [value]
    exact bind_eq_ok.2 ⟨_, hpart, rfl⟩

/-- Where a statement adds for given columns of its tables. -/
def places (e : Env K) (tables : List ArgumentTable) (js : List Nat) : List Nat :=
  List.zipWith (fun t j => t.table.column e.columns j + t.offset) tables js

theorem get_of_mem_all {t : ArgumentTable} {k : Nat}
    (hjs : js ∈ Tuple.all (tables.map fun t => t.table.columns)) (ht : tables[k]? = some t) :
    ∃ j, js[k]? = some j ∧ j < t.table.columns := by
  have hcolumns : (tables.map fun t => t.table.columns)[k]? = some t.table.columns := by
    rw [getElem?_map, ht]
    rfl
  exact forall₂_get (Tuple.mem_all_iff.1 hjs).flip hcolumns

theorem position_value {dims : List Nat} {pos : Position} (h : position dims tables = .ok pos)
    (hstands : Forall₂ (fun t dim => ∃ rows, t.Stands e points dim rows) tables dims)
    (hjs : js ∈ Tuple.all (tables.map fun t => t.table.columns)) (hreads : e'.Reads e points p js) :
    value e'.subscript pos = .ok (Tuple.linear dims (places e tables js)) := by
  rcases bind_eq_ok.1 h with ⟨parts, hparts, hpos⟩
  rw [pure_eq_ok] at hpos
  have hmap : parts = tables.zipIdx.map fun x =>
      positionPart x.2 x.1 (dims.drop (x.2 + 1)).prod := by
    refine mapM_eq_map hparts fun x _ part hpart => ?_
    rcases bind_eq_ok.1 hpart with ⟨stride, hstride, hpart⟩
    rw [← pure_eq_ok.1 hpart, Size.product_eq_prod hstride]
  have hlength : js.length = tables.length := by
    rw [Tuple.length_of_mem_all hjs, length_map]
  rw [← hpos, hmap, places, Tuple.linear_zipWith _ hstands.length_eq.symm hlength]
  refine value_sumOf fun x hx => ?_
  rcases x with ⟨t, k⟩
  have hget := mem_zipIdx_iff_getElem?.1 hx
  rcases forall₂_get hstands hget with ⟨dim, _, rows, hrows⟩
  rcases get_of_mem_all hjs hget with ⟨j, hj, hlt⟩
  rw [hj, Option.getD_some]
  exact positionPart_value hrows hreads hj hlt _

theorem places_mem {dims : List Nat}
    (hstands : Forall₂ (fun t dim => ∃ rows, t.Stands e points dim rows) tables dims)
    (hjs : js ∈ Tuple.all (tables.map fun t => t.table.columns)) (hp : p < points) :
    places e tables js ∈ Tuple.all dims := by
  rw [Tuple.mem_all_iff] at hjs ⊢
  unfold places
  induction hstands generalizing js with
  | nil => exact Forall₂.nil
  | cons ht _ ih =>
    rw [map_cons] at hjs
    rcases forall₂_cons_right_iff.1 hjs with ⟨j, js, hj, hrest, rfl⟩
    rcases ht with ⟨rows, hrows⟩
    exact Forall₂.cons (hrows.column_lt hp hj) (ih hrest)

theorem prod_select (f : β → Nat → Nat) (g : β → Nat → K) {N : List Nat} (hN : N.length = xs.length)
    (hjs : js.length = xs.length) : (zipWith (fun h j => h j)
      (zipWith (fun x i j => if f x j = i then g x j else 0) xs N) js).prod =
      if zipWith f xs js = N then (zipWith g xs js).prod else 0 := by
  induction xs generalizing N js with
  | nil =>
    rw [length_eq_zero_iff.1 hN]
    simp
  | cons x xs ih =>
    rcases exists_cons_of_length_eq_add_one hN with ⟨i, N, rfl⟩
    rcases exists_cons_of_length_eq_add_one hjs with ⟨j, js, rfl⟩
    simp only [zipWith_cons_cons, prod_cons, cons.injEq, ih (Nat.succ.inj hN) (Nat.succ.inj hjs)]
    -- Both sides vanish unless all conditions hold.
    by_cases hi : f x j = i
    · by_cases hrest : zipWith f xs js = N
      · rw [if_pos hi, if_pos hrest, if_pos ⟨hi, hrest⟩]
      · rw [if_neg hrest, mul_zero, if_neg fun h => hrest h.2]
    · rw [if_neg hi, zero_mul, if_neg fun h => hi h.1]

theorem zipWith_zipWith_map {γ δ ε ζ : Type} (h : δ → ε → ζ) (f : β → γ → δ) (g : β → ε)
    (xs : List β) (ys : List γ) : zipWith h (zipWith f xs ys) (xs.map g) =
      zipWith (fun x y => h (f x y) (g x)) xs ys := by
  induction xs generalizing ys with
  | nil => simp
  | cons x xs ih =>
    cases ys with
    | nil => simp
    | cons y ys => rw [zipWith_cons_cons, map_cons, zipWith_cons_cons, ih, zipWith_cons_cons]

theorem sum_statement {N : List Nat} (hN : N.length = tables.length) (w g : K) :
    ((Tuple.all (tables.map fun t => t.table.columns)).map fun js => if N = places e tables js then
        w * (zipWith (fun t j => t.cell e p j) tables js).prod * g else 0).sum =
      w * g * (zipWith (fun t i => t.amount e p i) tables N).prod := by
  have hterm : ∀ js ∈ Tuple.all (tables.map fun t => t.table.columns),
      (if N = places e tables js then
        w * (zipWith (fun t j => t.cell e p j) tables js).prod * g else 0) =
      w * g * (zipWith (fun h j => h j) (zipWith (fun t i j =>
        if t.table.column e.columns j + t.offset = i then t.cell e p j else 0) tables N) js).prod := by
    intro js hjs
    have hlength : js.length = tables.length := by
      rw [Tuple.length_of_mem_all hjs, length_map]
    rw [prod_select (fun t j => t.table.column e.columns j + t.offset) (fun t j => t.cell e p j) hN
      hlength]
    by_cases hplaces : N = places e tables js
    · rw [if_pos hplaces]
      unfold places at hplaces
      rw [if_pos hplaces.symm]
      ring
    · rw [if_neg hplaces]
      unfold places at hplaces
      rw [if_neg fun h => hplaces h.symm, mul_zero]
  -- Each factor now depends on its own column only, so the sum of products is a product of sums.
  rw [map_congr_left hterm, sum_map_mul_left, Tuple.sum_all_prod]
  · rw [zipWith_zipWith_map]
    rfl
  · rw [length_zipWith, hN, Nat.min_self, length_map]

end PointLoop

end

end WeakForm
