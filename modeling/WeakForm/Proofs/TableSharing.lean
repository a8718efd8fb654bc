import Mathlib.Data.List.Nodup
import WeakForm.Proofs.Keys

/-!
# Sharing of tables

A store of tables hands out names. What is declared under a name must be what was
stored under it, now and after everything that is stored later; and tables must not
be declared twice. This module follows a store through all of its calls and says what
its declarations hold then.

A compressed table is declared without its columns of zeros, with an array that lists
the others. `scatter` undoes this: it writes the declared columns to the listed places
of a row of zeros. What comes back equals the table as a key, that is, up to the sign
of a zero.

Every call keeps three things, and all statements follow from them: the store only
grows at its end, no two of its tables or lists of columns are equal, and the table
that was asked for is at the position that was handed out (`TableStore.Keeps`).

## Theorems

* `TableStore.exists_register`: What one call keeps.
* `TableStore.exists_registerAll`: What all calls keep.
* `TableStore.registerAll_shares`: Tables share names exactly if their values are equal.
-/

namespace WeakForm

open List Success

variable {α : Type}

/-- The contents of a declared array. -/
inductive Contents (α : Type) where
  | weights (values : List α)
  | table (rows : List (List α))
  | columns (dofs : List Nat)

def Code.arrays : Code α → List (String × Contents α)
  | seq first second => first.arrays ++ second.arrays
  | block body | loop _ _ body => body.arrays
  | weights term values => [(Cpp.weightName term, .weights values)]
  | table number rows => [(Cpp.tableName number, .table rows)]
  | columns number dofs => [(Cpp.columnsName number, .columns dofs)]
  | _ => []

theorem Code.arrays_all (cs : List (Code α)) : (all cs).arrays = cs.flatMap arrays := by
  induction cs with
  | nil => rfl
  | cons c cs ih => exact congrArg (c.arrays ++ ·) ih

theorem append_toString_injective (text : String) :
    Function.Injective fun n : Nat => text ++ toString n := by
  intro m n h
  have hlist := congrArg String.toList h
  simp only [String.toList_append, append_cancel_left_eq, Nat.toString_eq_repr,
    Nat.toList_repr] at hlist
  rw [← Nat.ofDigitChars_ten_toDigits (n := m), hlist, Nat.ofDigitChars_ten_toDigits]

theorem append_toString_ne {s t : String} {a b : Char} {as bs : List Char} (hs : s.toList = a :: as)
    (ht : t.toList = b :: bs) (hab : a ≠ b) (m n : Nat) : s ++ toString m ≠ t ++ toString n := by
  intro h
  have hlist := congrArg String.toList h
  rw [String.toList_append, String.toList_append, hs, ht, cons_append, cons_append] at hlist
  exact hab (cons.inj hlist).1

namespace Cpp

theorem tableName_injective : Function.Injective tableName := append_toString_injective "FE"

theorem columnsName_injective : Function.Injective columnsName := append_toString_injective "nzc"

theorem weightName_injective : Function.Injective weightName := append_toString_injective "W"

theorem weightName_ne_tableName (m n : Nat) : weightName m ≠ tableName n :=
  append_toString_ne rfl rfl (by decide) m n

theorem weightName_ne_columnsName (m n : Nat) : weightName m ≠ columnsName n :=
  append_toString_ne rfl rfl (by decide) m n

theorem tableName_ne_columnsName (m n : Nat) : tableName m ≠ columnsName n :=
  append_toString_ne rfl rfl (by decide) m n

end Cpp

namespace TableStore

variable {ps : List Nat} {compress : Bool}

/-- The number of columns of a table, read off its first row. -/
def tableWidth (rows : List (List α)) : Nat := (rows.head?.getD []).length

/-- All rows of a table have the same length. -/
def Rectangular (rows : List (List α)) : Prop := ∀ row ∈ rows, row.length = tableWidth rows

instance (rows : List (List α)) : Decidable (Rectangular rows) :=
  inferInstanceAs (Decidable (∀ row ∈ rows, row.length = tableWidth rows))

theorem rectangular_of_length {rows : List (List α)} {width : Nat}
    (h : ∀ row ∈ rows, row.length = width) : Rectangular rows ∧ tableWidth rows ≤ width := by
  cases rows with
  | nil => exact ⟨nofun, Nat.zero_le width⟩
  | cons first rows =>
    have hfirst : tableWidth (first :: rows) = width := h first mem_cons_self
    exact ⟨fun row hrow => (h row hrow).trans hfirst.symm, hfirst.le⟩

/-- The store has grown at its end. -/
structure Grows (s s' : TableStore α) : Prop where
  tables : s.tables <+: s'.tables
  columns : s.columns <+: s'.columns

theorem Grows.refl (s : TableStore α) : s.Grows s :=
  ⟨List.prefix_refl _, List.prefix_refl _⟩

theorem Grows.trans {s s' s'' : TableStore α} (h : s.Grows s') (h' : s'.Grows s'') :
    s.Grows s'' := ⟨h.tables.trans h'.tables, h.columns.trans h'.columns⟩

variable [Scalar α] {β : Type} {xs : List β} {rows : List (List α)} {dof : Nat} {s : TableStore α}

/-- Whether a column holds a value other than zero. -/
def columnFilled (rows : List (List α)) (dof : Nat) : Bool :=
  rows.any fun row => row[dof]?.any Scalar.nonzero

/-- The columns that hold a value other than zero, in order. -/
def filledColumns (rows : List (List α)) : List Nat :=
  (List.range (tableWidth rows)).filter (columnFilled rows)

/-- Whether a table is compressed. -/
def compresses (compress : Bool) (rows : List (List α)) : Bool :=
  compress && decide ((filledColumns rows).length < tableWidth rows)

/-- The columns of a table that are stored. -/
def positions (compress : Bool) (rows : List (List α)) : List Nat :=
  if compresses compress rows then filledColumns rows else List.range (tableWidth rows)

/-- The values of a table that are stored. -/
def kept (compress : Bool) (rows : List (List α)) : List (List α) :=
  rows.map fun row => (positions compress rows).filterMap fun dof => row[dof]?

theorem filterMap_range_get (xs : List β) : ((range xs.length).filterMap fun p => xs[p]?) = xs := by
  induction xs with
  | nil => rfl
  | cons x xs ih =>
    rw [length_cons, range_succ_eq_map, filterMap_cons_some getElem?_cons_zero, filterMap_map]
    exact congrArg (x :: ·) ih

theorem mapM_entryAt (h : ∀ p ∈ ps, p < xs.length) :
    ps.mapM (entryAt xs) = .ok (ps.filterMap fun p => xs[p]?) := by
  induction ps with
  | nil => rfl
  | cons p ps ih =>
    rw [forall_mem_cons] at h
    have hp := getElem?_eq_getElem h.1
    rw [mapM_cons, filterMap_cons_some hp]
    exact bind_eq_ok.2 ⟨_, entryAt_eq_ok.2 hp, bind_eq_ok.2 ⟨_, ih h.2, rfl⟩⟩

theorem length_filterMap_get (h : ∀ p ∈ ps, p < xs.length) :
    (ps.filterMap fun p => xs[p]?).length = ps.length :=
  (mapM_eq_ok.1 (mapM_entryAt h)).length_eq.symm

theorem filterMap_get_eq_map {xs : List α} (h : ∀ p ∈ ps, p < xs.length) :
    (ps.filterMap fun p => xs[p]?) = ps.map fun p => xs[p]?.getD 0 := by
  rw [← filterMap_eq_map]
  refine filterMap_congr fun p hp => ?_
  rw [Function.comp_apply, getElem?_eq_getElem (h p hp), Option.getD_some]

theorem columnNonzero_eq_ok (h : ∀ row ∈ rows, dof < row.length) :
    columnNonzero dof rows = .ok (columnFilled rows dof) := by
  induction rows with
  | nil => rfl
  | cons row rows ih =>
    rw [forall_mem_cons] at h
    -- The search ends at the first value other than zero.
    have hentry := getElem?_eq_getElem h.1
    rw [columnNonzero, columnFilled, any_cons, hentry, Option.any_some]
    refine bind_eq_ok.2 ⟨_, entryAt_eq_ok.2 hentry, ?_⟩
    cases Scalar.nonzero row[dof] with
    | true => rfl
    | false => exact ih h.2

theorem filterM_eq_ok_filter {ε : Type} {f : β → Except ε Bool} {p : β → Bool}
    (h : ∀ x ∈ xs, f x = .ok (p x)) : xs.filterM f = .ok (xs.filter p) := by
  -- The elements that are kept are collected in front of those collected so far.
  have hcollect : ∀ (xs acc : List β), (∀ x ∈ xs, f x = .ok (p x)) →
      xs.filterAuxM f acc = .ok ((xs.filter p).reverse ++ acc) := by
    intro xs
    induction xs with
    | nil => exact fun acc _ => rfl
    | cons x xs ih =>
      intro acc h
      rw [forall_mem_cons] at h
      rw [List.filterAuxM, bind_eq_ok]
      refine ⟨p x, h.1, ?_⟩
      cases hp : p x with
      | true =>
        rw [filter_cons_of_pos hp, reverse_cons, append_assoc]
        exact ih (x :: acc) h.2
      | false =>
        rw [filter_cons_of_neg (Bool.not_eq_true _ ▸ hp)]
        exact ih acc h.2
  refine bind_eq_ok.2 ⟨_, hcollect xs [] h, ?_⟩
  rw [append_nil, reverse_reverse]
  rfl

theorem nonzeroColumns_eq_ok_filledColumns (h : Rectangular rows) :
    nonzeroColumns rows = .ok (filledColumns rows) :=
  filterM_eq_ok_filter fun _ hdof =>
    columnNonzero_eq_ok fun row hrow => h row hrow ▸ mem_range.1 hdof

theorem mem_filledColumns (h : Rectangular rows) :
    dof ∈ filledColumns rows ↔ columnFilled rows dof = true := by
  rw [filledColumns, mem_filter, mem_range, and_iff_right_iff_imp]
  intro hfilled
  rcases any_eq_true.1 hfilled with ⟨row, hrow, hentry⟩
  rcases (Option.any_eq_true _ _).1 hentry with ⟨x, hx, _⟩
  rw [← h row hrow]
  exact (List.getElem?_eq_some_iff.1 hx).1

theorem positions_sublist (compress : Bool) (rows : List (List α)) :
    positions compress rows <+ range (tableWidth rows) := by
  unfold positions
  split
  · exact filter_sublist
  · exact .refl _

theorem positions_lt (compress : Bool) (rows : List (List α)) :
    ∀ dof ∈ positions compress rows, dof < tableWidth rows :=
  fun _ hdof => mem_range.1 ((positions_sublist compress rows).subset hdof)

theorem length_positions_le (compress : Bool) (rows : List (List α)) :
    (positions compress rows).length ≤ tableWidth rows :=
  (positions_sublist compress rows).length_le.trans_eq length_range

theorem positions_increasing (compress : Bool) (rows : List (List α)) :
    (positions compress rows).Pairwise (· < ·) :=
  pairwise_lt_range.sublist (positions_sublist compress rows)

theorem columnFilled_of_notMem (hdof : dof < tableWidth rows) (h : dof ∉ positions compress rows) :
    columnFilled rows dof = false := by
  unfold positions at h
  split at h
  · rw [filledColumns, mem_filter, not_and, Bool.not_eq_true] at h
    exact h (mem_range.2 hdof)
  · exact absurd (mem_range.2 hdof) h

theorem eq_zero_of_columnFilled (h : columnFilled rows dof = false) {row : List α}
    (hrow : row ∈ rows) {x : α} (hx : row[dof]? = some x) : Scalar.eq x 0 = true := by
  have hzero := any_eq_false.1 h row hrow
  rw [hx, Option.any_some, Scalar.nonzero, Bool.not_eq_true, Bool.not_eq_false'] at hzero
  exact hzero

/-- A table is compressed if this is asked for and some column holds zeros only. -/
theorem compresses_iff : compresses compress rows = true ↔
      compress = true ∧ ∃ dof < tableWidth rows, columnFilled rows dof = false := by
  rw [compresses, Bool.and_eq_true, decide_eq_true_iff]
  refine and_congr_right fun _ => ?_
  have hlength := length_filter_lt_length_iff_exists (p := columnFilled rows)
    (l := range (tableWidth rows))
  rw [length_range] at hlength
  rw [filledColumns, hlength]
  simp only [mem_range, Bool.not_eq_true]

/-- No two tables of a store are equal, and no two lists of columns are. -/
structure Sharp (s : TableStore α) : Prop where
  tables : Apart sameRows s.tables
  columns : Apart (· == ·) s.columns

/-- A table is at the position that was handed out for it. -/
structure Keeps (s : TableStore α) (ref : TableRef) (rows : List (List α)) : Prop where
  table : Placed sameRows s.tables ref.number (kept s.compress rows)
  columns : ref.columns = (positions s.compress rows).length
  compressed : ref.nonzero.isSome = compresses s.compress rows
  listed : ∀ number ∈ ref.nonzero, Placed (· == ·) s.columns number (filledColumns rows)

theorem Keeps.mono {s' : TableStore α} {ref : TableRef} (h : s.Keeps ref rows) (hgrows : s.Grows s')
    (hcompress : s'.compress = s.compress) : s'.Keeps ref rows := by
  refine ⟨?_, ?_, ?_, fun number hnumber => (h.listed number hnumber).mono hgrows.columns⟩
  · rw [hcompress]
    exact h.table.mono hgrows.tables
  · rw [hcompress, h.columns]
  · rw [hcompress, h.compressed]

theorem beq_equivalence : Equivalence fun xs ys : List Nat => (xs == ys) = true := by
  simp only [beq_iff_eq]
  exact eq_equivalence

theorem register_of_compresses (hrows : Rectangular rows) (h : compresses s.compress rows = true) :
    s.register rows = .ok (⟨(place sameRows (kept s.compress rows) s.tables).1,
        (positions s.compress rows).length, some (place (· == ·) (filledColumns rows) s.columns).1⟩,
      ⟨s.compress, (place sameRows (kept s.compress rows) s.tables).2,
        (place (· == ·) (filledColumns rows) s.columns).2⟩) := by
  have hpositions : positions s.compress rows = filledColumns rows := if_pos h
  have hinside : ∀ row ∈ rows, ∀ dof ∈ filledColumns rows, dof < row.length := by
    intro row hrow dof hdof
    rw [hrows row hrow]
    exact positions_lt s.compress rows dof (hpositions ▸ hdof)
  have hkept : rows.mapM (fun row => (filledColumns rows).mapM (entryAt row)) =
      .ok (kept s.compress rows) := by
    rw [kept, hpositions]
    exact mapM_eq_ok_map fun row hrow => mapM_entryAt (hinside row hrow)
  -- There is a row: without one the first row would not be longer than the list.
  have hwidth : ((kept s.compress rows).head?.getD []).length = (filledColumns rows).length := by
    rw [kept, hpositions]
    cases rows with
    | nil => exact absurd h (by simp [compresses, tableWidth])
    | cons row rows => exact length_filterMap_get (hinside row mem_cons_self)
  unfold register
  refine bind_eq_ok.2 ⟨_, nonzeroColumns_eq_ok_filledColumns hrows, ?_⟩
  refine (if_pos h).trans (bind_eq_ok.2 ⟨_, hkept, ?_⟩)
  rw [hpositions, ← hwidth]
  rfl

theorem register_of_not_compresses (hrows : Rectangular rows)
    (h : compresses s.compress rows = false) :
    s.register rows = .ok (⟨(place sameRows (kept s.compress rows) s.tables).1,
        (positions s.compress rows).length, none⟩,
      ⟨s.compress, (place sameRows (kept s.compress rows) s.tables).2, s.columns⟩) := by
  have hpositions : positions s.compress rows = range (tableWidth rows) :=
    if_neg (Bool.not_eq_true _ ▸ h)
  have hkept : kept s.compress rows = rows := by
    rw [kept, hpositions]
    conv_rhs => rw [← map_id rows]
    refine map_congr_left fun row hrow => ?_
    rw [← hrows row hrow]
    exact filterMap_range_get row
  unfold register
  refine bind_eq_ok.2 ⟨_, nonzeroColumns_eq_ok_filledColumns hrows, ?_⟩
  refine (if_neg (Bool.not_eq_true _ ▸ h)).trans ?_
  rw [hkept, hpositions, length_range]
  rfl

theorem register_columns (s : TableStore α) (hrows : Rectangular rows) :
    ∃ x, s.register rows = .ok x ∧ x.1.columns = (positions s.compress rows).length := by
  cases h : compresses s.compress rows with
  | true => exact ⟨_, register_of_compresses hrows h, rfl⟩
  | false => exact ⟨_, register_of_not_compresses hrows h, rfl⟩

/-- Stores tables one after the other. Every result comes with the store as it is then. -/
def registerAll (s : TableStore α) : List (List (List α)) → Checked (List (TableRef × TableStore α))
  | [] => .ok []
  | rows :: rest => do
    let step ← s.register rows
    return step :: (← step.2.registerAll rest)

variable [LawfulKeys α] {tables : List (List (List α))}

theorem exists_register (s : TableStore α) (hrows : Rectangular rows) :
    ∃ ref s', s.register rows = .ok (ref, s') ∧ s'.Keeps ref rows ∧ s.Grows s' ∧
      s'.compress = s.compress ∧ (s.Sharp → s'.Sharp) := by
  have hplaced := place_placed sameRows_equivalence (kept s.compress rows) s.tables
  cases h : compresses s.compress rows with
  | true =>
    refine ⟨_, _, register_of_compresses hrows h, ⟨hplaced, rfl, h.symm, ?_⟩,
      ⟨prefix_place _ _ _, prefix_place _ _ _⟩, rfl, fun hs =>
        ⟨apart_place sameRows_equivalence _ hs.tables, apart_place beq_equivalence _ hs.columns⟩⟩
    rintro _ ⟨⟩
    exact place_placed beq_equivalence _ _
  | false =>
    refine ⟨_, _, register_of_not_compresses hrows h, ⟨hplaced, rfl, h.symm, ?_⟩,
      ⟨prefix_place _ _ _, List.prefix_refl _⟩, rfl, fun hs =>
        ⟨apart_place sameRows_equivalence _ hs.tables, hs.columns⟩⟩
    rintro _ ⟨⟩

theorem register_keeps {s' : TableStore α} {ref : TableRef} (hrows : Rectangular rows)
    (h : s.register rows = .ok (ref, s')) :
    s'.Keeps ref rows ∧ s.Grows s' ∧ s'.compress = s.compress ∧ (s.Sharp → s'.Sharp) := by
  rcases exists_register s hrows with ⟨ref', s'', hregister, hkeeps⟩
  rw [h] at hregister
  cases hregister
  exact hkeeps

theorem exists_registerAll (hs : s.Sharp) (htables : ∀ rows ∈ tables, Rectangular rows) :
    ∃ steps, s.registerAll tables = .ok steps ∧
      Forall₂ (fun rows x => x.2.Keeps x.1 rows) tables steps ∧
      (∀ x ∈ steps, x.2.Sharp ∧ s.Grows x.2 ∧ x.2.compress = s.compress) ∧
      steps.Pairwise fun x y => x.2.Grows y.2 := by
  -- Growing is transitive, so it is enough to compare the store with the one after the next call.
  induction tables generalizing s with
  | nil => exact ⟨[], rfl, .nil, nofun, .nil⟩
  | cons rows tables ih =>
    rw [forall_mem_cons] at htables
    rcases exists_register s htables.1 with ⟨ref, s', hregister, hkeeps, hgrows, hcompress, hsharp⟩
    have hs' := hsharp hs
    rcases ih hs' htables.2 with ⟨steps, hsteps, hall, hlater, hpairs⟩
    refine ⟨(ref, s') :: steps, bind_eq_ok.2 ⟨_, hregister, bind_eq_ok.2 ⟨_, hsteps, rfl⟩⟩,
      .cons hkeeps hall, forall_mem_cons.2 ⟨⟨hs', hgrows, hcompress⟩, fun x hx => ?_⟩,
      pairwise_cons.2 ⟨fun x hx => (hlater x hx).2.1, hpairs⟩⟩
    rcases hlater x hx with ⟨hsharp, hgrows', hcompress'⟩
    exact ⟨hsharp, hgrows.trans hgrows', hcompress'.trans hcompress⟩

omit [LawfulKeys α] in
/-- A table is kept in the store as it is after its call, and after every later one. -/
theorem keeps_of_le {steps : List (TableRef × TableStore α)}
    (hall : Forall₂ (fun rows x => x.2.Keeps x.1 rows) tables steps)
    (hlater : ∀ x ∈ steps, x.2.Sharp ∧ s.Grows x.2 ∧ x.2.compress = compress)
    (hgrows : steps.Pairwise fun x y => x.2.Grows y.2) ⦃i j : Nat⦄ (hle : i ≤ j)
    ⦃rows : List (List α)⦄ (hrows : tables[i]? = some rows) ⦃x : TableRef × TableStore α⦄
    (hx : steps[i]? = some x) ⦃y : TableRef × TableStore α⦄ (hy : steps[j]? = some y) :
    y.2.Keeps x.1 rows := by
  rcases forall₂_get hall hrows with ⟨x', hx', hkeeps⟩
  rw [hx, Option.some.injEq] at hx'
  rw [← hx'] at hkeeps
  rcases hle.lt_or_eq with hlt | rfl
  · have hcompress := (hlater y (mem_of_getElem? hy)).2.2.trans
      (hlater x (mem_of_getElem? hx)).2.2.symm
    rcases List.getElem?_eq_some_iff.1 hx with ⟨hi, rfl⟩
    rcases List.getElem?_eq_some_iff.1 hy with ⟨hj, rfl⟩
    exact hkeeps.mono (pairwise_iff_getElem.1 hgrows i j hi hj hlt) hcompress
  · rw [hx, Option.some.injEq] at hy
    exact hy ▸ hkeeps

end TableStore

/-- Entries written to their places in a row of zeros. -/
def scatter [Scalar α] (width : Nat) (positions : List Nat) (entries : List α) : List α :=
  (positions.zip entries).foldl (fun row x => row.set x.1 x.2) (List.replicate width 0)

section

variable [Scalar α] [LawfulKeys α] {row entries : List α} {positions : List Nat}

/-- Writing the entries of a row to their places gives the row, if what is there already agrees with
    it in all other places. -/
theorem sameRow_foldl_set {start : List α}
    (hentries : sameRow (positions.filterMap fun p => row[p]?) entries = true)
    (hinside : ∀ p ∈ positions, p < row.length) (hlength : start.length = row.length)
    (hstart : ∀ p x y, p ∉ positions → start[p]? = some x → row[p]? = some y →
      Scalar.same x y = true) :
    sameRow ((positions.zip entries).foldl (fun row x => row.set x.1 x.2) start) row = true := by
  -- Once a place is written, the row there agrees with it and the place is done with.
  induction positions generalizing entries start with
  | nil =>
    rw [sameRow_iff_forall₂, forall₂_iff_get]
    refine ⟨hlength, fun p hp hp' => hstart p _ _ not_mem_nil ?_ ?_⟩
    · exact getElem?_eq_getElem hp
    · exact getElem?_eq_getElem hp'
  | cons p positions ih =>
    rw [forall_mem_cons] at hinside
    have hp := getElem?_eq_getElem hinside.1
    rw [filterMap_cons_some hp, sameRow_iff_forall₂, forall₂_cons_left_iff] at hentries
    rcases hentries with ⟨x, entries, hx, hentries, rfl⟩
    refine ih (sameRow_iff_forall₂.2 hentries) hinside.2 (by rw [length_set, hlength]) ?_
    intro q y z hq hy hz
    rw [getElem?_set] at hy
    by_cases hpq : p = q
    · subst hpq
      rw [if_pos rfl, if_pos (hlength ▸ hinside.1), Option.some.injEq] at hy
      rw [hp, Option.some.injEq] at hz
      rw [← hy, ← hz]
      exact LawfulKeys.equivalence.symm hx
    · rw [if_neg hpq] at hy
      exact hstart q y z (not_mem_cons_of_ne_of_not_mem (Ne.symm hpq) hq) hy hz

/-- A row comes back from its columns, if the other ones are zero. -/
theorem sameRow_scatter (hentries : sameRow (positions.filterMap fun p => row[p]?) entries = true)
    (hinside : ∀ p ∈ positions, p < row.length)
    (hzero : ∀ p x, p ∉ positions → row[p]? = some x → Scalar.eq x 0 = true) :
    sameRow (scatter row.length positions entries) row = true := by
  refine sameRow_foldl_set hentries hinside length_replicate fun p x y hp hx hy => ?_
  have hx' : x = 0 := eq_of_mem_replicate (mem_of_getElem? hx)
  rw [hx']
  exact LawfulKeys.equivalence.symm (LawfulKeys.zero (hzero p y hp hy))

end

/-- The places that the columns of a declared table belong to: those that the array of columns
    lists, or all of them in order. -/
def TableRef.Lists (ref : TableRef) (arrays : List (String × Contents α))
    (positions : List Nat) : Prop :=
  match ref.nonzero with
  | some number => (Cpp.columnsName number, .columns positions) ∈ arrays
  | none => positions = List.range ref.columns

namespace TableStore

variable [Scalar α] {s : TableStore α} {ref ref' : TableRef} {rows rows' : List (List α)}

/-- The declarations of a store give a table back: what is declared under the name of the table,
    written to the places that its columns belong to, is the table. -/
structure Declares (s : TableStore α) (ref : TableRef) (rows stored : List (List α))
    (positions : List Nat) : Prop where
  table : (Cpp.tableName ref.number, .table stored) ∈ s.declarations.arrays
  listed : ref.Lists s.declarations.arrays positions
  columns : ∀ row ∈ stored, row.length = ref.columns
  length : positions.length = ref.columns
  values : sameRows (stored.map (scatter (tableWidth rows) positions)) rows = true
  increasing : positions.Pairwise (· < ·)
  inside : ∀ dof ∈ positions, dof < tableWidth rows
  filled : ref.nonzero.isSome = true → ∀ dof, dof ∈ positions ↔ columnFilled rows dof = true

section

omit [Scalar α]

theorem arrays_declarations (s : TableStore α) : s.declarations.arrays =
      s.tables.zipIdx.map (fun x => (Cpp.tableName x.2, .table x.1)) ++
        s.columns.zipIdx.map fun x => (Cpp.columnsName x.2, .columns x.1) := by
  rw [declarations, Code.arrays, Code.arrays_all, flatMap_append, flatMap_map, flatMap_map,
    map_eq_flatMap, map_eq_flatMap]
  rfl

theorem nodup_names (s : TableStore α) : (s.declarations.arrays.map Prod.fst).Nodup := by
  have hnames : ∀ (β : Type) (xs : List β) (name : Nat → String), Function.Injective name →
      (xs.zipIdx.map fun x => name x.2).Nodup := by
    intro β xs name hname
    have hrange : (xs.zipIdx.map Prod.snd).Nodup := by
      rw [zipIdx_map_snd]
      exact nodup_range'
    have hmap := hrange.map hname
    rwa [map_map] at hmap
  rw [arrays_declarations, map_append, map_map, map_map]
  refine nodup_append.2 ⟨hnames _ s.tables _ Cpp.tableName_injective,
    hnames _ s.columns _ Cpp.columnsName_injective, fun a ha b hb => ?_⟩
  rcases mem_map.1 ha with ⟨x, _, rfl⟩
  rcases mem_map.1 hb with ⟨y, _, rfl⟩
  exact Cpp.tableName_ne_columnsName x.2 y.2

theorem table_mem_arrays {s : TableStore α} {number : Nat} {rows : List (List α)}
    (h : s.tables[number]? = some rows) :
    (Cpp.tableName number, .table rows) ∈ s.declarations.arrays := by
  rw [arrays_declarations]
  exact mem_append_left _ (mem_map.2 ⟨(rows, number), mem_zipIdx_iff_getElem?.2 h, rfl⟩)

theorem columns_mem_arrays {s : TableStore α} {number : Nat} {dofs : List Nat}
    (h : s.columns[number]? = some dofs) :
    (Cpp.columnsName number, .columns dofs) ∈ s.declarations.arrays := by
  rw [arrays_declarations]
  exact mem_append_right _ (mem_map.2 ⟨(dofs, number), mem_zipIdx_iff_getElem?.2 h, rfl⟩)

end

theorem Keeps.listed_positions (h : s.Keeps ref rows) :
    (∀ number ∈ ref.nonzero, s.columns[number]? = some (positions s.compress rows)) ∧
      (ref.nonzero = none → positions s.compress rows = range ref.columns) := by
  have hcompress := h.compressed
  refine ⟨fun number hnumber => ?_, fun hnone => ?_⟩
  · rcases h.listed number hnumber with ⟨dofs, hdofs, hsame⟩
    rw [hnumber, Option.isSome_some] at hcompress
    rw [positions, if_pos hcompress.symm, eq_of_beq hsame, hdofs]
  · rw [hnone, Option.isSome_none] at hcompress
    have hpositions : positions s.compress rows = range (tableWidth rows) :=
      if_neg (Bool.not_eq_true _ ▸ hcompress.symm)
    rw [h.columns, hpositions, length_range]

/-- The places of the columns are declared, or need no declaration. -/
theorem Keeps.lists (h : s.Keeps ref rows) :
    ref.Lists s.declarations.arrays (positions s.compress rows) := by
  unfold TableRef.Lists
  cases href : ref.nonzero with
  | some number => exact columns_mem_arrays (h.listed_positions.1 number href)
  | none => exact h.listed_positions.2 href

variable [LawfulKeys α]

/-- A table that is kept comes back from the declarations. -/
theorem Keeps.declares (h : s.Keeps ref rows) (hrows : Rectangular rows) :
    ∃ stored, s.Declares ref rows stored (positions s.compress rows) := by
  rcases h.table with ⟨stored, hstored, hsame⟩
  have hinside : ∀ row ∈ rows, ∀ p ∈ positions s.compress rows, p < row.length := by
    intro row hrow p hp
    rw [hrows row hrow]
    exact positions_lt s.compress rows p hp
  -- The declared rows are the stored columns of the rows of the table, in the same order.
  have hcolumns : Forall₂ (fun entries row => row ∈ rows ∧ sameRow
      ((positions s.compress rows).filterMap fun p => row[p]?) entries = true) stored rows := by
    rw [sameRows_iff_forall₂, kept, forall₂_map_left_iff] at hsame
    exact ((forall₂_and_left _ _).2 ⟨fun row hrow => hrow, hsame⟩).flip
  refine ⟨stored, table_mem_arrays hstored, h.lists, ?_, h.columns.symm, ?_,
    positions_increasing s.compress rows, positions_lt s.compress rows, fun hsome dof => ?_⟩
  · refine forall₂_left hcolumns fun entries row hentries => ?_
    rw [h.columns, ← length_filterMap_get (hinside row hentries.1)]
    exact (sameRow_iff_forall₂.1 hentries.2).length_eq.symm
  · rw [sameRows_iff_forall₂, forall₂_map_left_iff]
    refine hcolumns.imp fun entries row hentries => ?_
    rw [← hrows row hentries.1]
    refine sameRow_scatter hentries.2 (hinside row hentries.1) fun p x hp hx => ?_
    have hwidth : p < tableWidth rows := hrows row hentries.1 ▸ (List.getElem?_eq_some_iff.1 hx).1
    exact eq_zero_of_columnFilled (columnFilled_of_notMem hwidth hp) hentries.1 hx
  · rw [h.compressed] at hsome
    rw [positions, if_pos hsome, mem_filledColumns hrows]

/-- Tables share a name if and only if what is stored of them is equal. -/
theorem Keeps.number_eq_iff (hs : s.Sharp) (h : s.Keeps ref rows) (h' : s.Keeps ref' rows') :
    ref.number = ref'.number ↔ sameRows (kept s.compress rows) (kept s.compress rows') = true :=
  hs.tables.position_eq_iff sameRows_equivalence h.table h'.table

omit [LawfulKeys α] in
theorem Keeps.nonzero_eq_iff (hs : s.Sharp) (h : s.Keeps ref rows) (h' : s.Keeps ref' rows')
    {m n : Nat} (hm : m ∈ ref.nonzero) (hn : n ∈ ref'.nonzero) :
    m = n ↔ filledColumns rows = filledColumns rows' := by
  rw [hs.columns.position_eq_iff beq_equivalence (h.listed m hm) (h'.listed n hn), beq_iff_eq]

/-- Tables that are stored one after the other can be found under their names ever after, and share
    names exactly if what is stored of them is equal. -/
theorem registerAll_shares (compress : Bool) {tables : List (List (List α))}
    (htables : ∀ rows ∈ tables, Rectangular rows) :
    ∃ steps, (⟨compress, [], []⟩ : TableStore α).registerAll tables = .ok steps ∧
      steps.length = tables.length ∧
      (∀ x ∈ steps, (x.2.declarations.arrays.map Prod.fst).Nodup) ∧
      ∀ (i : Nat) (rows : List (List α)) (ref : TableRef) (s : TableStore α),
        tables[i]? = some rows → steps[i]? = some (ref, s) →
        (ref.nonzero.isSome = true ↔
          compress = true ∧ ∃ dof < tableWidth rows, columnFilled rows dof = false) ∧
        (∀ (j : Nat) (ref' : TableRef) (s' : TableStore α), i ≤ j → steps[j]? = some (ref', s') →
          ∃ stored positions, s'.Declares ref rows stored positions) ∧
        ∀ (j : Nat) (rows' : List (List α)) (ref' : TableRef) (s' : TableStore α),
          tables[j]? = some rows' → steps[j]? = some (ref', s') →
          (Cpp.tableName ref.number = Cpp.tableName ref'.number ↔
            sameRows (kept compress rows) (kept compress rows') = true) ∧
          ∀ m ∈ ref.nonzero, ∀ n ∈ ref'.nonzero,
            (Cpp.columnsName m = Cpp.columnsName n ↔ filledColumns rows = filledColumns rows') := by
  have hempty : (⟨compress, [], []⟩ : TableStore α).Sharp := ⟨.nil, .nil⟩
  rcases exists_registerAll hempty htables with ⟨steps, hsteps, hall, hlater, hgrows⟩
  have hkeeps := keeps_of_le hall hlater hgrows
  refine ⟨steps, hsteps, hall.length_eq.symm, fun x _ => x.2.nodup_names, ?_⟩
  intro i rows ref s hrows hstep
  have hrectangular := htables rows (List.mem_of_getElem? hrows)
  refine ⟨?_, fun j ref' s' hle hstep' => ?_, fun j rows' ref' s' hrows' hstep' => ?_⟩
  · rw [(hkeeps le_rfl hrows hstep hstep).compressed, (hlater _ (List.mem_of_getElem? hstep)).2.2]
    exact compresses_iff
  · rcases (hkeeps hle hrows hstep hstep').declares hrectangular with ⟨stored, hdeclares⟩
    exact ⟨stored, _, hdeclares⟩
  · -- The later of the two stores keeps both tables.
    have hboth : ∃ y ∈ steps, y.2.Keeps ref rows ∧ y.2.Keeps ref' rows' := by
      rcases Nat.le_total i j with hle | hle
      · exact ⟨_, List.mem_of_getElem? hstep', hkeeps hle hrows hstep hstep',
          hkeeps le_rfl hrows' hstep' hstep'⟩
      · exact ⟨_, List.mem_of_getElem? hstep, hkeeps le_rfl hrows hstep hstep,
          hkeeps hle hrows' hstep' hstep⟩
    rcases hboth with ⟨y, hy, hkept, hkept'⟩
    rcases hlater y hy with ⟨hsharp, _, hcompress⟩
    refine ⟨?_, fun m hm n hn => ?_⟩
    · rw [Cpp.tableName_injective.eq_iff, hkept.number_eq_iff hsharp hkept', hcompress]
    · rw [Cpp.columnsName_injective.eq_iff, hkept.nonzero_eq_iff hsharp hkept' hm hn]

/-- Three tables with a non-number: behind a zero, in front of a negative zero, and alone. -/
def nonNumberTables : List (List (List Float)) :=
  [[[0.0, 0.0 / 0.0]], [[0.0 / 0.0, -0.0]], [[0.0 / 0.0]]]

/-- The three tables share one name, with different columns, and the first one can still be read
    when all of them are stored. -/
theorem registerAll_shares_nonNumberTables :
    (∀ rows ∈ nonNumberTables, Rectangular rows) ∧ ∃ x y z : TableRef × TableStore Float,
      (⟨true, [], []⟩ : TableStore Float).registerAll nonNumberTables = .ok [x, y, z] ∧
      Cpp.tableName x.1.number = Cpp.tableName y.1.number ∧
      Cpp.tableName x.1.number = Cpp.tableName z.1.number ∧
      x.1.nonzero.isSome = true ∧ y.1.nonzero.isSome = true ∧
      (∀ m ∈ x.1.nonzero, ∀ n ∈ y.1.nonzero, Cpp.columnsName m ≠ Cpp.columnsName n) ∧
      ∃ stored positions, z.2.Declares x.1 [[0.0, 0.0 / 0.0]] stored positions := by
  have hrectangular : ∀ rows ∈ nonNumberTables, Rectangular rows := by decide
  rcases registerAll_shares true hrectangular with ⟨steps, hsteps, hlength, _, hcalls⟩
  rcases List.length_eq_three.1 hlength with ⟨x, y, z, rfl⟩
  have hx := hcalls 0 _ x.1 x.2 rfl rfl
  have hy := hcalls 1 _ y.1 y.2 rfl rfl
  have hxy := hx.2.2 1 _ y.1 y.2 rfl rfl
  have hxz := hx.2.2 2 _ z.1 z.2 rfl rfl
  refine ⟨hrectangular, x, y, z, hsteps, hxy.1.2 (by decide), hxz.1.2 (by decide),
    hx.1.2 ⟨rfl, 0, by decide, by decide⟩, hy.1.2 ⟨rfl, 1, by decide, by decide⟩,
    fun m hm n hn => ?_, hx.2.1 2 z.1 z.2 (by decide) rfl⟩
  rw [Ne, hxy.2 m hm n hn]
  decide

end TableStore

end WeakForm
