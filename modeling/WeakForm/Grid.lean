import WeakForm.Scalar
import WeakForm.Fault

/-!
# Grids of numbers

Small rectangular arrays: vertex coordinates, Jacobians, reference vertices. A
grid is stored row by row. Reading outside of it gives zero with `entry` and a fault
with `get`; formulas use the former, input that may be out of range the latter.

## Main definitions

* `Grid.entry`, `Grid.get`: Entries, unchecked and checked.

## Theorems

* `Grid.entry_ofFn`: The entries of a grid are the ones it was made from.
-/

namespace WeakForm

/-- A rectangular array, stored row by row. -/
structure Grid (α : Type) where
  rows : Nat
  cols : Nat
  cells : Array (Array α)

namespace Grid

variable {α : Type}

/-- The grid with the given entries. -/
def ofFn (rows cols : Nat) (f : Nat → Nat → α) : Grid α :=
  ⟨rows, cols, Array.ofFn fun i : Fin rows => Array.ofFn fun j : Fin cols => f i j⟩

section

variable [Zero α]

/-- An entry, zero outside of the grid. -/
def entry (g : Grid α) (i j : Nat) : α :=
  match g.cells[i]? with
  | some row => row[j]?.getD 0
  | none => 0

/-- An entry that must lie inside of the grid. -/
def get (g : Grid α) (i j : Nat) : Checked α :=
  if i < g.rows ∧ j < g.cols then .ok (g.entry i j) else .error .outOfRange

theorem get_eq_ok {g : Grid α} {i j : Nat} {x : α} :
    g.get i j = .ok x ↔ (i < g.rows ∧ j < g.cols) ∧ g.entry i j = x := by
  unfold get
  split
  · next h => exact ⟨fun hx => ⟨h, Except.ok.inj hx⟩, fun hx => congrArg Except.ok hx.2⟩
  · next h => exact ⟨fun hx => absurd hx (by simp), fun hx => absurd hx.1 h⟩

/-- The entries of a column, zero outside of the grid. -/
def column (g : Grid α) (j : Nat) : List α := (List.range g.rows).map fun i => g.entry i j

def toRows (g : Grid α) : List (List α) :=
  (List.range g.rows).map fun i => (List.range g.cols).map fun j => g.entry i j

/-- The grid with the given columns, which must have equal lengths. -/
def ofColumns (columns : List (List α)) : Checked (Grid α) :=
  let rows := (columns.head?.getD []).length
  if columns.all (·.length = rows) then
    .ok (ofFn rows columns.length fun i j => ((columns[j]?.getD [])[i]?).getD 0)
  else .error .outOfRange

theorem entry_ofFn {rows cols i j : Nat} (f : Nat → Nat → α) (hi : i < rows) (hj : j < cols) :
    (ofFn rows cols f).entry i j = f i j := by
  simp [ofFn, entry, hi, hj]

end

end Grid
end WeakForm
