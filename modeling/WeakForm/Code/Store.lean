import WeakForm.Code.Basic

/-!
# Stores of tables and weights

Tables with equal values are declared once, and so are weights. A store keeps the
distinct values in order of arrival, and hands out the number under which they are
declared. Values are compared as keys: the two zeros are equal, and a non-number
equals itself.

A table with a column of zeros may be compressed: only its other columns are
stored, together with the degrees of freedom they belong to.

## Main definitions

* `TableStore.register`: Stores a table.
* `WeightStore.register`: Stores the weights of a term.
-/

namespace WeakForm

/-- Equality of rows of numbers as keys. -/
def sameRow {α : Type} [Scalar α] : List α → List α → Bool
  | [], [] => true
  | x :: xs, y :: ys => Scalar.same x y && sameRow xs ys
  | _, _ => false

/-- Equality of tables of numbers as keys. -/
def sameRows {α : Type} [Scalar α] : List (List α) → List (List α) → Bool
  | [], [] => true
  | x :: xs, y :: ys => sameRow x y && sameRows xs ys
  | _, _ => false

/-- A stored table as seen from the loops that read it. -/
structure TableRef where
  number : Nat
  /-- The number of stored columns. -/
  columns : Nat
  /-- The number of the list of columns, if the table is compressed. -/
  nonzero : Option Nat
  deriving DecidableEq, Repr

/-- Distinct tables, and distinct lists of columns of compressed tables. -/
structure TableStore (α : Type) where
  compress : Bool
  tables : List (List (List α)) := []
  columns : List (List Nat) := []

namespace TableStore

variable {α : Type} [Scalar α]

/-- Whether a column holds a value other than zero. The rows are read up to the first such
    value, and every row that is read must have the column. -/
def columnNonzero (dof : Nat) : List (List α) → Checked Bool
  | [] => .ok false
  | row :: rest => do
    if Scalar.nonzero (← entryAt row dof) then return true else columnNonzero dof rest

/-- The columns that hold a value other than zero. -/
def nonzeroColumns (rows : List (List α)) : Checked (List Nat) :=
  (List.range (rows.head?.getD []).length).filterM fun dof => columnNonzero dof rows

/-- The position of an element of a list, or its length, and the list with the element. -/
def place {β : Type} (same : β → β → Bool) (x : β) (xs : List β) : Nat × List β :=
  match xs.findIdx? (same x) with
  | some number => (number, xs)
  | none => (xs.length, xs ++ [x])

/-- Stores a table, compressed if it has a column of zeros and compression is asked for. -/
def register (s : TableStore α) (rows : List (List α)) : Checked (TableRef × TableStore α) := do
  let nonzero ← nonzeroColumns rows
  let width := (rows.head?.getD []).length
  if s.compress && nonzero.length < width then
    let stored ← rows.mapM fun row => nonzero.mapM (entryAt row)
    let (columnsNumber, columns) := place (· == ·) nonzero s.columns
    let (number, tables) := place sameRows stored s.tables
    return (⟨number, (stored.head?.getD []).length, some columnsNumber⟩, ⟨s.compress, tables, columns⟩)
  else
    let (number, tables) := place sameRows rows s.tables
    return (⟨number, width, none⟩, ⟨s.compress, tables, s.columns⟩)

def declarations (s : TableStore α) : Code α :=
  .block (.all (
    (s.tables.zipIdx.map fun (rows, number) => .seq .gap (.table number rows)) ++
    (s.columns.zipIdx.map fun (dofs, number) =>
      .all [.gap, .note "Array of non-zero columns", .columns number dofs])))

end TableStore

/-- Distinct weights, each with the numbers of the terms that use them. -/
structure WeightStore (α : Type) where
  groups : List (List α × List Nat) := []

/-- Numbers in brackets; a single one is followed by a comma. -/
def termTuple (terms : List Nat) : String :=
  match terms with
  | [single] => s!"({single},)"
  | _ => "(" ++ String.intercalate ", " (terms.map toString) ++ ")"

namespace WeightStore

variable {α : Type} [Scalar α]

/-- Adds a term to the group at a position. -/
def join (term : Nat) : Nat → List (List α × List Nat) → List (List α × List Nat)
  | _, [] => []
  | 0, (weights, terms) :: rest => (weights, terms ++ [term]) :: rest
  | n + 1, group :: rest => group :: join term n rest

/-- Stores the weights of a term. The result is the first term with these weights, which the
    weights are named after. -/
def register (s : WeightStore α) (term : Nat) (weights : List α) : Nat × WeightStore α :=
  match s.groups.findIdx? fun group => sameRow weights group.1 with
  | some k => (((s.groups[k]?.map Prod.snd).bind List.head?).getD term, ⟨join term k s.groups⟩)
  | none => (term, ⟨s.groups ++ [(weights, [term])]⟩)

/-- The comment about the terms that use some weights. -/
def comment (terms : List Nat) : String :=
  match terms with
  | [term] => s!"Array of quadrature weights (tensor/monomial term {term})"
  | _ => "Array of quadrature weights (tensor/monomial terms " ++ termTuple terms ++ ")"

def declarations (s : WeightStore α) : Code α :=
  .block (.all (s.groups.map fun (weights, terms) =>
    .seq (.note (comment terms)) (.weights (terms.head?.getD 0) weights)))

end WeightStore
end WeakForm
