import WeakForm.Quadrature.Gauss
import WeakForm.Table

/-!
# Options of the compiler

How code is generated. Level zero writes every term as it comes, level one leaves
columns of zeros out of the tables, and level two adds up the geometry of terms
that share weights and tables.

## Main definitions

* `Representation`: Quadrature loops, or contraction of reference tensors.
-/

namespace WeakForm

/-- How element tensors are computed. -/
inductive Representation where
  | quadrature
  /-- Contraction of reference tensors, where it is possible. -/
  | tensor
  deriving DecidableEq, Repr

/-- How code is generated. -/
structure Options (α : Type) where
  optimisationLevel : Nat
  /-- Tabulated values of a smaller magnitude count as zero. -/
  epsilon : α
  /-- Whether routines clear the element tensor before they add to it. -/
  resetTensor : Bool
  /-- What the names of routines start with; the name of the form by default. -/
  routineName : Option String
  representation : Representation

namespace Options

variable {α : Type} [Scalar α]

def standard : Options α := ⟨2, Scalar.tiny, true, none, .quadrature⟩

end Options

/-- Options, and where the compiler takes its numbers and tables from. -/
structure Setting (α : Type) where
  options : Options α
  /-- The text of a number in generated code. -/
  number : α → String
  gauss : Gauss.Source α
  tabulator : Tabulator α

end WeakForm
