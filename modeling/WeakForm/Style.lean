import WeakForm.Expr

/-!
# Styles of writing

Element tensors are written in two styles: as statements of a program, and as
equations of a document. A style fixes how numbers, symbols, products and
quotients are written and how the entries of the tensors are called. Names that
count from one can run out of numbers, so writing a name may fail.

## Main definitions

* `Style.monomial`, `Style.sum`: The text of symbolic geometry.
-/

namespace WeakForm

/-- How numbers, operators and names are written. -/
structure Style (α : Type) where
  number : α → String
  operators : Operators
  symbol : Symbol → Checked String
  /-- The entry `(i, a)` of the reference tensor of a term. -/
  referenceName : (term : Nat) → (i a : List Nat) → Checked String
  /-- The entry `a` of the geometry tensor of a term. -/
  geometryName : (term : Nat) → (a : List Nat) → Checked String
  /-- The entry `i` of the element tensor, which has the given position among all entries. -/
  elementName : (i : List Nat) → (position : Nat) → Checked String

namespace Style

variable {α : Type} (style : Style α)

/-- Factors joined by the sign of multiplication. -/
def product (factors : List String) : String :=
  String.intercalate style.operators.times factors

def expression (e : Expr Symbol α) : Checked String := do
  return (← e.mapNames style.symbol).text style.operators id style.number

variable [Scalar α]

def monomial (m : GeometryMonomial α) : Checked String := style.expression m.toExpr

def sum (s : GeometrySum α) : Checked String := style.expression s.toExpr

end Style
end WeakForm
