import WeakForm.Cell.Dimensions
import WeakForm.Element

/-!
# Multilinear forms

A form is a sum of integrals of products of basis functions, one basis function
for each argument. A factor takes one component of the basis function and
differentiates it along physical axes; on interior facets it also says which of
the two cells it is taken from.

A monomial fits its form if its factors are the arguments in some order, each on
the cell of the form, with component and axes in range, and with a side exactly
on interior facets.
-/

namespace WeakForm

/-- A basis function of an argument, possibly differentiated. -/
structure Factor where
  argument : Nat
  component : Nat := 0
  /-- The physical axes of the partial derivatives. -/
  derivatives : List Nat := []
  side : Option Side := none
  deriving DecidableEq, Repr

namespace Factor

/-- The number of derivatives. -/
def order (f : Factor) : Nat := f.derivatives.length

end Factor

/-- A coefficient times a product of factors, integrated over one domain. -/
structure Monomial (α : Type) where
  integral : Integral
  domain : Nat
  coefficient : α
  /-- Replaces the estimated degree of the integrand. -/
  quadratureDegree : Option Nat
  factors : List Factor

/-- A sum of monomials over given arguments. -/
structure Form (α : Type) where
  name : String
  cell : Shape
  geometricDimension : Nat
  arguments : List Element
  monomials : List (Monomial α)

namespace Form

variable {α : Type}

/-- The number of arguments. -/
def rank (f : Form α) : Nat := f.arguments.length

def dims (f : Form α) : Except Problem Dimensions :=
  Dimensions.of f.cell.dimension f.geometricDimension

def argumentDims (f : Form α) : List Nat := f.arguments.map Element.spaceDimension

/-- The degree of a factor: that of its element less its derivatives. -/
def factorDegree (f : Form α) (factor : Factor) : Nat :=
  match f.arguments[factor.argument]? with
  | some e => e.degree - factor.order
  | none => 0

/-- The degree a monomial is integrated with: the sum of the degrees of its factors, unless it
    says otherwise. -/
def quadratureDegree (f : Form α) (m : Monomial α) : Checked Nat :=
  match m.quadratureDegree with
  | some degree => .ok degree
  | none => Size.sum (m.factors.map f.factorDegree)

/-- Checks one factor, given the factors before it. -/
def checkFactor (f : Form α) (d : Dimensions) (m : Monomial α) (before : List Factor)
    (factor : Factor) : Outcome Unit := do
  let defect (x : Defect) : Outcome Unit := throw (.problem (.invalidMonomial x.message))
  match f.arguments[factor.argument]? with
  | none => defect (.noSuchArgument factor.argument)
  | some e =>
    if e.cell ≠ f.cell then defect (.wrongCell factor.argument e.cell f.cell)
    else if before.any fun other => other.argument = factor.argument then
      defect (.repeatedArgument factor.argument)
    else if max (← e.physicalSize) 1 ≤ factor.component then
      defect (.noSuchComponent factor.component e.text)
    else
      match factor.derivatives.find? fun axis => d.gdim ≤ axis with
      | some axis => defect (.noSuchAxis axis d.gdim)
      | none =>
        if factor.side.isSome = decide (m.integral = .interiorFacet) then return ()
        else defect (.wrongRestriction factor.argument)

def checkFactors (f : Form α) (d : Dimensions) (m : Monomial α) (before : List Factor) :
    List Factor → Outcome Unit
  | [] => .ok ()
  | factor :: rest => do
    f.checkFactor d m before factor
    f.checkFactors d m (before ++ [factor]) rest

/-- The factors of a monomial in the order of the arguments, if the monomial fits the form. -/
def arrange (f : Form α) (m : Monomial α) : Outcome (List Factor) := do
  let d ← f.dims
  f.checkFactors d m [] m.factors
  (List.range f.rank).mapM fun argument =>
    match m.factors.find? fun factor => factor.argument = argument with
    | some factor => .ok factor
    | none => .error (.problem (.invalidMonomial (Defect.missingArgument argument).message))

end Form
end WeakForm
