import WeakForm.Cell.Basic

/-!
# Problems of a form

A problem is something wrong with the input of the compiler: a mapping nobody
knows, an element that cannot be tabulated, a monomial that does not fit its
form. It affects the integral it occurs in and no other. Problems are causes;
their wording is given in one place, `Problem.message`.

## Main definitions

* `Failure`: A problem or a fault.
-/

namespace WeakForm

/-- What can be wrong with a monomial. -/
inductive Defect where
  | noSuchArgument (argument : Nat)
  | wrongCell (argument : Nat) (element form : Shape)
  | repeatedArgument (argument : Nat)
  | noSuchComponent (component : Nat) (element : String)
  | noSuchAxis (axis dimension : Nat)
  | wrongRestriction (argument : Nat)
  | missingArgument (argument : Nat)
  deriving DecidableEq, Repr

namespace Defect

def message : Defect → String
  | noSuchArgument argument => s!"argument {argument} does not exist"
  | wrongCell argument element form =>
    s!"argument {argument} is defined on a {element.name}, " ++
      s!"but the form is integrated over a {form.name}"
  | repeatedArgument argument => s!"argument {argument} appears more than once"
  | noSuchComponent component element => s!"component {component} out of range for {element}"
  | noSuchAxis axis dimension => s!"derivative along axis {axis} in {dimension} dimensions"
  | wrongRestriction argument =>
    s!"basis functions must be restricted exactly on interior facets (argument {argument})"
  | missingArgument argument => s!"argument {argument} is missing"

end Defect

/-- What can be wrong with the input of the compiler. -/
inductive Problem where
  | unknownIndexKind (kind : String)
  /-- The terms of one element tensor differ in their primary dimensions. -/
  | rankMismatch (expected actual : List Nat)
  /-- A manifold cell has no orientation. -/
  | undefinedOrientation
  | unknownMapping (mapping : String)
  | unsupportedElement (element : String)
  | unsupportedDimensions (tdim gdim : Nat)
  /-- A value mapping was applied to reference values of the wrong size. -/
  | invalidValueShape (mapping : String) (expected actual : Nat)
  | invalidMonomial (defect : String)
  /-- There is no quadrature rule in this dimension. -/
  | noRule (dimension : Nat)
  deriving DecidableEq, Repr

namespace Problem

/-- A list of numbers in brackets. -/
def bracketed (ns : List Nat) : String :=
  "[" ++ String.intercalate ", " (ns.map toString) ++ "]"

def ruleMessage (dimension : Nat) : String :=
  s!"Simplex quadrature is not available in dimension {dimension}"

/-- The wording of a problem. -/
def message : Problem → String
  | unknownIndexKind kind => s!"Unknown index type {kind}"
  | rankMismatch expected actual =>
    "Terms of element tensor have mismatching primary dimensions: expected " ++
      bracketed expected ++ ", got " ++ bracketed actual
  | undefinedOrientation => "cell orientation must be defined (not 0)"
  | unknownMapping mapping => s!"Unknown mapping: {mapping}"
  | unsupportedElement element => s!"Unable to tabulate element: {element}"
  | unsupportedDimensions tdim gdim =>
    s!"Unsupported dimensions: topological dimension {tdim}, geometric dimension {gdim}"
  | invalidValueShape mapping expected actual =>
    s!"Mapping {mapping} expects {expected} reference components, got {actual}"
  | invalidMonomial defect => "Invalid monomial: " ++ defect
  | noRule dimension => "Quadrature error: " ++ ruleMessage dimension

end Problem

/-- A problem together with the integral it occurred in. -/
structure LocatedProblem where
  kind : Integral
  domain : Nat
  problem : Problem
  deriving DecidableEq, Repr

namespace LocatedProblem

def message (p : LocatedProblem) : String :=
  s!"{p.kind.name} integral {p.domain}: " ++ p.problem.message

end LocatedProblem

/-- Why there is no result. -/
inductive Failure where
  | problem (p : Problem)
  | fault (f : Fault)
  deriving DecidableEq, Repr

/-- A value, or the failure that prevented it. -/
abbrev Outcome (β : Type) := Except Failure β

instance : MonadLift (Except Fault) (Except Failure) where
  monadLift
    | .ok x => .ok x
    | .error f => .error (.fault f)

instance : MonadLift (Except Problem) (Except Failure) where
  monadLift
    | .ok x => .ok x
    | .error p => .error (.problem p)

end WeakForm
