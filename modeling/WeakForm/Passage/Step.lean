import WeakForm.Cell.Dimensions
import WeakForm.Cpp

/-!
# Steps of geometry code

The code that computes geometric quantities at the start of a routine is a list
of steps: definitions of scalars by formulas, choices of vertices by the number
of the facet, and the check of the orientation. Keeping the formulas as trees
lets the same steps be written and be carried out.

Formulas read scalars that were defined before, coordinates of the vertices of a
cell, and coordinates of the current quadrature point.
-/

namespace WeakForm

/-- A vertex of a cell: a fixed number, or the value of a variable. -/
inductive VertexRef where
  | fixed (number : Nat)
  | named (variableName : String)
  deriving DecidableEq, Repr

/-- What formulas read. -/
inductive Quantity where
  | scalar (name : String)
  | coordinate (side : Option Side) (vertex : VertexRef) (axis : Nat)
  /-- A reference coordinate of the current quadrature point. -/
  | point (axis : Nat)
  deriving DecidableEq, Repr

/-- A decimal literal, `units / 10 ^ places`. -/
structure Fixed where
  units : Nat
  places : Nat
  deriving DecidableEq, Repr

/-- An expression of a formula. -/
abbrev Term := Expr Quantity Fixed

/-- A condition on the direction of a normal. -/
inductive Test where
  /-- The expression is below zero. -/
  | negative (e : Term)
  /-- The facet is the end of an interval that lies ahead. -/
  | ahead (side : Option Side)
  deriving DecidableEq, Repr

/-- An expression, or a choice between two. -/
inductive Formula where
  | plain (e : Term)
  /-- The first expression if the direction is right, or wrong if `opposite`. -/
  | directed (opposite : Bool) (a b : Term)
  /-- The first expression if the direction is right; negated as a whole if `opposite`. -/
  | turned (opposite : Bool) (a b : Term)
  /-- The first expression on facet zero. -/
  | byFacet (side : Option Side) (a b : Term)
  deriving DecidableEq, Repr

/-- How a definition is laid out: quotients with blanks, quotients without blanks, or quotients
    with blanks and a blank where other definitions of the group have a minus sign. -/
inductive Layout where
  | wide
  | tight
  | aligned
  deriving DecidableEq, Repr

/-- One step of geometry code. -/
inductive Step where
  | note (text : String)
  | gap
  /-- Defines a scalar, which later steps may change unless it is constant. -/
  | define (isConstant : Bool) (name : String) (layout : Layout) (value : Formula)
  /-- Names the coordinates of the vertices of a cell. -/
  | coordinates (side : Option Side)
  /-- Lists the vertices of all facets under a name. -/
  | vertexLists (name : String) (rows : List (List Nat))
  /-- Names the vertex at a place in the list of the current facet. -/
  | facetVertex (name lists : String) (side : Option Side) (place : Nat)
  /-- Defines the direction of the normal. -/
  | direction (test : Test)
  /-- Refuses a cell without orientation, and flips the determinant of a turned one. -/
  | orientation (side : Option Side)
  | pointArray (side : Option Side) (gdim : Nat)
  | pointEntry (side : Option Side) (axis : Nat) (value : Term)
  deriving Repr

namespace VertexRef

def text : VertexRef → String
  | fixed number => toString number
  | named variableName => variableName

end VertexRef

namespace Quantity

def text : Quantity → String
  | scalar name => name
  | coordinate side vertex axis => s!"x{Side.suffix side}[{vertex.text}][{axis}]"
  | point axis => s!"ip_points[ip][{axis}]"

end Quantity

namespace Fixed

def text (f : Fixed) : String := Decimal.withPoint f.units f.places

end Fixed

namespace Layout

def operators : Layout → Operators
  | tight => Cpp.operators
  | _ => ⟨"*", fun a b => a ++ " / " ++ b⟩

end Layout

def Term.text (layout : Layout) (e : Term) : String :=
  Expr.text layout.operators Quantity.text Fixed.text e

namespace Test

def text : Test → String
  | negative e => Term.text .wide e ++ " < 0"
  | ahead side =>
    let x (vertex : Nat) : String := Quantity.text (.coordinate side (.fixed vertex) 0)
    Cpp.facetVariable side ++ " == 0 ? " ++ x 0 ++ " > " ++ x 1 ++ " : " ++ x 1 ++ " > " ++ x 0

end Test

namespace Formula

def choice (test : String) (layout : Layout) (a b : Term) : String :=
  test ++ " ? " ++ Term.text layout a ++ " : " ++ Term.text layout b

def text (layout : Layout) : Formula → String
  | plain e => Term.text layout e
  | directed opposite a b => choice (if opposite then "!direction" else "direction") layout a b
  | turned opposite a b =>
    (if opposite then "-" else "") ++ grouped (choice "direction" layout a b)
  | byFacet side a b => choice (Cpp.facetVariable side ++ " == 0") layout a b

end Formula

namespace Step

def lines : Step → List String
  | note text => [Cpp.comment text]
  | gap => [""]
  | define isConstant name layout value =>
    let kind := if isConstant then "const double " else "double "
    let pad := if layout = .aligned then " " else ""
    [kind ++ name ++ " = " ++ pad ++ value.text layout ++ ";"]
  | coordinates side =>
    [s!"const double * const * x{Side.suffix side} = c{Side.suffix side}.coordinates;"]
  | vertexLists name rows =>
    let columns := (rows.head?.getD []).length
    let texts := rows.map fun row => Cpp.braced (Cpp.listed (row.map toString))
    [s!"static const unsigned int {name}[{rows.length}][{columns}] = " ++
      Cpp.braced (Cpp.listed texts) ++ ";"]
  | facetVertex name lists side place =>
    [s!"const unsigned int {name} = {lists}[{Cpp.facetVariable side}][{place}];"]
  | direction test => ["const bool direction = " ++ test.text ++ ";"]
  | orientation side =>
    let r := Side.suffix side
    [Cpp.comment "Extract orientation",
      s!"const int orientation_marker{r} = c{r}.orientation;",
      s!"if (orientation_marker{r} == 0)",
      "  " ++ Cpp.raise "cell orientation must be defined (not 0)",
      Cpp.comment "(If orientation_marker == 1 = down, multiply detJ by -1)",
      s!"else if (orientation_marker{r} == 1)",
      s!"  detJ{r} *= -1;"]
  | pointArray side gdim => [s!"double X{Side.suffix side}[{gdim}];"]
  | pointEntry side axis value =>
    [s!"X{Side.suffix side}[{axis}] = " ++ Term.text .wide value ++ ";"]

end Step
end WeakForm
