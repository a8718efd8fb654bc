import WeakForm.Cell.Reference
import WeakForm.Problem
import WeakForm.Quadrature.Gauss
import WeakForm.Tuple

/-!
# Quadrature rules on simplices

A rule for the triangle or the tetrahedron is a product of Gauss rules on the
square or the cube, collapsed onto the simplex. The collapse multiplies the
integrand by a polynomial of degree one less than the dimension, which the number
of points per axis accounts for.

A rule for a facet is a rule for the reference simplex one dimension lower, with
its points moved onto the facet. It keeps the weights of that simplex.

## Main definitions

* `Rule.interval`, `Rule.triangle`, `Rule.tetrahedron`: Collapsed Gauss rules.
-/

namespace WeakForm

/-- Weights and points of a quadrature rule. -/
structure Rule (α : Type) where
  weights : List α
  points : List (List α)

namespace Rule

variable {α : Type} [Scalar α]

/-- The number of points. -/
def size (r : Rule α) : Nat := r.weights.length

/-- The number of coordinates of the points. -/
def dimension (r : Rule α) : Nat := (r.points.head?.getD []).length

/-- The rule with given pairs of weights and points. -/
def ofPairs (pairs : List (α × List α)) : Rule α := ⟨pairs.map Prod.fst, pairs.map Prod.snd⟩

/-- The number of Gauss points per axis for polynomials of a degree on a simplex. -/
def pointsPerAxis (degree dimension : Nat) : Checked Nat := do
  return max ((← Size.add (← Size.add degree dimension) 1) / 2) 1

def interval (line : List (α × α)) : Rule α := ofPairs (line.map fun (u, w) => (w, [u]))

/-- The Gauss rule collapsed onto the triangle. -/
def triangle (line : List (α × α)) : Rule α :=
  ofPairs (line.flatMap fun (u, wu) => line.map fun (v, wv) =>
    (wu * wv * (1 - v), [u * (1 - v), v]))

/-- The Gauss rule collapsed onto the tetrahedron. -/
def tetrahedron (line : List (α × α)) : Rule α :=
  ofPairs (line.flatMap fun (u, wu) => line.flatMap fun (v, wv) => line.map fun (w, ww) =>
    (wu * wv * ww * (1 - v) * (1 - w) * (1 - w), [u * (1 - v) * (1 - w), v * (1 - w), w]))

/-- The rule with `n` points per axis on the simplex of a dimension. In dimension zero there is
    one point without coordinates. -/
def collapsed (source : Gauss.Source α) (dimension n : Nat) : Outcome (Rule α) := do
  match dimension with
  | 0 => return ⟨[1], [[]]⟩
  | 1 => return interval (← Gauss.rule source n)
  | 2 => return triangle (← Gauss.rule source n)
  | 3 => return tetrahedron (← Gauss.rule source n)
  | _ => throw (.problem (.noRule dimension))

/-- The rule on the simplex of a dimension for polynomials of a degree. -/
def simplex (source : Gauss.Source α) (dimension degree : Nat) : Outcome (Rule α) := do
  collapsed source dimension (← pointsPerAxis degree dimension)

/-- Requires that the points of a rule for the reference cell or a facet can be listed. -/
def reserve (shape : Shape) (facet : Option Nat) (degree : Nat) : Checked Unit := do
  let dimension := shape.regionDimension facet
  Tuple.reserve (← pointsPerAxis degree dimension) dimension

def reference (source : Gauss.Source α) (shape : Shape) (facet : Option Nat) (degree : Nat) :
    Outcome (Rule α) := do
  match facet with
  | none => simplex source shape.dimension degree
  | some facet =>
    let r ← simplex source (shape.dimension - 1) degree
    return ⟨r.weights, ← shape.facetPoints facet r.points⟩

/-- The weighted sum of the values of a function at the points. -/
def integrate (r : Rule α) (f : List α → α) : α :=
  Scalar.sum (List.zipWith (fun w p => w * f p) r.weights r.points)

/-- A product of powers of coordinates, multiplied out from one. Coordinates without exponent and
    exponents without coordinate are left out. -/
def coordinateProduct (exponents : List Nat) (point : List α) : α :=
  (point.zip exponents).foldl (fun product (x, e) =>
    (List.range e).foldl (fun product _ => product * x) product) 1

end Rule
end WeakForm
