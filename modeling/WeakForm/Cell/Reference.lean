import WeakForm.Cell.Basic
import WeakForm.Grid

/-!
# Coordinates on the reference cell

The reference cell of dimension `d` has the origin and the `d` unit vectors as
vertices. A facet is an image of the reference cell one dimension lower: vertex
`k` of the latter goes to the `k`-th vertex of the facet, and the points between
follow affinely.
-/

namespace WeakForm
namespace Shape

variable {α : Type} [Scalar α]

/-- The measure of the reference cell. -/
def volume : Shape → α
  | interval => 1
  | triangle => Scalar.decimal 5 1
  | tetrahedron => 1 / Scalar.ofNat 6

def vertexCoordinate (vertex axis : Nat) : α := if vertex = axis + 1 then 1 else 0

/-- The vertices of the reference cell, one per column. -/
def vertices (s : Shape) : Grid α :=
  Grid.ofFn s.dimension s.vertexCount fun axis vertex => vertexCoordinate vertex axis

/-- The image in the reference cell of a point of the reference facet. The first vertex of the
    facet is the origin, the others span the edges. -/
def facetPoint (s : Shape) (facetVertices : List Nat) (point : List α) : Checked (List α) := do
  let origin ← entryAt facetVertices 0
  let start := (List.range s.dimension).map fun axis => (vertexCoordinate origin axis : α)
  (List.range point.length).zip point |>.foldlM (fun x (k, coordinate) => do
    let vertex ← entryAt facetVertices (k + 1)
    let edge := (List.range s.dimension).map fun axis =>
      (vertexCoordinate vertex axis - vertexCoordinate origin axis : α)
    return List.zipWith (fun x e => x + e * coordinate) x edge) start

def facetPoints (s : Shape) (facet : Nat) (points : List (List α)) : Checked (List (List α)) := do
  let facetVertices ← s.facetVertices facet
  points.mapM (s.facetPoint facetVertices)

end Shape
end WeakForm
