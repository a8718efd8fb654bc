import WeakForm.Cell.Dimensions
import WeakForm.Cell.Reference
import WeakForm.Geometry.Symbol

/-!
# Affine cells

The geometry of one physical simplex, in closed formulas for each of the six
dimension pairs. The coordinates of the vertices are the columns of a grid with
`gdim` rows and `tdim + 1` columns. The Jacobian `J` of the map from the reference
cell holds the edges from vertex zero. Its inverse `K` is the inverse of a square
Jacobian and the pseudo-inverse of a tall one, and the determinant is replaced by
the pseudo-determinant likewise.

Degenerate cells are not refused: over floating-point numbers they give infinite
or undefined values.

## Main definitions

* `jacobian`, `inverseJacobian`: The Jacobian; its determinant and inverse.
* `orient`: The determinant of an oriented manifold cell.
* `facetDeterminant`, `facetNormal`, `facetArea`: Measure and direction of facets.
* `cellVolume`, `circumradius`: Measure and circumscribed sphere of the cell.
* `toPhysical`, `toReference`: The affine map and its inverse.
-/

namespace WeakForm
namespace Geometry

variable {α : Type} [Scalar α]

/-- Requires one row per geometric dimension and one column per vertex. -/
def checkVertices (x : Grid α) (d : Dimensions) : Checked Unit :=
  Checked.require (x.rows = d.gdim && x.cols = d.tdim + 1)

/-- The vector from one vertex to another. -/
def edge (x : Grid α) (start stop : Nat) : List α :=
  (List.range x.rows).map fun g => x.entry g stop - x.entry g start

/-- The entry of a vector, zero outside of it. -/
def coordinate (v : List α) (i : Nat) : α := v[i]?.getD 0

def cross (a b : List α) : List α :=
  let a := coordinate a
  let b := coordinate b
  [a 1 * b 2 - a 2 * b 1, a 2 * b 0 - a 0 * b 2, a 0 * b 1 - a 1 * b 0]

def negate (v : List α) : List α := v.map (- ·)

def divide (v : List α) (c : α) : List α := v.map (· / c)

/-- The vector of length one in the same direction. -/
def normalize (v : List α) : List α := divide v (Scalar.norm v)

/-- The Jacobian: column `t` is the edge from vertex zero to vertex `t + 1`. -/
def jacobian (x : Grid α) (d : Dimensions) : Grid α :=
  Grid.ofFn d.gdim d.tdim fun g t => x.entry g (t + 1) - x.entry g 0

/-- The cofactors of a square Jacobian in three dimensions. -/
def cofactors (j : Nat → Nat → α) : Grid α :=
  Grid.ofFn 3 3 fun a b =>
    match a, b with
    | 0, 0 => j 1 1 * j 2 2 - j 1 2 * j 2 1
    | 0, 1 => j 1 2 * j 2 0 - j 1 0 * j 2 2
    | 0, 2 => j 1 0 * j 2 1 - j 1 1 * j 2 0
    | 1, 0 => j 0 2 * j 2 1 - j 0 1 * j 2 2
    | 1, 1 => j 0 0 * j 2 2 - j 0 2 * j 2 0
    | 1, 2 => j 0 1 * j 2 0 - j 0 0 * j 2 1
    | 2, 0 => j 0 1 * j 1 2 - j 0 2 * j 1 1
    | 2, 1 => j 0 2 * j 1 0 - j 0 0 * j 1 2
    | _, _ => j 0 0 * j 1 1 - j 0 1 * j 1 0

/-- The determinant and the inverse of the Jacobian. For manifold cells these are the
    pseudo-determinant, the root of the determinant of the transposed Jacobian times the
    Jacobian, and the pseudo-inverse. -/
def inverseJacobian (jac : Grid α) (d : Dimensions) : α × Grid α :=
  let j := jac.entry
  match d.tdim, d.gdim with
  | 1, 1 =>
    let det := j 0 0
    (det, Grid.ofFn 1 1 fun _ _ => 1 / det)
  | 2, 2 =>
    let det := j 0 0 * j 1 1 - j 0 1 * j 1 0
    (det, Grid.ofFn 2 2 fun t g =>
      match t, g with
      | 0, 0 => j 1 1 / det
      | 0, _ => -j 0 1 / det
      | _, 0 => -j 1 0 / det
      | _, _ => j 0 0 / det)
  | 3, 3 =>
    let c := cofactors j
    let det := j 0 0 * c.entry 0 0 + j 1 0 * c.entry 1 0 + j 2 0 * c.entry 2 0
    (det, Grid.ofFn 3 3 fun t g => c.entry g t / det)
  | 1, gdim =>
    let det2 := Scalar.sum ((List.range gdim).map fun g => j g 0 * j g 0)
    (Scalar.sqrt det2, Grid.ofFn 1 gdim fun _ g => j g 0 / det2)
  | _, _ =>
    let d0 := j 1 0 * j 2 1 - j 2 0 * j 1 1
    let d1 := -(j 0 0 * j 2 1 - j 2 0 * j 0 1)
    let d2 := j 0 0 * j 1 1 - j 1 0 * j 0 1
    let det := Scalar.sqrt (d0 * d0 + d1 * d1 + d2 * d2)
    let n1 := Scalar.sum ((List.range 3).map fun g => j g 0 * j g 0)
    let n2 := Scalar.sum ((List.range 3).map fun g => j g 1 * j g 1)
    let m := Scalar.sum ((List.range 3).map fun g => j g 0 * j g 1)
    let den := n1 * n2 - m * m
    (det, Grid.ofFn 2 3 fun t g =>
      match t with
      | 0 => (j g 0 * n2 - j g 1 * m) / den
      | _ => (-j g 0 * m + j g 1 * n1) / den)

/-- Applies the orientation of a manifold cell to its pseudo-determinant. One flips the sign,
    zero stands for a cell without orientation. -/
def orient (det : α) (orientation : Int) : Except Problem α :=
  if orientation = 0 then .error .undefinedOrientation
  else if orientation = 1 then .ok (-det)
  else .ok det

/-- The measure of a facet divided by that of the reference facet. -/
def facetDeterminant (x : Grid α) (d : Dimensions) (facet : Nat) : Checked α := do
  checkVertices x d
  let v ← d.shape.facetVertices facet
  match d.tdim, v with
  | 1, _ => return 1
  | 2, [v0, v1] => return Scalar.norm (edge x v0 v1)
  | _, [v0, v1, v2] => return Scalar.norm (cross (edge x v0 v1) (edge x v0 v2))
  | _, _ => .error .outOfRange

/-- The outward normal of a facet with length one. On a manifold triangle it lies in the plane
    of the triangle: the edge is turned by a right angle about the normal of the plane. -/
def facetNormal (x : Grid α) (d : Dimensions) (facet : Nat) : Checked (List α) := do
  checkVertices x d
  let v ← d.shape.facetVertices facet
  let opposite ← d.shape.oppositeVertex facet
  match d.tdim, d.gdim, v with
  | 1, 1, _ =>
    let outward :=
      if facet = 0 then Scalar.lt (x.entry 0 1) (x.entry 0 0)
      else Scalar.lt (x.entry 0 0) (x.entry 0 1)
    return [if outward then 1 else -1]
  | 1, _, _ => return normalize (if facet = 0 then edge x 1 0 else edge x 0 1)
  | 2, 2, [v0, v1] =>
    let e := coordinate (edge x v0 v1)
    let det := Scalar.norm (edge x v0 v1)
    let outward := Scalar.lt
      (e 1 * (x.entry 0 opposite - x.entry 0 v0) - e 0 * (x.entry 1 opposite - x.entry 1 v0)) 0
    let n := [e 1 / det, -e 0 / det]
    return if outward then n else negate n
  | 3, 3, [v0, v1, v2] =>
    let a := cross (edge x v0 v1) (edge x v0 v2)
    let det := Scalar.norm a
    let outward := Scalar.lt (Scalar.dot a (edge x v0 opposite)) 0
    return divide (if outward then a else negate a) det
  | 2, 3, [v0, v1] =>
    let e := edge x v0 v1
    let k := normalize (cross (edge x 0 1) (edge x 0 2))
    let along := Scalar.dot k e
    let n := normalize (List.zipWith (· + ·) (cross k e) (k.map (· * along)))
    return if Scalar.lt 0 (Scalar.dot n (edge x v0 opposite)) then negate n else n
  | _, _, _ => .error .outOfRange

def cellVolume (det : α) (tdim : Nat) : α :=
  let reference :=
    match Shape.ofDimension? tdim with
    | some shape => shape.volume
    | none => 1
  Scalar.abs det * reference

/-- The measure of a facet with the given facet determinant. -/
def facetArea (det : α) (tdim : Nat) : α :=
  match tdim with
  | 1 => 1
  | 2 => det
  | _ => det / Scalar.ofNat 2

/-- The radius of the circumscribed sphere; for intervals the length by convention. -/
def circumradius (x : Grid α) (d : Dimensions) : α :=
  let det := (inverseJacobian (jacobian x d) d).1
  let volume := cellVolume det d.tdim
  let length (a b : Nat) : α := Scalar.norm (edge x a b)
  match d.tdim with
  | 1 => Scalar.abs det
  | 2 => Scalar.decimal 25 2 * (length 1 2 * length 0 2 * length 0 1) / volume
  | _ =>
    let la := length 1 2 * length 0 3
    let lb := length 0 2 * length 1 3
    let lc := length 0 1 * length 2 3
    let s := Scalar.decimal 5 1 * (la + lb + lc)
    let area := Scalar.sqrt (s * (s - la) * (s - lb) * (s - lc))
    area / (Scalar.ofNat 6 * volume)

/-- The image of a point of the reference cell: the combination of the vertices by the
    barycentric coordinates of the point. -/
def toPhysical (x : Grid α) (point : List α) : Checked (List α) := do
  Checked.bound point.length x.cols
  let w := 1 - Scalar.sum point
  return (List.range x.rows).map fun g =>
    ((List.range point.length).zip point).foldl (fun y (k, c) => y + x.entry g (k + 1) * c)
      (x.entry g 0 * w)

/-- A grid times a vector, accumulated column by column. -/
def apply (m : Grid α) (v : List α) : List α :=
  (List.range m.rows).map fun i =>
    ((List.range m.cols).drop 1).foldl (fun y k => y + m.entry i k * coordinate v k)
      (m.entry i 0 * coordinate v 0)

/-- The reference coordinates of a physical point, or of its projection onto the plane of a
    manifold cell. -/
def toReference (x inverse : Grid α) (point : List α) : Checked (List α) := do
  Checked.require (point.length = x.rows)
  return apply inverse (List.zipWith (· - ·) point (x.column 0))

end Geometry

/-- A physical cell together with its derived quantities. -/
structure AffineMap (α : Type) where
  dims : Dimensions
  vertices : Grid α
  jacobian : Grid α
  inverse : Grid α
  determinant : α

namespace AffineMap

variable {α : Type} [Scalar α]

/-- The cell with the given vertices. -/
def of (x : Grid α) (d : Dimensions) : Checked (AffineMap α) := do
  Geometry.checkVertices x d
  let j := Geometry.jacobian x d
  let (det, k) := Geometry.inverseJacobian j d
  return ⟨d, x, j, k, det⟩

/-- The cell with the given vertices and, if it is a manifold cell, orientation. -/
def oriented (x : Grid α) (d : Dimensions) (orientation : Int) : Outcome (AffineMap α) := do
  let m ← of x d
  if d.isManifold then return { m with determinant := ← Geometry.orient m.determinant orientation }
  else return m

/-- The value of a geometry symbol on the cell. The scale factor is that of the cell, and sides
    are ignored. -/
def symbolValue (m : AffineMap α) : Symbol → α
  | .jacobian _ row col => m.jacobian.entry row col
  | .inverse _ row col => m.inverse.entry row col
  | .determinant _ => m.determinant
  | .scale => Scalar.abs m.determinant

end AffineMap
end WeakForm
