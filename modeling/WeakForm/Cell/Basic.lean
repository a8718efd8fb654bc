import WeakForm.Fault

/-!
# Reference simplices

The cells a form is integrated over are simplices: intervals, triangles and
tetrahedra. Their reference cell has the origin as vertex zero and the unit
vectors as further vertices. A facet carries the number of the vertex opposite to
it, except on intervals, where facet `f` is vertex `f` itself.

An integral is taken over cells, over facets on the boundary, or over facets
between two cells. In the last case every quantity belongs to one of the two
cells, named by its side.
-/

namespace WeakForm

/-- The shape of a simplicial cell. -/
inductive Shape where
  | interval
  | triangle
  | tetrahedron
  deriving DecidableEq, Repr, Inhabited

namespace Shape

def dimension : Shape → Nat
  | interval => 1
  | triangle => 2
  | tetrahedron => 3

theorem dimension_pos (s : Shape) : 0 < s.dimension := by cases s <;> decide

theorem dimension_le (s : Shape) : s.dimension ≤ 3 := by cases s <;> decide

def ofDimension? : Nat → Option Shape
  | 1 => some interval
  | 2 => some triangle
  | 3 => some tetrahedron
  | _ => none

def vertexCount (s : Shape) : Nat := s.dimension + 1

def facetCount (s : Shape) : Nat := s.dimension + 1

/-- The dimension of the cell, or of a facet. -/
def regionDimension (s : Shape) (facet : Option Nat) : Nat :=
  if facet.isSome then s.dimension - 1 else s.dimension

def name : Shape → String
  | interval => "interval"
  | triangle => "triangle"
  | tetrahedron => "tetrahedron"

/-- The vertices of a facet, in increasing order. -/
def facetVertices (s : Shape) (facet : Nat) : Checked (List Nat) :=
  if facet < s.facetCount then
    match s with
    | interval => .ok [facet]
    | _ => .ok ((List.range s.vertexCount).filter (· ≠ facet))
  else .error .unmet

/-- The vertex that does not lie on a facet. The number of the facet is not checked beyond what
    the subtraction on intervals needs. -/
def oppositeVertex (s : Shape) (facet : Nat) : Checked Nat :=
  match s with
  | interval => Size.sub 1 facet
  | _ => .ok facet

end Shape

/-- What an integral is taken over. -/
inductive Integral where
  | cell
  | exteriorFacet
  | interiorFacet
  deriving DecidableEq, Repr, Inhabited

namespace Integral

def name : Integral → String
  | cell => "cell"
  | exteriorFacet => "exterior_facet"
  | interiorFacet => "interior_facet"

/-- All kinds, in the order routines are listed in. -/
def all : List Integral := [cell, exteriorFacet, interiorFacet]

end Integral

/-- One of the two cells that share an interior facet. -/
inductive Side where
  | plus
  | minus
  deriving DecidableEq, Repr, Inhabited

namespace Side

def position : Side → Nat
  | plus => 0
  | minus => 1

/-- What is appended to the names of quantities of a side; nothing without a side. -/
def suffix : Option Side → String
  | none => ""
  | some plus => "0"
  | some minus => "1"

end Side
end WeakForm
