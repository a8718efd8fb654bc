import WeakForm.Problem

/-!
# Finite elements

An element is described by what the compiler needs of it: its cell, its degree,
the shapes of its values on the reference cell and on the physical cell, and for
every degree of freedom how the reference value of its basis function is mapped
and which components the value occupies.

Mappings change the number of components: a covariant or contravariant map takes
one component per topological dimension to one per geometric dimension, and the
double maps do so for both slots of a matrix.

## Main definitions

* `Mapping.components`: The number of components a mapping handles.
* `Element.lagrange`, `Element.discontinuous`, `Element.vector`,
  `Element.raviartThomas`, `Element.nedelec`: The elements of each family.
-/

namespace WeakForm

/-- How values of basis functions are mapped from the reference cell. -/
inductive Mapping where
  | affine
  | covariant
  | contravariant
  | doubleCovariant
  | doubleContravariant
  deriving DecidableEq, Repr

namespace Mapping

def name : Mapping → String
  | affine => "affine"
  | covariant => "covariant piola"
  | contravariant => "contravariant piola"
  | doubleCovariant => "double covariant piola"
  | doubleContravariant => "double contravariant piola"

def all : List Mapping := [affine, covariant, contravariant, doubleCovariant, doubleContravariant]

/-- The mapping of a name. Underscores stand for blanks and capitals for small letters; no name
    holds a letter that is the small form of a character beyond ASCII. -/
def ofName (s : String) : Except Problem Mapping :=
  let plain := String.ofList (s.toList.map fun c => if c == '_' then ' ' else c.toLower)
  match all.find? fun m => m.name == plain with
  | some m => .ok m
  | none => .error (.unknownMapping s)

/-- The number of components of a mapped value in a space of the given dimension. Reference
    values use the topological dimension, physical values the geometric one. -/
def components (m : Mapping) (dimension : Nat) : Nat :=
  match m with
  | affine => 1
  | covariant | contravariant => dimension
  | doubleCovariant | doubleContravariant => dimension * dimension

end Mapping

/-- The families of elements. -/
inductive Family where
  | lagrange
  | discontinuousLagrange
  | vectorLagrange
  | raviartThomas
  | nedelec
  deriving DecidableEq, Repr

namespace Family

def name : Family → String
  | lagrange => "Lagrange"
  | discontinuousLagrange => "Discontinuous Lagrange"
  | vectorLagrange => "Vector Lagrange"
  | raviartThomas => "Raviart-Thomas"
  | nedelec => "Nedelec 1st kind H(curl)"

end Family

/-- The mapping data of one degree of freedom. -/
structure Dof where
  mapping : Mapping
  /-- The first reference component of the basis function's value. -/
  referenceOffset : Nat
  /-- The first physical component that the mapped value is written to. -/
  physicalOffset : Nat
  /-- The number of reference components of the value. -/
  components : Nat
  deriving DecidableEq, Repr

/-- A finite element as the compiler sees it. -/
structure Element where
  family : Family
  cell : Shape
  degree : Nat
  /-- The shape of physical values, empty for scalars. -/
  valueShape : List Nat
  referenceShape : List Nat
  mapping : Mapping
  dofs : List Dof
  deriving DecidableEq, Repr

namespace Element

/-- The dimension of the space of polynomials of a degree on a simplex. -/
def polynomialCount (cell : Shape) (degree : Nat) : Checked Nat :=
  (List.range cell.dimension).foldlM (fun n k => do
    return (← Size.mul n (← Size.add degree (k + 1))) / (k + 1)) 1

/-- Degrees of freedom whose values fill one component. -/
def affineDofs (count component : Nat) : List Dof :=
  List.replicate count ⟨.affine, component, component, 1⟩

/-- Degrees of freedom whose values are mapped as vectors. -/
def vectorDofs (count : Nat) (mapping : Mapping) (tdim : Nat) : List Dof :=
  List.replicate count ⟨mapping, 0, 0, mapping.components tdim⟩

def scalar (family : Family) (cell : Shape) (degree : Nat) : Checked Element := do
  let n ← polynomialCount cell degree
  return ⟨family, cell, degree, [], [], .affine, affineDofs n 0⟩

def lagrange (cell : Shape) (degree : Nat) : Checked Element := scalar .lagrange cell degree

def discontinuous (cell : Shape) (degree : Nat) : Checked Element :=
  scalar .discontinuousLagrange cell degree

/-- The vector-valued Lagrange element. The degrees of freedom are blocked by component. -/
def vector (cell : Shape) (degree components : Nat) : Checked Element := do
  let n ← polynomialCount cell degree
  return ⟨.vectorLagrange, cell, degree, [components], [components], .affine,
    (List.range components).flatMap (affineDofs n)⟩

/-- The lowest order Raviart-Thomas element, with one degree of freedom per facet. -/
def raviartThomas (cell : Shape) (gdim : Nat) : Element :=
  ⟨.raviartThomas, cell, 1, [gdim], [cell.dimension], .contravariant,
    vectorDofs cell.facetCount .contravariant cell.dimension⟩

/-- The lowest order Nedelec element of the first kind, with one degree of freedom per edge. -/
def nedelec (cell : Shape) (gdim : Nat) : Element :=
  ⟨.nedelec, cell, 1, [gdim], [cell.dimension], .covariant,
    vectorDofs (cell.vertexCount * (cell.vertexCount - 1) / 2) .covariant cell.dimension⟩

/-- The number of degrees of freedom. -/
def spaceDimension (e : Element) : Nat := e.dofs.length

def referenceSize (e : Element) : Checked Nat := Size.product e.referenceShape

def physicalSize (e : Element) : Checked Nat := Size.product e.valueShape

def text (e : Element) : String :=
  s!"<{e.family.name} on a {e.cell.name} of degree {e.degree}>"

end Element
end WeakForm
