import WeakForm.Form
import WeakForm.Quadrature.Rule
import WeakForm.Tensor.Basic

/-!
# Terms of the tensor representation

If all arguments are mapped affinely, a monomial is a contraction: every derivative
of a basis function contributes one secondary index over the reference axes, which
is contracted with an entry of the inverse Jacobian. The reference tensor holds the
integrals of products of reference derivatives over the cell or over one of its
facets.

## Main definitions

* `tensorTerms`: The terms of some monomials.
-/

namespace WeakForm

variable {α : Type}

/-- Whether integrals of a kind can be contracted. Interior facets couple two cells and cannot. -/
def supportsTensor (f : Form α) (kind : Integral) : Bool :=
  kind ≠ .interiorFacet && f.arguments.all fun e => e.mapping = .affine

/-- A computation that hands out indices. What was handed out stays so if it fails. -/
abbrev Drawing (β : Type) := ExceptT Failure (StateM Allocator) β

namespace Drawing

def ofOutcome {β : Type} (x : Outcome β) : Drawing β := ExceptT.mk (pure x)

/-- Hands out one secondary index per dimension. -/
def secondary (dims : List Nat) : Drawing MultiIndex :=
  ExceptT.mk fun c =>
    let (m, c) := MultiIndex.secondary c dims
    (.ok m, c)

end Drawing

namespace TensorTerms

variable [Scalar α]

/-- A tuple cut into pieces of the given lengths. -/
def pieces : List Nat → List Nat → List (List Nat)
  | [], _ => []
  | n :: ns, tuple => tuple.take n :: pieces ns (tuple.drop n)

/-- An integral over the reference cell: the weighted sum of the products of the factors, each
    taken from its table for its basis function and reference derivative. -/
def integral (rule : Rule α) (tdim : Nat) (factors : List (Factor × Table α)) (i a : List Nat) :
    Checked α := do
  let numbers ← (pieces (factors.map fun (factor, _) => factor.order) a).mapM
    (Tuple.axesNumber tdim)
  let values ← rule.weights.zipIdx.mapM fun (w, p) =>
    (factors.zip numbers).foldlM (fun product ((factor, table), derivative) => do
      return product *
        (← table.get p (← entryAt i factor.argument) derivative factor.component)) w
  return Scalar.sum values

/-- The geometry factors of a term: the scale factor, and an entry of the inverse Jacobian for
    each derivative. -/
def geometryFactors (factors : List Factor) (secondary : List Index) : List GeometryFactor :=
  .scale :: List.zipWith (fun index axis => .inverse index (.fixed axis)) secondary
    (factors.flatMap fun factor => factor.derivatives)

def term (gauss : Gauss.Source α) (tabulator : Tabulator α) (f : Form α) (facet : Option Nat)
    (primary : MultiIndex) (m : Monomial α) : Drawing (TensorTerm α) := do
  let tdim := f.cell.dimension
  let (factors, rule) ← Drawing.ofOutcome (do
    let factors ← f.arrange m
    let degree ← f.quadratureDegree m
    Rule.reserve f.cell facet degree
    let rule ← Rule.reference gauss f.cell facet degree
    return (factors, rule))
  let a ← Drawing.secondary
    (List.replicate (Size.total (factors.map Factor.order)) tdim)
  Drawing.ofOutcome (do
    let tables ← factors.mapM fun factor => do
      return (factor, ← tabulator (← entryAt f.arguments factor.argument) rule.points factor.order)
    ReferenceTensor.reserve primary a
    let reference ← ReferenceTensor.ofFn primary a (integral rule tdim tables)
    let geometry ← GeometryTensor.of a m.coefficient (geometryFactors factors a.indices)
    TensorTerm.of reference geometry)

end TensorTerms

/-- The terms of some monomials, over the cell or one of its facets. The primary multi-index
    ranges over the basis functions of the arguments. -/
def tensorTerms [Scalar α] (gauss : Gauss.Source α) (tabulator : Tabulator α) (f : Form α)
    (ms : List (Monomial α)) (facet : Option Nat) (primary : MultiIndex) :
    Drawing (List (TensorTerm α)) :=
  ms.mapM (TensorTerms.term gauss tabulator f facet primary)

end WeakForm
