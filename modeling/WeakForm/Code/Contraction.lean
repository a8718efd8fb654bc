import WeakForm.Code.Quadrature
import WeakForm.Tensor.Terms

/-!
# Element tensors by contraction

The code that computes the element tensor of some monomials from reference tensors:
the entries of the geometry tensors are declared first, then every entry of the
element tensor is a sum of numbers times these.
-/

namespace WeakForm

variable {α : Type} [Scalar α]

namespace Contraction

/-- The declarations of the geometry tensors, with the entries they declare. -/
def geometryEntries (terms : List (TensorTerm α)) :
    Checked (List (Nat × List Nat × GeometryMonomial α)) := do
  let lists ← terms.zipIdx.mapM fun (term, j) => do
    return (← term.geometry.entries).map fun (a, m) => (j, a, m)
  return lists.flatten

/-- The number of entries of the reference tensor of a term that are added. -/
def addedCount (term : TensorTerm α) : Nat :=
  Size.total (term.reference.i.tuples.map fun i =>
    (term.reference.a.tuples.filter fun a =>
      ElementTensor.isAdded (term.reference.entry i a)).length)

/-- The statements that add to the entries of the element tensor, one for each primary tuple
    with an entry other than zero. -/
def statements (terms : List (TensorTerm α)) : List (Code α) :=
  match ElementTensor.primary terms with
  | none => []
  | some i =>
    i.tuples.zipIdx.filterMap fun (it, position) =>
      match ElementTensor.contributions terms it with
      | [] => none
      | entries =>
        some (.accumulate (.literal position)
          ((ElementTensor.sumExpr entries).rename fun (j, a) => Operand.geometry j a))

def code (s : Setting α) (dims : List Nat) (terms : List (TensorTerm α)) :
    Checked (CaseCode α) := do
  let entries ← geometryEntries terms
  let geometryOperations ← Size.sum (entries.map fun (_, _, m) => m.operations)
  let elementOperations ← Size.sum (terms.map fun term => 2 * addedCount term)
  let reset ← resetCode s dims
  let body := Code.all ([reset, .note "Compute geometry tensors",
      .note s!"Number of operations to compute geometry tensors = {geometryOperations}"] ++
    (entries.map fun (j, a, m) => .geometry j a m) ++
    [.gap, .note "Compute element tensor",
      .note s!"Number of operations to compute element tensor = {elementOperations}"] ++
    statements terms)
  return ⟨body, entries.flatMap fun (_, _, m) => m.powers.map Prod.fst,
    ← Size.add geometryOperations elementOperations⟩

end Contraction

/-- The code of some monomials on the cell or on one facet. -/
def contractionCase (s : Setting α) (f : Form α) (kind : Integral) (domain : Nat)
    (ms : List (Monomial α)) (primary : MultiIndex) (facet : Option Nat) :
    Drawing (CaseCode α) := do
  Drawing.ofOutcome (Checked.bound ms.length TensorTerm.capacity)
  let terms ← tensorTerms s.gauss s.tabulator f ms facet primary
  Drawing.ofOutcome (do
    let _ ← terms.mapM fun t => t.geometry.a.reserve
    let tensor ← ElementTensor.of terms kind domain (Cpp.style s.number)
    Contraction.code s (macroDims f kind) tensor.terms)

end WeakForm
