import WeakForm.Form
import WeakForm.Geometry.Transform

/-!
# Expansion of basis factors

A factor of a monomial is a component of a basis function on the physical cell,
differentiated along physical axes. In terms of the reference cell it is a sum of
tables, each multiplied by a product of geometry symbols: the mapping of values
contributes one entry or two, every derivative contributes an entry of the inverse
Jacobian. Contributions with the same symbols go into one table.

## Main definitions

* `expandFactor`: The tables of a factor.
-/

namespace WeakForm

/-- Values by point and degree of freedom, to be multiplied by a product of symbols. -/
structure ScaledTable (α : Type) where
  geometry : GeometryMonomial α
  values : List (List α)

namespace Expand

variable {α : Type} [Scalar α]

/-- One contribution to a table: a coefficient times the reference values of a degree of freedom
    in one derivative and component. -/
structure Contribution (α : Type) where
  dof : Nat
  coefficient : α
  derivative : Nat
  component : Nat

/-- Contributions collected by their powers of symbols, in increasing order of the powers. -/
abbrev Collected (α : Type) := List (Powers × List (Contribution α))

/-- Adds a contribution behind those with the same powers. -/
def collect (powers : Powers) (c : Contribution α) : Collected α → Collected α
  | [] => [(powers, [c])]
  | (p, cs) :: rest =>
    if powers = p then (p, cs ++ [c]) :: rest
    else if powers.before p then (powers, [c]) :: (p, cs) :: rest
    else (p, cs) :: collect powers c rest

/-- Requires that the values of a degree of freedom can be read from the table, unless there is
    no point to read them at. -/
def checkReads (t : Table α) (dof : Nat) (d : Dof) (derivatives : Nat) : Checked Unit :=
  Checked.require (t.points = 0 ||
    (dof < t.dofs && derivatives ≤ t.derivatives &&
      d.referenceOffset + d.components ≤ t.components))

/-- The contributions of one degree of freedom, with the derivatives taken along the given axes.
    There are none if its physical components do not include the component of the factor. -/
def dofContributions (factor : Factor) (t : Table α) (m : MapEntries (GeometryMonomial α))
    (axes : Checked (List Nat)) (dof : Nat) (d : Dof) : Outcome (List (Powers × Contribution α)) := do
  let count := d.mapping.components m.dims.gdim
  let stop ← Size.add d.physicalOffset count
  if d.physicalOffset ≤ factor.component ∧ factor.component < stop then
    let mapped ← valueTransform d.mapping (factor.component - d.physicalOffset) d.components m
    let chains ← derivativeRow factor.order m (← axes)
    checkReads t dof d chains.length
    let lists ← chains.zipIdx.mapM fun (chain, s) => do
      mapped.row.zipIdx.mapM fun (entry, j) => do
        let c ← (← chain.mul mapped.scale).mul entry
        return (c.powers, Contribution.mk dof c.coefficient s (d.referenceOffset + j))
    return lists.flatten
  else return []

/-- The values of collected contributions, by point and degree of freedom. Values below the
    threshold become zero. -/
def values (t : Table α) (epsilon : α) (cs : List (Contribution α)) : List (List α) :=
  let byDof := (List.range t.dofs).map fun dof => (dof, cs.filter fun c => c.dof = dof)
  (List.range t.points).map fun p => byDof.map fun (dof, cs) =>
    let v := cs.foldl (fun v c => v + c.coefficient * t.entry p dof c.derivative c.component) 0
    if Scalar.lt (Scalar.abs v) epsilon then 0 else v

end Expand

open Expand in
/-- The tables of a factor, ordered by their powers of symbols. The factor is the sum of the
    tables times their geometry. Tables without a value other than zero are left out. -/
def expandFactor {α : Type} [Scalar α] (e : Element) (factor : Factor) (t : Table α)
    (d : Dimensions) (epsilon : α) : Outcome (List (ScaledTable α)) := do
  let m := MapEntries.symbolic d factor.side
  Tuple.reserve d.gdim factor.order
  GeometryMonomial.reserve d.tdim factor.order
  let number ← Tuple.axesNumber d.gdim factor.derivatives
  let axes := entryAt (Tuple.axes d.gdim factor.order) number
  let lists ← e.dofs.zipIdx.mapM fun (dof, k) => dofContributions factor t m axes k dof
  let collected := lists.flatten.foldl (fun acc (powers, c) => collect powers c acc) []
  return collected.filterMap fun (powers, cs) =>
    let rows := values t epsilon cs
    if rows.any fun row => row.any Scalar.nonzero then some ⟨⟨1, powers⟩, rows⟩ else none

end WeakForm
