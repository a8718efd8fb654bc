import WeakForm.Scalar
import WeakForm.Element
import WeakForm.Tuple

/-!
# Tables of basis functions

The values of all basis functions of an element, or of all their derivatives of
one order, at a list of points. An entry is addressed by point, degree of
freedom, derivative and component; derivatives are numbered as the tuples of axes
they are taken along.

A tabulator is anything that produces such tables. The library brings the one for
Lagrange elements up to degree one.

## Main definitions

* `Table.entry`, `Table.get`: Entries, unchecked and checked.
* `Tabulator`: Produces the table of an element.
* `Tabulator.lagrange`: The tables of Lagrange elements.

## Theorems

* `Table.entry_ofFn`: The entries of a table are the ones it was made from.
-/

namespace WeakForm

/-- Values by point, degree of freedom, derivative and component. -/
structure Table (α : Type) where
  points : Nat
  dofs : Nat
  derivatives : Nat
  components : Nat
  values : Array α

namespace Table

variable {α : Type} [Scalar α]

/-- The row-major position of an entry. -/
def position (t : Table α) (point dof derivative component : Nat) : Nat :=
  ((point * t.dofs + dof) * t.derivatives + derivative) * t.components + component

/-- An entry, zero outside of the table. -/
def entry (t : Table α) (point dof derivative component : Nat) : α :=
  t.values[t.position point dof derivative component]?.getD 0

/-- Whether an entry lies inside of the table. -/
def contains (t : Table α) (point dof derivative component : Nat) : Bool :=
  point < t.points && dof < t.dofs && derivative < t.derivatives && component < t.components

/-- An entry that must lie inside of the table. -/
def get (t : Table α) (point dof derivative component : Nat) : Checked α :=
  if t.contains point dof derivative component then
    .ok (t.entry point dof derivative component)
  else .error .unmet

/-- The bound of the number of entries: eight bytes each must fit the address space. -/
def capacity : Nat := Nat.pow 2 60

/-- The table with the given entries, of which there may not be too many. -/
def ofFn (points dofs derivatives components : Nat) (f : Nat → Nat → Nat → Nat → α) :
    Checked (Table α) := do
  let size ← Size.product [points, dofs, derivatives, components]
  Checked.bound size capacity
  let unpack (n : Nat) : α :=
    f (n / components / derivatives / dofs) (n / components / derivatives % dofs)
      (n / components % derivatives) (n % components)
  return ⟨points, dofs, derivatives, components, Array.ofFn fun n : Fin size => unpack n⟩

/-- The table with given values in row-major order; there must be enough of them. -/
def ofValues (points dofs derivatives components : Nat) (values : List α) : Checked (Table α) := do
  let stored := values.toArray
  let t : Table α := ⟨points, dofs, derivatives, components, stored⟩
  Checked.require ((← Size.product [points, dofs, derivatives, components]) ≤ stored.size)
  ofFn points dofs derivatives components t.entry

/-- The values of one derivative of one component, by point and degree of freedom. -/
def slice (t : Table α) (derivative component : Nat) : Checked (List (List α)) :=
  (List.range t.points).mapM fun point =>
    (List.range t.dofs).mapM fun dof => t.get point dof derivative component

theorem position_lt {points dofs derivatives components p d s c : Nat} (hp : p < points)
    (hd : d < dofs) (hs : s < derivatives) (hc : c < components) :
    ((p * dofs + d) * derivatives + s) * components + c <
      points * dofs * derivatives * components := by
  have h1 : p * dofs + d + 1 ≤ points * dofs := by
    calc p * dofs + d + 1 ≤ (p + 1) * dofs := by rw [Nat.add_mul]; omega
      _ ≤ points * dofs := Nat.mul_le_mul_right _ hp
  have h2 : (p * dofs + d) * derivatives + s + 1 ≤ points * dofs * derivatives := by
    calc (p * dofs + d) * derivatives + s + 1 ≤ (p * dofs + d + 1) * derivatives := by
          rw [Nat.add_mul _ 1]; omega
      _ ≤ points * dofs * derivatives := Nat.mul_le_mul_right _ h1
  calc ((p * dofs + d) * derivatives + s) * components + c
      < ((p * dofs + d) * derivatives + s + 1) * components := by rw [Nat.add_mul _ 1]; omega
    _ ≤ points * dofs * derivatives * components := Nat.mul_le_mul_right _ h2

theorem split_digit {n base digit : Nat} (h : digit < base) :
    (n * base + digit) / base = n ∧ (n * base + digit) % base = digit := by
  constructor
  · rw [Nat.mul_comm, Nat.mul_add_div (by omega), Nat.div_eq_of_lt h, Nat.add_zero]
  · rw [Nat.mul_comm, Nat.mul_add_mod, Nat.mod_eq_of_lt h]

theorem entry_ofFn {points dofs derivatives components : Nat} {f : Nat → Nat → Nat → Nat → α}
    {t : Table α} (h : ofFn points dofs derivatives components f = .ok t) {p d s c : Nat}
    (hp : p < points) (hd : d < dofs) (hs : s < derivatives) (hc : c < components) :
    t.entry p d s c = f p d s c := by
  simp only [ofFn, bind, Except.bind] at h
  split at h
  · simp at h
  · rename_i size hsize
    split at h
    · simp at h
    simp only [pure, Except.pure, Except.ok.injEq] at h
    subst h
    have hlt : ((p * dofs + d) * derivatives + s) * components + c < size := by
      rw [Size.product_eq_ok hsize]
      simpa using position_lt hp hd hs hc
    simp [entry, position, hlt, split_digit hc, split_digit hs, split_digit hd]

end Table

/-- Tabulates all derivatives of one order of the basis functions of an element at the given
    points of the reference cell. -/
abbrev Tabulator (α : Type) := Element → List (List α) → Nat → Outcome (Table α)

namespace Tabulator

variable {α : Type} [Scalar α]

/-- The values of the scalar basis functions of degree zero or one at a point, differentiated
    along the given axes. Degree one has the barycentric coordinates as basis. -/
def scalarBasis (degree tdim : Nat) (point : List α) (axes : List Nat) : List α :=
  match degree, axes with
  | 0, [] => [1]
  | 0, _ => [0]
  | _, [] => (1 - Scalar.sum point) :: point
  | _, [axis] => -1 :: (List.range tdim).map fun k => if k = axis then 1 else 0
  | _, _ => List.replicate (tdim + 1) 0

/-- Whether the Lagrange tabulator knows the element. -/
def isLagrange (e : Element) : Bool :=
  match e.family with
  | .lagrange => e.degree = 1
  | .discontinuousLagrange | .vectorLagrange => e.degree ≤ 1
  | _ => false

/-- Tabulates the Lagrange elements of degree at most one. The basis functions of a component
    are those of the scalar element, repeated for every block of degrees of freedom. -/
def lagrange : Tabulator α := fun e points order => do
  unless isLagrange e do throw (.problem (.unsupportedElement e.text))
  let tdim := e.cell.dimension
  if let some point := points.find? fun point => point.length ≠ tdim then
    throw (.problem (.unsupportedElement
      s!"{e.text} cannot be tabulated at points with {point.length} coordinates"))
  let components := max (← e.referenceSize) 1
  Tuple.reserve tdim order
  let derivatives ← Tuple.axesCount tdim order
  unless points.isEmpty || e.dofs.all (·.referenceOffset < components) do
    throw (.fault .unmet)
  let combinations := (Tuple.axes tdim order).toArray
  let basis := (points.map fun point =>
    combinations.map fun axes => (scalarBasis e.degree tdim point axes).toArray).toArray
  let offsets := (e.dofs.map (·.referenceOffset)).toArray
  Table.ofFn points.length e.spaceDimension derivatives components fun p dof d component =>
    if offsets[dof]? = some component then
      let values := (basis[p]?.getD #[])[d]?.getD #[]
      values[dof % values.size]?.getD 0
    else 0

end Tabulator
end WeakForm
