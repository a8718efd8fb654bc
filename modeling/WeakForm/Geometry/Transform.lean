import WeakForm.Geometry.Affine
import WeakForm.Geometry.Monomial
import WeakForm.Table

/-!
# Transforms of values and derivatives

Basis functions are tabulated on the reference cell. Their values on a physical
cell are linear combinations of reference values by entries of `J` and `K`, and
their derivatives are combinations of reference derivatives by products of
entries of `K`, one for each derivative.

Both transforms are needed twice: with the numbers of one cell, and with symbols
in generated code. They are therefore stated over `MapEntries`, which is either.

## Main definitions

* `ValueTransform`: How reference components combine to a physical component.
-/

namespace WeakForm

/-- The entries of a cell map and their products. -/
structure MapEntries (σ : Type) where
  dims : Dimensions
  one : σ
  mul : σ → σ → Checked σ
  jacobian : Nat → Nat → Checked σ
  inverse : Nat → Nat → Checked σ
  inverseDeterminant : σ

namespace MapEntries

variable {α : Type} [Scalar α]

/-- The entries of a physical cell. -/
def ofMap (m : AffineMap α) : MapEntries α where
  dims := m.dims
  one := 1
  mul a b := .ok (a * b)
  jacobian := m.jacobian.get
  inverse := m.inverse.get
  inverseDeterminant := 1 / m.determinant

/-- The symbols of a cell, possibly on one side of a facet. -/
def symbolic (d : Dimensions) (side : Option Side) : MapEntries (GeometryMonomial α) where
  dims := d
  one := .constant 1
  mul := GeometryMonomial.mul
  jacobian row col := .ok (.ofSymbol (.jacobian side row col))
  inverse row col := .ok (.ofSymbol (.inverse side row col))
  inverseDeterminant := .power (.determinant side) (-1)

end MapEntries

/-- A physical component as `scale` times the sum of `row` times the reference components. -/
structure ValueTransform (σ : Type) where
  scale : σ
  row : List σ
  /-- The number of components of the physical value. -/
  components : Nat

namespace ValueTransform

/-- The physical component of given reference components. -/
def apply {α : Type} [Scalar α] (t : ValueTransform α) (reference : List α) : α :=
  t.scale * Scalar.sum (List.zipWith (· * ·) t.row reference)

end ValueTransform

/-- All pairs of axes, the second one running fastest. -/
def axisPairs (n : Nat) : List (Nat × Nat) :=
  (List.range n).flatMap fun j => (List.range n).map fun k => (j, k)

variable {σ : Type}

/-- The scale and the row of the value transform of a mapping for one physical component.
    Matrix-valued components are numbered row by row. -/
def valueEntries (mapping : Mapping) (component : Nat) (m : MapEntries σ) :
    Checked (σ × List σ) := do
  let tdim := m.dims.tdim
  let gdim := m.dims.gdim
  match mapping with
  | .affine => return (m.one, [m.one])
  | .contravariant =>
    return (m.inverseDeterminant, ← (List.range tdim).mapM fun j => m.jacobian component j)
  | .covariant => return (m.one, ← (List.range tdim).mapM fun j => m.inverse j component)
  | .doubleCovariant =>
    let row ← (axisPairs tdim).mapM fun (j, k) => do
      m.mul (← m.inverse j (component / gdim)) (← m.inverse k (component % gdim))
    return (m.one, row)
  | .doubleContravariant =>
    let row ← (axisPairs tdim).mapM fun (j, k) => do
      m.mul (← m.jacobian (component / gdim) j) (← m.jacobian (component % gdim) k)
    return (← m.mul m.inverseDeterminant m.inverseDeterminant, row)

/-- The value transform of a mapping for one physical component. The number of reference
    components must be that of the mapping. -/
def valueTransform (mapping : Mapping) (component components : Nat) (m : MapEntries σ) :
    Outcome (ValueTransform σ) :=
  let expected := mapping.components m.dims.tdim
  if components = expected then do
    let (scale, row) ← valueEntries mapping component m
    return ⟨scale, row, mapping.components m.dims.gdim⟩
  else .error (.problem (.invalidValueShape mapping.name expected components))

/-- The factor of a reference derivative along the axes `t` in the physical derivative along the
    axes `g`: the product of the entries `K[t][g]`. -/
def derivativeEntry (m : MapEntries σ) (g t : List Nat) : Checked σ :=
  (t.zip g).foldlM (fun entry (t, g) => do m.mul entry (← m.inverse t g)) m.one

/-- The physical derivative along the axes `g` in terms of all reference derivatives. -/
def derivativeRow (order : Nat) (m : MapEntries σ) (g : List Nat) : Checked (List σ) :=
  (Tuple.axes m.dims.tdim order).mapM (derivativeEntry m g)

/-- The matrix from reference derivatives to physical derivatives of one order. -/
def derivativeTransform (order : Nat) (m : MapEntries σ) : Checked (List (List σ)) :=
  (Tuple.axes m.dims.gdim order).mapM (derivativeRow order m)

section

variable {α : Type} [Scalar α]

/-- Requires that the reference components of a degree of freedom lie in the table and its
    physical components in the result, unless there is no point to read them at. -/
def checkComponents (dof : Dof) (physical points referenceSize physicalSize : Nat) :
    Checked Unit :=
  if points = 0 then .ok ()
  else Checked.require
    (dof.referenceOffset + dof.components ≤ referenceSize &&
      dof.physicalOffset + physical ≤ physicalSize)

/-- The table of an element on a physical cell: the values are mapped first, then the
    derivatives. -/
def transformTable (e : Element) (reference : Table α) (order : Nat) (m : AffineMap α) :
    Outcome (Table α) := do
  let d := m.dims
  let countT ← Tuple.axesCount d.tdim order
  let countG ← Tuple.axesCount d.gdim order
  Checked.require (reference.derivatives = countT)
  Checked.require (reference.dofs = e.spaceDimension)
  let entries := MapEntries.ofMap m
  -- There is a row of the transform for every tuple of physical axes
  Tuple.reserve d.gdim order
  let transform := ((← derivativeTransform order entries).map List.toArray).toArray
  let components := max (← e.physicalSize) 1
  Checked.bound (← Size.product [reference.points, e.spaceDimension, countG, components])
    Table.capacity
  let transforms ← e.dofs.mapM fun dof => do
    let count := dof.mapping.components d.gdim
    let ts ← (List.range count).mapM fun i =>
      valueTransform dof.mapping i dof.components entries
    checkComponents dof count reference.points reference.components components
    return (dof, ts.toArray)
  let transforms := transforms.toArray
  -- The value of one physical component before its derivatives are transformed
  let mapped (p dof s : Nat) (data : Dof) (t : ValueTransform α) : α :=
    t.apply ((List.range data.components).map fun j =>
      reference.entry p dof s (data.referenceOffset + j))
  Table.ofFn reference.points e.spaceDimension countG components fun p dof r c =>
    match transforms[dof]? with
    | some (data, ts) =>
      if data.physicalOffset ≤ c then
        match ts[c - data.physicalOffset]? with
        | some t =>
          (List.range countT).foldl (fun acc s =>
            acc + ((transform[r]?.getD #[])[s]?.getD 0) * mapped p dof s data t) 0
        | none => 0
      else 0
    | none => 0

end
end WeakForm
