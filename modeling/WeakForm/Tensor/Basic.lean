import WeakForm.Index
import WeakForm.Style
import WeakForm.Table

/-!
# Element tensors

On an affine cell the element tensor of a product of basis functions factors into
a reference tensor, which holds integrals over the reference cell, and a geometry
tensor, which holds products of geometry symbols: entry `i` of the element tensor
is the sum over `a` of `A0[i, a] * G[a]`. The primary indices `i` number the basis
functions of the arguments, the secondary indices `a` are summed over.

An element tensor is the sum of such terms over one primary range. It is written
as three lists of declarations. Entries of a reference tensor that are zero up to
rounding are left out of the sums.

## Main definitions

* `ReferenceTensor`, `GeometryTensor`: The two factors of a term.
-/

namespace WeakForm

/-- Integrals over the reference cell, by primary and secondary tuple. -/
structure ReferenceTensor (α : Type) where
  i : MultiIndex
  a : MultiIndex
  values : Array α

namespace ReferenceTensor

variable {α : Type} [Scalar α]

/-- The number of entries. -/
def size (i a : MultiIndex) : Checked Nat := do Size.mul (← i.count) (← a.count)

/-- The tensor with given values in row-major order, primary indices first. -/
def of (i a : MultiIndex) (values : List α) : Checked (ReferenceTensor α) := do
  Checked.require (values.length = (← size i a))
  return ⟨i, a, values.toArray⟩

/-- The tensor with given entries, of which there may not be too many. -/
def ofFn (i a : MultiIndex) (f : List Nat → List Nat → Checked α) :
    Checked (ReferenceTensor α) := do
  Checked.bound (← size i a) Table.capacity
  let rows ← i.tuples.mapM fun it => a.tuples.mapM fun at' => f it at'
  of i a rows.flatten

/-- Requires that the tuples of a tensor can be listed, the secondary ones for each primary one. -/
def reserve (i a : MultiIndex) : Checked Unit := do
  i.reserve
  if 0 < (← i.count) then a.reserve

/-- The row-major position of a tuple, without bounds. -/
def position (dims tuple : List Nat) : Nat :=
  (tuple.zip dims).foldl (fun offset (value, dim) => offset * dim + value) 0

/-- An entry, zero outside of the tensor. -/
def entry (t : ReferenceTensor α) (it at' : List Nat) : α :=
  let width := t.a.dims.foldl (· * ·) 1
  t.values[position t.i.dims it * width + position t.a.dims at']?.getD 0

end ReferenceTensor

/-- A factor of a geometry tensor. -/
inductive GeometryFactor where
  | scale
  | determinant (power : Int)
  | jacobian (row col : Index)
  | inverse (row col : Index)
  deriving DecidableEq, Repr

namespace GeometryFactor

def hasPrimary : GeometryFactor → Bool
  | jacobian row col | inverse row col => row.kind = .primary || col.kind = .primary
  | _ => false

/-- The symbol or power that a factor stands for, given a secondary tuple. -/
def monomial {α : Type} [Scalar α] (a : List Nat) (offset : Nat) :
    GeometryFactor → Checked (GeometryMonomial α)
  | scale => .ok (.ofSymbol .scale)
  | determinant power => .ok (.power (.determinant none) power)
  | jacobian row col => do
    return .ofSymbol (.jacobian none (← row.resolve [] a offset) (← col.resolve [] a offset))
  | inverse row col => do
    return .ofSymbol (.inverse none (← row.resolve [] a offset) (← col.resolve [] a offset))

end GeometryFactor

/-- A coefficient and factors over secondary indices. -/
structure GeometryTensor (α : Type) where
  a : MultiIndex
  coefficient : α
  factors : List GeometryFactor

namespace GeometryTensor

variable {α : Type} [Scalar α]

/-- The tensor with the given factors, none of which may depend on a primary index. -/
def of (a : MultiIndex) (coefficient : α) (factors : List GeometryFactor) :
    Checked (GeometryTensor α) := do
  Checked.require (!factors.any GeometryFactor.hasPrimary)
  return ⟨a, coefficient, factors⟩

/-- The entry of a secondary tuple, as a product of symbols. -/
def entry (t : GeometryTensor α) (a : List Nat) : Checked (GeometryMonomial α) :=
  t.factors.foldlM (fun product factor => do product.mul (← factor.monomial a t.a.offset))
    (.constant t.coefficient)

def entries (t : GeometryTensor α) : Checked (List (List Nat × GeometryMonomial α)) :=
  t.a.tuples.mapM fun a => do return (a, ← t.entry a)

end GeometryTensor

/-- A reference tensor and a geometry tensor over the same secondary range. -/
structure TensorTerm (α : Type) where
  reference : ReferenceTensor α
  geometry : GeometryTensor α

namespace TensorTerm

/-- The bound of the number of terms in a list: twenty-five words each must fit the address
    space. -/
def capacity : Nat := Nat.pow 2 63 / 200 + 1

variable {α : Type}

def of (reference : ReferenceTensor α) (geometry : GeometryTensor α) : Checked (TensorTerm α) := do
  Checked.require (reference.a.dims = geometry.a.dims)
  return ⟨reference, geometry⟩

end TensorTerm

/-- A name and the text of its value. -/
structure Declaration where
  name : String
  value : String
  deriving DecidableEq, Repr

/-- The sum of terms over one primary range, with its declarations. -/
structure ElementTensor (α : Type) where
  terms : List (TensorTerm α)
  integral : Integral
  domain : Nat
  reference : List Declaration
  geometry : List Declaration
  element : List Declaration

namespace ElementTensor

variable {α : Type} [Scalar α]

def primary (terms : List (TensorTerm α)) : Option MultiIndex :=
  terms.head?.map fun t => t.reference.i

def referenceDeclarations (terms : List (TensorTerm α)) (style : Style α) :
    Checked (List Declaration) := do
  let lists ← terms.zipIdx.mapM fun (term, j) =>
    term.reference.i.tuples.mapM fun i =>
      term.reference.a.tuples.mapM fun a => do
        return Declaration.mk (← style.referenceName j i a)
          (style.number (term.reference.entry i a))
  return lists.flatten.flatten

def geometryDeclarations (terms : List (TensorTerm α)) (style : Style α) :
    Checked (List Declaration) := do
  let lists ← terms.zipIdx.mapM fun (term, j) => do
    (← term.geometry.entries).mapM fun (a, m) => do
      return Declaration.mk (← style.geometryName j a) (← style.monomial m)
  return lists.flatten

/-- Whether an entry of a reference tensor is written: unless its magnitude is tiny. -/
def isWritten (x : α) : Bool := !Scalar.le (Scalar.abs x) Scalar.tiny

/-- Whether an entry of a reference tensor is added: if its magnitude exceeds the tiny ones. -/
def isAdded (x : α) : Bool := Scalar.lt Scalar.tiny (Scalar.abs x)

/-- The written entries of the reference tensors for a primary tuple, with the term and the
    secondary tuple they belong to. -/
def contributions (terms : List (TensorTerm α)) (i : List Nat) : List (Nat × List Nat × α) :=
  terms.zipIdx.flatMap fun (term, j) =>
    term.reference.a.tuples.filterMap fun a =>
      let x := term.reference.entry i a
      if isWritten x then some (j, a, x) else none

/-- The sum of entries of reference tensors times entries of geometry tensors. All terms but the
    first one are subtracted if they are negative. -/
def sumExpr (entries : List (Nat × List Nat × α)) : Expr (Nat × List Nat) α :=
  match entries with
  | [] => .literal 0
  | (j, a, x) :: rest =>
    rest.foldl (fun e (j, a, x) =>
        if Scalar.lt x 0 then e - .literal (-x) * .name (j, a)
        else e + .literal x * .name (j, a))
      (.literal x * .name (j, a))

def elementDeclarations (terms : List (TensorTerm α)) (style : Style α) :
    Checked (List Declaration) :=
  match primary terms with
  | none => .ok []
  | some i =>
    i.tuples.zipIdx.mapM fun (it, position) => do
      let sum ← (sumExpr (contributions terms it)).mapNames fun (j, a) => style.geometryName j a
      return Declaration.mk (← style.elementName it position)
        (sum.text style.operators id style.number)

/-- The element tensor of terms, which must have equal primary dimensions. -/
def of (terms : List (TensorTerm α)) (integral : Integral) (domain : Nat) (style : Style α) :
    Outcome (ElementTensor α) := do
  if let some first := primary terms then
    if let some term := terms.find? fun t => t.reference.i.dims ≠ first.dims then
      throw (.problem (.rankMismatch first.dims term.reference.i.dims))
  let reference ← referenceDeclarations terms style
  let geometry ← geometryDeclarations terms style
  let element ← elementDeclarations terms style
  return ⟨terms, integral, domain, reference, geometry, element⟩

/-- The entries of the element tensor for given values of the symbols. -/
def evaluate (t : ElementTensor α) (valueOf : Symbol → α) : Checked (List α) :=
  match primary t.terms with
  | none => .ok []
  | some i => do
    let geometry ← t.terms.mapM fun term => do
      return (term.reference, (← term.geometry.entries).map fun (a, m) => (a, m.value valueOf))
    return i.tuples.map fun it =>
      geometry.foldl (fun acc (reference, entries) =>
        entries.foldl (fun acc (a, g) =>
          let x := reference.entry it a
          if isAdded x then acc + x * g else acc) acc) 0

end ElementTensor
end WeakForm
