import WeakForm.Code.Store

/-!
# Loops over quadrature points

The terms of an integral that use the same number of quadrature points share one
loop over the points. Inside of it, products of the same tables are added up first
if asked for: their geometry is summed into one constant. The remaining products
are sorted into nests of loops over the basis functions, by the ranges of their
loops, the columns of their tables and the offsets of their entries.

## Main definitions

* `ArgumentTable`: A table and where its entries go.
-/

namespace WeakForm

/-- A table read by the loop of an argument, and the offset of the argument's entries in the
    element tensor of two cells. -/
structure ArgumentTable where
  table : TableRef
  offset : Nat
  deriving DecidableEq, Repr

/-- One product of tables, and its geometry. -/
structure Product (α : Type) where
  geometry : GeometryMonomial α
  tables : List ArgumentTable

/-- The bound of the number of products in a list: seven words each must fit the address space. -/
def Product.capacity : Nat := Nat.pow 2 63 / 56 + 1

/-- Requires that products for all choices of tables can be listed. -/
def Product.reserve (counts : List Nat) : Checked Unit := do
  Checked.bound (← Size.product counts) capacity

/-- The products of one monomial. -/
structure PointTerm (α : Type) where
  number : Nat
  /-- The term that the weights are named after. -/
  weights : Nat
  points : Nat
  products : List (Product α)

/-- Distinct geometry constants with the symbols they read. -/
structure ConstantStore (α : Type) where
  constants : List (String × GeometrySum α) := []

namespace ConstantStore

variable {α : Type} [Scalar α]

/-- Stores a sum; sums with equal text share a constant. -/
def register (s : ConstantStore α) (number : α → String) (sum : GeometrySum α) :
    Nat × ConstantStore α :=
  let text := sum.toExpr.text Cpp.operators Cpp.symbol number
  match s.constants.findIdx? fun c => c.1 == text with
  | some k => (k, s)
  | none => (s.constants.length, ⟨s.constants ++ [(text, sum)]⟩)

def operations (s : ConstantStore α) : Nat := Size.total (s.constants.map fun c => c.2.operations)

def symbols (s : ConstantStore α) : List Symbol := s.constants.flatMap fun c => c.2.symbols

def declarations (s : ConstantStore α) : Code α :=
  let count := s.operations
  .block (.all ([.gap] ++
    (if 0 < count then
      [.note s!"Number of operations to compute geometry constants = {count}"] else []) ++
    (s.constants.zipIdx.map fun ((_, sum), number) => .constant number sum)))

end ConstantStore

/-- Weights, tables and geometry of a statement before its geometry is written. -/
structure PointEntry (α : Type) where
  weights : Nat
  tables : List ArgumentTable
  geometry : List (GeometryMonomial α)

/-- What nests of loops are told apart by: for each argument the number of columns, the list of
    columns, and the offset. -/
abbrev Signature := List (Nat × Option Nat × Nat)

/-- Statements that share loops over the basis functions. -/
structure Nest (α : Type) where
  signature : Signature
  statements : List (Position × List (Expr Operand α))

namespace Nest

variable {α : Type}

/-- The numbers of iterations of the loops. -/
def ranges (n : Nest α) : List Nat := n.signature.map Prod.fst

/-- The operations of one iteration: in every statement one for each factor, the last one being
    the addition. -/
def operations (n : Nest α) : Nat := Size.total (n.statements.map fun s => s.2.length)

def totalOperations (n : Nest α) : Checked Nat := do
  Size.mul (← Size.ofNat n.operations) (← Size.product n.ranges)

/-- The loops with their statements. -/
def code [Scalar α] (n : Nest α) : Code α :=
  Code.loops (n.ranges.zipIdx.map fun (range, argument) => (.argument argument, range))
    (.all (n.statements.map fun (position, factors) =>
      .accumulate position (Expr.productOf (.literal 1) factors)))

end Nest

namespace PointLoop

variable {α : Type} [Scalar α]

/-- Adds the geometry of a product to the entry with the same weights and tables. -/
def merge (weights : Nat) (p : Product α) : List (PointEntry α) → List (PointEntry α)
  | [] => [⟨weights, p.tables, [p.geometry]⟩]
  | e :: rest =>
    if e.weights = weights ∧ e.tables = p.tables then
      { e with geometry := e.geometry ++ [p.geometry] } :: rest
    else e :: merge weights p rest

/-- The entries of terms. Products of the same weights and tables are merged if asked for. -/
def entries (factorise : Bool) (terms : List (PointTerm α)) : List (PointEntry α) :=
  let products := terms.flatMap fun t => t.products.map fun p => (t.weights, p)
  if factorise then products.foldl (fun es (weights, p) => merge weights p es) []
  else products.map fun (weights, p) => ⟨weights, p.tables, [p.geometry]⟩

/-- One summand of a position: the entry of an argument, moved by its offset, times the number of
    entries of the arguments behind it. -/
def positionPart (argument : Nat) (t : ArgumentTable) (stride : Nat) : Position :=
  let base : Position :=
    match t.table.nonzero with
    | some columns => .name (.column columns argument)
    | none => .name (.counter argument)
  let moved : Position :=
    if 0 < t.offset then
      let sum := base + .literal t.offset
      if stride = 1 then sum else .group sum
    else base
  if stride = 1 then moved else moved * .literal stride

/-- The row-major position of the entry that a statement adds to. -/
def position (dims : List Nat) (tables : List ArgumentTable) : Checked Position := do
  let parts ← tables.zipIdx.mapM fun (t, argument) => do
    return positionPart argument t (← Size.product (dims.drop (argument + 1)))
  return Expr.sumOf (.literal 0) parts

/-- Sorts a statement into the nest with its signature. -/
def insert (signature : Signature) (statement : Position × List (Expr Operand α)) :
    List (Nest α) → List (Nest α)
  | [] => [⟨signature, [statement]⟩]
  | n :: rest =>
    if n.signature = signature then { n with statements := n.statements ++ [statement] } :: rest
    else n :: insert signature statement rest

/-- The factor that stands for the geometry of a statement. Geometry that does not depend on the
    cell is a literal, and left out if it is one. -/
def geometryFactor (number : α → String) (constants : ConstantStore α) (sum : GeometrySum α) :
    List (Expr Operand α) × ConstantStore α :=
  let named : List (Expr Operand α) × ConstantStore α :=
    let (k, constants) := constants.register number sum
    ([.name (.constant k)], constants)
  match sum.terms with
  | [term] =>
    if term.isConstant then
      (if Scalar.eq term.coefficient 1 then [] else [.literal term.coefficient], constants)
    else named
  | _ => named

/-- Adds the statement of an entry to the nests, unless its geometry vanishes. -/
def step (number : α → String) (dims : List Nat) (points : Nat)
    (state : ConstantStore α × List (Nest α)) (e : PointEntry α) :
    Checked (ConstantStore α × List (Nest α)) := do
  let (constants, nests) := state
  let sum := GeometrySum.ofTerms e.geometry
  if sum.isZero then return state
  let inLoop : Bool := points ≠ 1
  let (geometry, constants) := geometryFactor number constants sum
  let factors := [Expr.name (.weight e.weights inLoop)] ++
    (e.tables.zipIdx.map fun (t, argument) =>
      Expr.name (.entry t.table.number inLoop argument)) ++ geometry
  let signature := e.tables.map fun t => (t.table.columns, t.table.nonzero, t.offset)
  return (constants, insert signature (← position dims e.tables, factors) nests)

end PointLoop

open PointLoop in
/-- The loop of terms with the same number of points, its operations, and the constants it
    reads. A single point needs no loop. -/
def pointLoop {α : Type} [Scalar α] (number : α → String) (factorise : Bool) (dims : List Nat)
    (constants : ConstantStore α) (points : Nat) (terms : List (PointTerm α)) :
    Checked (Code α × Nat × ConstantStore α) := do
  let (constants, nests) ← (entries factorise terms).foldlM (step number dims points) (constants, [])
  let perPoint ← Size.sum (← nests.mapM Nest.totalOperations)
  let operations ← Size.mul perPoint points
  let body : Code α := .all (nests.map Nest.code)
  let numbers := terms.map fun t => t.number
  let notes : List (Code α) :=
    [.note ("Loop quadrature points (tensor/monomial terms " ++ termTuple numbers ++ ")"),
      .note ("Number of operations to compute element tensor for following IP loop = " ++
        toString operations)]
  let inner : List (Code α) :=
    if 1 < points then [.loop .point points body]
    else [.note "Only 1 integration point, omitting IP loop.", .block body]
  return (.all (notes ++ inner), operations, constants)

end WeakForm
