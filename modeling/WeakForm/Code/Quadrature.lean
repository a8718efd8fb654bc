import WeakForm.Code.Expand
import WeakForm.Code.Loops
import WeakForm.Options
import WeakForm.Quadrature.Rule

/-!
# Element tensors by quadrature

The code that computes the element tensor of some monomials on one facet, on a
pair of facets, or on the cell. Every monomial is tabulated at the points of its
rule: the factors on the minus side of an interior facet at the points on the facet
of that side, with their entries behind those of the plus side. Monomials whose
tables vanish are left out. Terms are gathered by their number of points, and each
gathering becomes one loop.
-/

namespace WeakForm

/-- Code of an element tensor, with the geometry symbols it reads and its operations. -/
structure CaseCode (α : Type) where
  code : Code α
  symbols : List Symbol
  operations : Nat

/-- The facets of the two cells next to a facet: none on cells, one on the boundary. -/
abbrev Facets := Option Nat × Option Nat

/-- The dimensions of the element tensor. Interior facets have entries for both cells. -/
def macroDims {α : Type} (f : Form α) (kind : Integral) : List Nat :=
  f.argumentDims.map fun n => if kind = .interiorFacet then 2 * n else n

/-- The tables of one monomial, before they are stored. -/
structure TermTables (α : Type) where
  weights : List α
  /-- For each argument its tables, and the offset of its entries. -/
  factors : List (List (ScaledTable α) × Nat)

variable {α : Type} [Scalar α]

/-- The tables of one monomial at the points of its rule. -/
def quadratureTerm (s : Setting α) (f : Form α) (d : Dimensions) (m : Monomial α)
    (facets : Facets) : Outcome (TermTables α) := do
  let factors ← f.arrange m
  let degree ← f.quadratureDegree m
  Rule.reserve f.cell facets.1 degree
  let rule ← Rule.reference s.gauss f.cell facets.1 degree
  let minus ← facets.2.mapM fun facet => Rule.reference s.gauss f.cell (some facet) degree
  let tables ← factors.mapM fun factor => do
    let e ← entryAt f.arguments factor.argument
    let (points, offset) :=
      match factor.side, minus with
      | some .minus, some minus => (minus.points, e.spaceDimension)
      | _, _ => (rule.points, 0)
    let reference ← s.tabulator e points factor.order
    return (← expandFactor e factor reference d s.options.epsilon, offset)
  return ⟨rule.weights, tables⟩

/-- Weights, tables and constants stored so far. -/
structure Stores (α : Type) where
  weights : WeightStore α
  tables : TableStore α

/-- One product of a term: the tables at the given positions, multiplied with their geometry. -/
def storeProduct (scale : GeometryMonomial α) (factors : List (List (ScaledTable α) × Nat))
    (store : TableStore α) (choice : List Nat) : Checked (Product α × TableStore α) := do
  let (geometry, tables, store) ← (factors.zip choice).foldlM
    (fun ((geometry, tables, store) : GeometryMonomial α × List ArgumentTable × TableStore α)
        ((candidates, offset), k) => do
      let t ← entryAt candidates k
      let (table, store) ← store.register t.values
      return (← geometry.mul t.geometry, tables ++ [⟨table, offset⟩], store))
    (scale, [], store)
  return (⟨geometry, tables⟩, store)

/-- Stores the tables and weights of a term. There is nothing to store if a factor vanishes. -/
def storeTerm (stores : Stores α) (number : Nat) (coefficient : α) (t : TermTables α) :
    Checked (Option (PointTerm α) × Stores α) := do
  if t.factors.any fun (tables, _) => tables.isEmpty then return (none, stores)
  let scale := (GeometryMonomial.ofSymbol .scale).scaled coefficient
  let counts := t.factors.map fun (tables, _) => tables.length
  Product.reserve counts
  let choices := Tuple.all counts
  let (products, tables) ← choices.foldlM
    (fun ((products, store) : List (Product α) × TableStore α) choice => do
      let (product, store) ← storeProduct scale t.factors store choice
      return (products ++ [product], store))
    ([], stores.tables)
  let (weights, weightStore) := stores.weights.register number t.weights
  return (some ⟨number, weights, t.weights.length, products⟩, ⟨weightStore, tables⟩)

/-- Tabulates and stores monomials from left to right. -/
def storeTerms (s : Setting α) (f : Form α) (d : Dimensions) (facets : Facets)
    (ms : List (Monomial α)) : Outcome (List (PointTerm α) × Stores α) :=
  ms.zipIdx.foldlM
    (fun ((terms, stores) : List (PointTerm α) × Stores α) (m, number) => do
      let t ← quadratureTerm s f d m facets
      let (term, stores) ← storeTerm stores number m.coefficient t
      return (terms ++ term.toList, stores))
    ([], ⟨{}, { compress := 1 ≤ s.options.optimisationLevel }⟩)

/-- Inserts a number into an increasing list without repetitions. -/
def insertNumber (n : Nat) : List Nat → List Nat
  | [] => [n]
  | k :: rest => if n = k then k :: rest else if n < k then n :: k :: rest
    else k :: insertNumber n rest

/-- Terms gathered by their number of points, in increasing order of that number. -/
def byPoints (terms : List (PointTerm α)) : List (Nat × List (PointTerm α)) :=
  let counts := terms.foldl (fun ns t => insertNumber t.points ns) []
  counts.map fun n => (n, terms.filter fun t => t.points = n)

/-- The code that clears the element tensor, if routines do so. -/
def resetCode (s : Setting α) (dims : List Nat) : Checked (Code α) := do
  if s.options.resetTensor then return Code.reset (← Size.product dims) else return .skip

/-- The code of some monomials on given facets. -/
def quadratureCase (s : Setting α) (f : Form α) (d : Dimensions) (kind : Integral)
    (ms : List (Monomial α)) (facets : Facets) : Outcome (CaseCode α) := do
  let (terms, stores) ← storeTerms s f d facets ms
  let dims := macroDims f kind
  let (loops, operations, constants) ← (byPoints terms).foldlM
    (fun ((loops, operations, constants) : List (Code α) × Nat × ConstantStore α)
        (points, terms) => do
      let (code, count, constants) ←
        pointLoop s.number (2 ≤ s.options.optimisationLevel) dims constants points terms
      return (loops ++ [.gap, .block code], ← Size.add operations count, constants))
    ([], 0, {})
  let reset ← resetCode s dims
  let code := Code.all [reset, stores.weights.declarations, stores.tables.declarations,
    constants.declarations, .block (.all loops)]
  return ⟨code, constants.symbols, ← Size.add operations constants.operations⟩

end WeakForm
