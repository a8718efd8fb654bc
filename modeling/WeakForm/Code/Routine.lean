import WeakForm.Code.Contraction
import WeakForm.Passage.Basic

/-!
# Routines

A routine computes the element tensor of one integral. Over cells it has one body;
over facets it has one body for each facet, or for each pair of facets, and selects
among them. In front of the body it declares the geometry that the body reads, and
no more.

An integral without monomials has a routine that clears the element tensor. An
integral that cannot be compiled has a routine that reports the problem when it is
called.

## Main definitions

* `Routine`: Name, geometry and body.
* `Routine.text`: The text of a routine.
* `quadratureRoutine`, `contractionRoutine`: The routines of an integral.
-/

namespace WeakForm

/-- The code of a routine, for each facet or pair of facets it can be called with. -/
inductive Body (α : Type) where
  | cell (code : Code α)
  | facets (codes : List (Code α))
  | facetPairs (codes : List (List (Code α)))

/-- The routine of one integral. -/
structure Routine (α : Type) where
  name : String
  kind : Integral
  /-- Declarations of the geometry; an integral without monomials has none. -/
  geometry : Option Listing
  body : Body α
  operations : Nat

/-- A selection among cases numbered from zero. -/
def selection (variableName : String) (cases : List Listing) : Listing :=
  let opened := (Listing.empty.push (Cpp.switch variableName)).push Cpp.blockBegin
  let inner := cases.zipIdx.foldl (fun (l : Listing) (c, value) =>
    (((l.push (Cpp.caseLabel value)).nest
      (((Listing.empty.push Cpp.blockBegin).nest c).push Cpp.blockEnd |>.push
        Cpp.breakStatement))))
    opened
  inner.push Cpp.blockEnd

namespace Body

variable {α : Type} [Scalar α]

/-- The lines of a body. -/
def listing (number : α → String) : Body α → Listing
  | cell code => code.render number
  | facets codes =>
    (Listing.empty.push (Cpp.comment "Compute element tensor for all facets")).append
      (selection (Cpp.facetVariable none) (codes.map (Code.render number)))
  | facetPairs codes =>
    (Listing.empty.push
      (Cpp.comment "Compute element tensor for all facet-facet combinations")).append
      (selection (Cpp.facetVariable (some .plus)) (codes.map fun row =>
        selection (Cpp.facetVariable (some .minus)) (row.map (Code.render number))))

end Body

namespace Routine

variable {α : Type} [Scalar α]

/-- The lines of a routine. -/
def listing (number : α → String) (r : Routine α) : Listing :=
  let opened := Listing.empty.push (Cpp.routineBegin r.name r.kind)
  let inside :=
    match r.geometry with
    | some geometry => ({} : Listing).append geometry
    | none => {}
  let head := opened.nest inside
  let gap := if r.geometry.isSome then head.blank else head
  (gap.nest (r.body.listing number)).push Cpp.blockEnd

def text (number : α → String) (r : Routine α) : String := (r.listing number).text

end Routine

/-- The sides that a routine declares geometry of. -/
def routineSides : Integral → List (Option Side)
  | .interiorFacet => [some .plus, some .minus]
  | _ => [none]

/-- The passages a routine declares for one side, before their requirements. The orientation is
    checked if the determinant of a manifold cell is read; the scale factor of facets is computed
    on the plus side. -/
def routinePassages (d : Dimensions) (kind : Integral) (symbols : List Symbol)
    (side : Option Side) : List Passage :=
  let oriented := d.isManifold && symbols.contains (.determinant side)
  let scale : List Passage :=
    if kind = .cell then [.scaleFactor]
    else if side = some .minus then []
    else [.facetDeterminant]
  [.jacobian, .inverseJacobian] ++ (if oriented then [.orientation] else []) ++ scale

/-- Declarations of all geometry that code with the given symbols may read. -/
def geometryListing (d : Dimensions) (kind : Integral) (symbols : List Symbol) : Listing :=
  (routineSides kind).foldl (fun l side =>
    (Passage.complete (routinePassages d kind symbols side)).foldl (fun l p =>
      (l.push (p.text d side)).blank) l) .empty

section

variable {α : Type} [Scalar α]

/-- The cases of an integral and the body they form. Every facet, or pair of facets, is one
    case. -/
def caseBody (shape : Shape) (kind : Integral) (case : Facets → Drawing (CaseCode α)) :
    Drawing (Body α × List (CaseCode α)) := do
  let facets := List.range shape.facetCount
  match kind with
  | .cell =>
    let c ← case (none, none)
    return (.cell c.code, [c])
  | .exteriorFacet =>
    let cs ← facets.mapM fun facet => case (some facet, none)
    return (.facets (cs.map fun c => c.code), cs)
  | .interiorFacet =>
    let css ← facets.mapM fun facet0 => facets.mapM fun facet1 => case (some facet0, some facet1)
    return (.facetPairs (css.map fun cs => cs.map fun c => c.code), css.flatten)

/-- The routine of an integral, given the code of its cases. The operations are those of the
    longest case. -/
def routine (s : Setting α) (f : Form α) (kind : Integral) (name : String) (isEmpty : Bool)
    (case : Facets → Drawing (CaseCode α)) : Drawing (Routine α) := do
  let d ← Drawing.ofOutcome (do return ← f.dims)
  if isEmpty then
    let size ← Drawing.ofOutcome (do return ← Size.product (macroDims f kind))
    return ⟨name, kind, none, .cell (.reset size), 0⟩
  else
    let (body, cases) ← caseBody f.cell kind case
    let geometry := geometryListing d kind (cases.flatMap fun c => c.symbols)
    return ⟨name, kind, some (geometry.prune (body.listing s.number)), body,
      (cases.map fun c => c.operations).foldl max 0⟩

def quadratureRoutine (s : Setting α) (f : Form α) (kind : Integral) (name : String)
    (ms : List (Monomial α)) : Drawing (Routine α) := do
  let d ← Drawing.ofOutcome (do return ← f.dims)
  routine s f kind name ms.isEmpty fun facets =>
    Drawing.ofOutcome (quadratureCase s f d kind ms facets)

/-- The routine of an integral by contraction. The primary multi-index must range over the
    arguments of the form. -/
def contractionRoutine (s : Setting α) (f : Form α) (kind : Integral) (domain : Nat)
    (name : String) (ms : List (Monomial α)) (primary : MultiIndex) : Drawing (Routine α) :=
  routine s f kind name ms.isEmpty fun facets =>
    contractionCase s f kind domain ms primary facets.1

end

/-- The routine that stands for an integral that could not be compiled. It reports the problem
    when it is called. -/
def errorRoutine (name : String) (p : LocatedProblem) : String :=
  let inside := (Listing.empty.push
    (Cpp.comment ("Code generation failed for " ++ p.message))).push (Cpp.raise p.message)
  (((Listing.empty.push (Cpp.routineBegin name p.kind)).nest inside).push Cpp.blockEnd).text

end WeakForm
