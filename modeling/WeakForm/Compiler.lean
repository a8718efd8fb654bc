import WeakForm.Code.Routine

/-!
# The form compiler

Compiles whole forms. The monomials of a form are sorted by the kind and the domain
of their integral, and each integral becomes one routine. An integral with a problem
becomes a routine that reports it, and the others are not affected.

All integrals of a form draw their indices from one allocator, which starts afresh
with every form.

## Main definitions

* `CompiledIntegral`, `CompiledForm`: The result of compilation.
-/

namespace WeakForm

/-- How the routine of an integral came about. -/
inductive IntegralOutcome where
  | emitted (operations : Nat)
  /-- There are no monomials on this domain. -/
  | empty
  | failed (p : LocatedProblem)
  deriving DecidableEq, Repr

/-- The routine of one integral. -/
structure CompiledIntegral where
  kind : Integral
  domain : Nat
  name : String
  code : String
  outcome : IntegralOutcome
  deriving DecidableEq, Repr

/-- The routines of a form. -/
structure CompiledForm where
  name : String
  integrals : List CompiledIntegral
  deriving DecidableEq, Repr

namespace CompiledForm

/-- The problems of the integrals that could not be compiled. -/
def failures (c : CompiledForm) : List LocatedProblem :=
  c.integrals.filterMap fun i =>
    match i.outcome with
    | .failed p => some p
    | _ => none

def integral? (c : CompiledForm) (kind : Integral) (domain : Nat) : Option CompiledIntegral :=
  c.integrals.find? fun i => i.kind = kind && i.domain = domain

end CompiledForm

variable {α : Type}

/-- The integrals of a form with their monomials. Every domain up to the largest one of a kind
    has an integral, also those without monomials. -/
def integralsOf (f : Form α) : List (Integral × Nat × List (Monomial α)) :=
  Integral.all.flatMap fun kind =>
    let ms := f.monomials.filter fun m => m.integral = kind
    match (ms.map fun m => m.domain).max? with
    | none => []
    | some last =>
      (List.range (last + 1)).map fun domain => (kind, domain, ms.filter fun m => m.domain = domain)

/-- A setting, and the allocator of the form that was compiled last. -/
structure Compiler (α : Type) where
  setting : Setting α
  allocator : Allocator := {}

namespace Compiler

def routineName (s : Setting α) (f : Form α) (kind : Integral) (domain : Nat) : String :=
  s.options.routineName.getD f.name ++ "_" ++ kind.name ++ "_integral_" ++ toString domain

variable [Scalar α]

/-- The routine of an integral, contracted if that is asked for and possible. -/
def integralRoutine (s : Setting α) (f : Form α) (primary : MultiIndex) (kind : Integral)
    (domain : Nat) (ms : List (Monomial α)) : Drawing (Routine α) :=
  let name := routineName s f kind domain
  if s.options.representation = .tensor && supportsTensor f kind then
    contractionRoutine s f kind domain name ms primary
  else quadratureRoutine s f kind name ms

/-- Compiles one integral. A problem becomes a routine that reports it. -/
def compileIntegral (s : Setting α) (f : Form α) (primary : MultiIndex) (kind : Integral)
    (domain : Nat) (ms : List (Monomial α)) (allocator : Allocator) :
    Checked CompiledIntegral × Allocator :=
  let name := routineName s f kind domain
  let (result, allocator) := (integralRoutine s f primary kind domain ms).run allocator
  match result with
  | .ok r =>
    let outcome : IntegralOutcome := if ms.isEmpty then .empty else .emitted r.operations
    (.ok ⟨kind, domain, name, r.text s.number, outcome⟩, allocator)
  | .error (.problem p) =>
    let located : LocatedProblem := ⟨kind, domain, p⟩
    (.ok ⟨kind, domain, name, errorRoutine name located, .failed located⟩, allocator)
  | .error (.fault fault) => (.error fault, allocator)

/-- Compiles integrals from left to right, up to the first fault. -/
def compileIntegrals (s : Setting α) (f : Form α) (primary : MultiIndex) :
    List (Integral × Nat × List (Monomial α)) → Allocator →
      Checked (List CompiledIntegral) × Allocator
  | [], allocator => (.ok [], allocator)
  | (kind, domain, ms) :: rest, allocator =>
    match compileIntegral s f primary kind domain ms allocator with
    | (.error fault, allocator) => (.error fault, allocator)
    | (.ok first, allocator) =>
      match compileIntegrals s f primary rest allocator with
      | (.error fault, allocator) => (.error fault, allocator)
      | (.ok others, allocator) => (.ok (first :: others), allocator)

/-- Compiles a form. -/
def compile (c : Compiler α) (f : Form α) : Checked CompiledForm × Compiler α :=
  let (primary, allocator) := MultiIndex.primary .empty f.argumentDims
  let (result, allocator) := compileIntegrals c.setting f primary (integralsOf f) allocator
  (result.map fun integrals => ⟨f.name, integrals⟩, { c with allocator := allocator })

def tensorTitle (kind : Integral) (domain : Nat) (facet : Option Nat) : String :=
  let name := String.ofList (kind.name.toList.map fun c => if c == '_' then ' ' else c)
  name ++ " integral " ++ toString domain ++
    match facet with
    | none => ""
    | some facet => s!" (facet {facet})"

/-- The element tensors of one integral: one for the cell, or one for each facet. -/
def integralTensors (s : Setting α) (f : Form α) (style : Style α) (primary : MultiIndex)
    (kind : Integral) (domain : Nat) (ms : List (Monomial α)) :
    Drawing (List (String × ElementTensor α)) :=
  let facets :=
    match kind with
    | .cell => [none]
    | _ => (List.range f.cell.facetCount).map some
  facets.mapM fun facet => do
    let terms ← tensorTerms s.gauss s.tabulator f ms facet primary
    let tensor ← Drawing.ofOutcome (ElementTensor.of terms kind domain style)
    return (tensorTitle kind domain facet, tensor)

/-- The element tensors of integrals from left to right, up to the first failure. -/
def tensorsOf (s : Setting α) (f : Form α) (style : Style α) (primary : MultiIndex) :
    List (Integral × Nat × List (Monomial α)) → Allocator →
      Checked (Except LocatedProblem (List (String × ElementTensor α))) × Allocator
  | [], allocator => (.ok (.ok []), allocator)
  | (kind, domain, ms) :: rest, allocator =>
    if ms.isEmpty || !supportsTensor f kind then tensorsOf s f style primary rest allocator
    else
      match (integralTensors s f style primary kind domain ms).run allocator with
      | (.error (.fault fault), allocator) => (.error fault, allocator)
      | (.error (.problem p), allocator) => (.ok (.error ⟨kind, domain, p⟩), allocator)
      | (.ok first, allocator) =>
        match tensorsOf s f style primary rest allocator with
        | (.ok (.ok others), allocator) => (.ok (.ok (first ++ others)), allocator)
        | (result, allocator) => (result, allocator)

def elementTensors (c : Compiler α) (f : Form α) (style : Style α) :
    Checked (Except LocatedProblem (List (String × ElementTensor α))) × Compiler α :=
  let (primary, allocator) := MultiIndex.primary .empty f.argumentDims
  let (result, allocator) := tensorsOf c.setting f style primary (integralsOf f) allocator
  (result, { c with allocator := allocator })

end Compiler
end WeakForm
