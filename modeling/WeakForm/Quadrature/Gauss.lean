import WeakForm.Scalar
import WeakForm.Fault

/-!
# Gauss rules on the unit interval

The points of the Gauss rule with `n` points are the zeros of the Legendre
polynomial of degree `n`, moved to the interval from zero to one. They come in
pairs reflected about the midpoint, with equal weights, and the weights add up to
one. `symmetrize` establishes these properties for whatever approximations it is
given, so they hold exactly and not just up to rounding.

The approximations come from Newton's method in fixed-point arithmetic with 128
binary places. It stands in for the eigenvalues of the Jacobi matrix of the
polynomials, which are the same nodes. That the doubles it ends in are those nearest
to the nodes is meant but not proved; nothing but `nodes` depends on it.
-/

namespace WeakForm
namespace Gauss

section

variable {α : Type} [Scalar α]

/-- Approximate nodes and weights of Gauss rules, for each number of points. -/
abbrev Source (α : Type) := Nat → List (α × α)

/-- Pairs of nodes and weights in the order of the nodes. -/
def sorted (pairs : List (α × α)) : List (α × α) :=
  pairs.mergeSort fun a b => !Scalar.lt b.1 a.1

/-- Weights divided by their sum. -/
def normalized (pairs : List (α × α)) : List (α × α) :=
  let total := Scalar.sum (pairs.map Prod.snd)
  pairs.map fun (x, w) => (x, w / total)

/-- Replaces the node at a place and its counterpart at the other end by a pair reflected about the
    midpoint, and their weights by the mean. -/
def reflectAt (nodes : List (α × α)) (i : Nat) : List (α × α) :=
  let half : α := Scalar.decimal 5 1
  let j := nodes.length - 1 - i
  match nodes[i]?, nodes[j]? with
  | some a, some b =>
    let x := half * (a.1 + 1 - b.1)
    let w := half * (a.2 + b.2)
    (nodes.set i (x, w)).set j (1 - x, w)
  | _, _ => nodes

/-- Reflects all pairs. The node in the middle of an odd number goes to the midpoint. -/
def reflected (pairs : List (α × α)) : List (α × α) :=
  let n := pairs.length
  let nodes := (List.range (n / 2)).foldl reflectAt pairs
  if n % 2 = 1 then nodes.modify (n / 2) fun x => (Scalar.decimal 5 1, x.2) else nodes

/-- Sorts, normalises and reflects nodes and weights. -/
def symmetrize (pairs : List (α × α)) : List (α × α) := reflected (normalized (sorted pairs))

/-- The bound of the number of points: a square of that many doubles must fit the address
    space. -/
def capacity : Nat := Nat.pow 2 30

/-- The nodes and weights of the rule with `n` points, of which there must be one. -/
def rule (source : Source α) (n : Nat) : Checked (List (α × α)) := do
  Checked.require (0 < n)
  Checked.bound n capacity
  return symmetrize (source n)

end

/-- One in fixed-point arithmetic. -/
def unit : Int := Int.pow 2 128

/-- The fixed-point product. -/
def times (a b : Int) : Int := (a * b).fdiv unit

def quotient (a b : Int) : Int := (a * unit).fdiv b

/-- The Legendre polynomials of degrees `n` and `n - 1` at `x`, by their recurrence. -/
def legendre (x : Int) (n : Nat) : Int × Int :=
  (List.range n).foldl (fun ((p, q) : Int × Int) (k : Nat) =>
    (((2 * (k : Int) + 1) * times x p - k * q).fdiv (k + 1), p)) (unit, 0)

/-- The derivative of the Legendre polynomial of degree `n`, given its value and that of the
    polynomial before it. -/
def slope (x : Int) (n : Nat) (p q : Int) : Int :=
  quotient (n * (q - times x p)) (unit - times x x)

def newton (n : Nat) (x : Int) : Int :=
  let (p, q) := legendre x n
  x - quotient p (slope x n p q)

/-- An approximation of the zero with number `i`, counted from the largest one. -/
def guess (n i : Nat) : Int :=
  let angle := 3.141592653589793 * (4.0 * i.toFloat + 3.0) / (4.0 * n.toFloat + 2.0)
  (Float.cos angle * 9007199254740992.0).toInt64.toInt * Int.pow 2 75

/-- The double nearest to a non-negative fixed-point number. -/
def toFloat (x : Int) : Float :=
  let m := x.toNat
  let spare := m.log2 - 52
  Float.scaleB ((m + Nat.pow 2 spare / 2) / Nat.pow 2 spare).toFloat (spare - 128)

/-- The zeros of the Legendre polynomial of degree `n`, moved to the unit interval, with their
    weights, in increasing order. -/
def nodes : Source Float := fun n =>
  (List.range n).map fun i =>
    let x := (List.range 8).foldl (fun x _ => newton n x) (guess n i)
    let (p, q) := legendre x n
    let s := slope x n p q
    let weight := quotient unit (times (unit - times x x) (times s s))
    (toFloat ((unit - x).fdiv 2), toFloat weight)

end Gauss
end WeakForm
