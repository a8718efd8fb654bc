/-!
# Scalars

The arithmetic of the compiler, stated once for every type of numbers it is
read over. The compiler runs on binary floating-point numbers; its mathematics
is that of an exact field. Both are instances of `Scalar`, so every numeric
definition of the library is one definition, and a theorem over the real numbers
speaks about the very code that runs.

What floating-point numbers distinguish and a field does not is made visible
as operations of the class: the value of an empty sum (a negative zero), the two
comparisons `le` and `lt` (both false at a non-number), and the equality `same`
that identifies the two zeros and a non-number with itself.

## Main definitions

* `Scalar`: Numbers with the operations the compiler needs.
* `Scalar.dot`, `Scalar.norm`: Euclidean product and length.
* `Scalar.power`: Integer power by repeated squaring.
-/

namespace WeakForm

/-- Numbers with the operations the compiler needs. -/
class Scalar (α : Type) extends Add α, Sub α, Mul α, Div α, Neg α, Zero α, One α where
  /-- The number `mantissa / 10 ^ places`. -/
  decimal (mantissa places : Nat) : α
  /-- The value of a sum without terms. -/
  emptySum : α
  sqrt : α → α
  abs : α → α
  /-- Less than; false if a side is not a number. -/
  lt : α → α → Bool
  /-- At most; false if a side is not a number. -/
  le : α → α → Bool
  /-- Numeric equality; false if a side is not a number. -/
  eq : α → α → Bool
  /-- Equality as a key: the two zeros are the same, and so are all non-numbers. -/
  same : α → α → Bool

namespace Scalar

variable {α : Type} [Scalar α]

/-- A whole number as a scalar. -/
def ofNat (n : Nat) : α := decimal n 0

/-- Values of at most this magnitude count as zero in reference tensors. -/
def tiny : α := decimal 3 16

/-- Whether a number differs from zero; true of a non-number. -/
def nonzero (x : α) : Bool := !eq x 0

/-- The sum of a list, from left to right. -/
def sum (xs : List α) : α := xs.foldl (· + ·) emptySum

/-- The Euclidean product, summed from zero; the longer list is cut. -/
def dot (xs ys : List α) : α := (List.zipWith (· * ·) xs ys).foldl (· + ·) 0

/-- The Euclidean length. -/
def norm (xs : List α) : α := sqrt (dot xs xs)

/-- Repeated squaring: `powerLoop r x n` is `r` times the `n`-th power of `x`. -/
def powerLoop (r x : α) (n : Nat) : α :=
  let r' := if n % 2 = 1 then r * x else r
  if n / 2 = 0 then r' else powerLoop r' (x * x) (n / 2)
termination_by n
decreasing_by omega

/-- The power with an integer exponent. A negative exponent inverts the power, not the base. -/
def power (x : α) (n : Int) : α :=
  let r := powerLoop 1 x n.natAbs
  if n < 0 then 1 / r else r

end Scalar

/-- Binary floating-point numbers. -/
instance : Scalar Float where
  zero := 0.0
  one := 1.0
  decimal mantissa places := Float.ofScientific mantissa true places
  emptySum := -0.0
  sqrt := Float.sqrt
  abs := Float.abs
  lt x y := decide (x < y)
  le x y := decide (x ≤ y)
  eq x y := x == y
  same x y := x == y || (x.isNaN && y.isNaN)

end WeakForm
