/-!
# Binary floating-point values taken apart

A finite double is a sign and a product of a natural significand and a power of
two. Taking it apart once lets every printing rule of the library be exact
arithmetic on natural numbers: no rule below looks at a floating-point operation.

## Main definitions

* `Binary`: A double as infinity, non-number, or sign, significand and exponent.
-/

namespace WeakForm
namespace Decimal

/-- The parts of a double. -/
inductive Binary where
  | nan
  | infinite (negative : Bool)
  /-- The value is `significand * 2 ^ exponent`, negated if `negative`. -/
  | finite (negative : Bool) (significand : Nat) (exponent : Int)
  deriving DecidableEq, Repr

namespace Binary

/-- The parts of a double, read off its encoding. -/
def ofFloat (x : Float) : Binary :=
  let bits := x.toBits.toNat
  let negative := decide (Nat.pow 2 63 ≤ bits)
  let biased : Nat := bits / Nat.pow 2 52 % Nat.pow 2 11
  let fraction := bits % Nat.pow 2 52
  if biased = 2047 then
    if fraction = 0 then .infinite negative else .nan
  else if biased = 0 then .finite negative fraction (-1074)
  else .finite negative (Nat.pow 2 52 + fraction) ((biased : Int) - 1075)

end Binary

/-- A fraction of natural numbers with a positive denominator. -/
structure Ratio where
  num : Nat
  den : Nat

namespace Ratio

/-- The fraction `significand * 2 ^ exponent`. -/
def ofBinary (significand : Nat) (exponent : Int) : Ratio :=
  ⟨significand * Nat.pow 2 exponent.toNat, Nat.pow 2 (-exponent).toNat⟩

/-- A fraction measured in units of `10 ^ exponent`. -/
def inUnits (r : Ratio) (exponent : Int) : Ratio :=
  ⟨r.num * Nat.pow 10 (-exponent).toNat, r.den * Nat.pow 10 exponent.toNat⟩

/-- Whether a fraction is at least `10 ^ exponent`. -/
def reaches (r : Ratio) (exponent : Int) : Bool :=
  let u := r.inUnits exponent
  u.den ≤ u.num

/-- The exponent of the leading decimal digit of a positive fraction whose binary logarithm is
    about `log2`. The estimate from the logarithm is off by at most one. -/
def leadingExponent (r : Ratio) (log2 : Int) : Int :=
  let guess := (log2 * 30103).fdiv 100000
  if r.reaches (guess + 1) then guess + 1
  else if r.reaches guess then guess
  else guess - 1

/-- The nearest natural number to a fraction, the even one of two that are equally near. -/
def roundHalfEven (r : Ratio) : Nat :=
  let q := r.num / r.den
  let rest := 2 * (r.num % r.den)
  if rest < r.den then q
  else if r.den < rest then q + 1
  else q + q % 2

end Ratio
end Decimal
end WeakForm
