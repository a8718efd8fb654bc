import WeakForm.Decimal.Binary

/-!
# Shortest decimals

The decimal with the fewest digits that reads back as a given double, and of
those the nearest one. The reals that read back as `m * 2 ^ q` form an interval
around it: half a step to each side, a quarter step downwards where the step
below is half as wide, with the ends included exactly if `m` is even. For one
digit, two digits and so on, only the two neighbours of the value on the grid
with that many digits can lie in the interval and be nearest; the first grid with
a hit wins. Of two hits the nearer is taken, and the upper one of two equally
near ones.

## Main definitions

* `shortest`: The shortest decimal of a positive double.
-/

namespace WeakForm
namespace Decimal

/-- The number `significand * 10 ^ exponent`. -/
structure Digits where
  significand : Nat
  exponent : Int
  deriving DecidableEq, Repr

namespace Digits

/-- Moves trailing zeros from the significand into the exponent, at most `fuel` of them. -/
def trimLoop : Nat → Digits → Digits
  | 0, d => d
  | fuel + 1, d =>
    if d.significand % 10 = 0 ∧ d.significand ≠ 0 then
      trimLoop fuel ⟨d.significand / 10, d.exponent + 1⟩
    else d

/-- The same number without trailing zeros in its significand. -/
def trim (d : Digits) : Digits := trimLoop d.significand.log2 d

end Digits

/-- The neighbour of a value on a grid that lies within the given bounds, if there is one.
    The value and the bounds are numerators over one denominator, in units of the grid. -/
def neighbour (value low high den : Nat) (closed : Bool) : Option Nat :=
  let below := value / den
  let inside (n : Nat) : Bool :=
    if closed then low ≤ n * den && n * den ≤ high else low < n * den && n * den < high
  match inside below, inside (below + 1) with
  | true, true => some (if 2 * (value % den) < den then below else below + 1)
  | true, false => some below
  | false, true => some (below + 1)
  | false, false => none

/-- Scans the grids with ever more digits. `leading` is the exponent of the first digit. -/
def scan (value low high : Ratio) (closed : Bool) (leading : Int) : Nat → Nat → Option Digits
  | 0, _ => none
  | fuel + 1, count =>
    let exponent := leading - count
    let v := value.inUnits exponent
    match neighbour v.num (low.inUnits exponent).num (high.inUnits exponent).num v.den closed with
    | some n => some (Digits.trim ⟨n, exponent⟩)
    | none => scan value low high closed leading fuel (count + 1)

/-- The shortest decimal that reads back as `significand * 2 ^ exponent`, where the significand
    is that of a double. Seventeen digits always suffice. -/
def shortest (significand : Nat) (exponent : Int) : Digits :=
  let quarter := exponent - 2
  let value := Ratio.ofBinary (4 * significand) quarter
  let narrow := significand = Nat.pow 2 52 ∧ exponent ≠ -1074
  let low := Ratio.ofBinary (4 * significand - if narrow then 1 else 2) quarter
  let high := Ratio.ofBinary (4 * significand + 2) quarter
  let leading := value.leadingExponent (significand.log2 + exponent)
  match scan value low high (significand % 2 = 0) leading 18 0 with
  | some d => d
  | none => ⟨significand, 0⟩

end Decimal
end WeakForm
