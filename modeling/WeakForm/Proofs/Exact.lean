import Mathlib.Algebra.BigOperators.Ring.List
import Mathlib.Algebra.Order.Field.Basic
import Mathlib.Algebra.Order.Field.Rat
import Mathlib.Tactic.Ring
import WeakForm.Scalar

/-!
# Exact scalars

The numbers that theorems are about. Every ordered field is a `Scalar`, with the
operations of the field, so a theorem over an ordered field speaks about the same
definitions that run over floating-point numbers.

A field has no square root of its own. The root is a parameter, `Root`, and no
theorem of this library that is stated for all fields depends on it. Over the real
numbers it is the real square root; the rational numbers take the identity, which is
enough for inputs on which no root is drawn.

In a field the operations that the class keeps apart fall together: the empty sum is
zero, both kinds of equality are equality, and repeated squaring is the power.

## Main definitions

* `Root`: A function that stands for the square root.
* `Scalar.exact`: The scalars of an ordered field.

## Theorems

* `sum_eq_sum`: A sum from left to right is the sum.
* `power_eq_zpow`: Repeated squaring computes the power.
-/

namespace WeakForm

open List

/-- A function that stands for the square root. -/
class Root (K : Type) where
  root : K → K

/-- No rational witness of this library draws a root. -/
instance : Root ℚ := ⟨id⟩

namespace Scalar

variable {K : Type} [Field K] [LinearOrder K] [Root K] {x y : K} {β : Type} (f : β → K)
  (xs : List β) (a : K)

/-- The scalars of an ordered field. -/
instance exact : Scalar K where
  decimal mantissa places := (mantissa : K) / 10 ^ places
  emptySum := 0
  sqrt := Root.root
  abs x := |x|
  lt x y := decide (x < y)
  le x y := decide (x ≤ y)
  eq x y := decide (x = y)
  same x y := decide (x = y)

@[simp] theorem lt_eq_true : Scalar.lt x y = true ↔ x < y := decide_eq_true_iff

@[simp] theorem le_eq_true : Scalar.le x y = true ↔ x ≤ y := decide_eq_true_iff

@[simp] theorem eq_eq_true : Scalar.eq x y = true ↔ x = y := decide_eq_true_iff

@[simp] theorem same_eq_true : Scalar.same x y = true ↔ x = y := decide_eq_true_iff

@[simp] theorem nonzero_eq_true : Scalar.nonzero x = true ↔ x ≠ 0 := by
  unfold Scalar.nonzero
  rw [Bool.not_eq_true', ← Bool.not_eq_true, eq_eq_true]

theorem abs_eq_abs (x : K) : Scalar.abs x = |x| := rfl

theorem sum_eq_sum (xs : List K) : Scalar.sum xs = xs.sum := by
  unfold Scalar.sum
  rw [sum_eq_foldl]
  rfl

theorem foldl_mul_eq_prod : xs.foldl (fun product x => product * f x) a = a * (xs.map f).prod := by
  induction xs generalizing a with
  | nil => rw [foldl_nil, map_nil, prod_nil, mul_one]
  | cons x xs ih => rw [foldl_cons, ih, map_cons, prod_cons, mul_assoc]

theorem foldl_add_eq_sum : xs.foldl (fun total x => total + f x) a = a + (xs.map f).sum := by
  induction xs generalizing a with
  | nil => rw [foldl_nil, map_nil, sum_nil, add_zero]
  | cons x xs ih => rw [foldl_cons, ih, map_cons, sum_cons, add_assoc]

theorem powerLoop_eq_pow (n : Nat) : ∀ r x : K, powerLoop r x n = r * x ^ n := by
  induction n using Nat.strong_induction_on with
  | _ n ih =>
    intro r x
    rw [powerLoop]
    by_cases hhalf : n / 2 = 0
    · have hsmall : n = 0 ∨ n = 1 := by omega
      rcases hsmall with rfl | rfl
      · simp only [Nat.zero_mod, zero_ne_one, if_false, Nat.zero_div, if_true, pow_zero, mul_one]
      · rw [if_pos hhalf, if_pos rfl, pow_one]
    · simp only [hhalf, if_false]
      rw [ih (n / 2) (by omega)]
      -- The binary digit that is split off decides whether the factor is taken.
      by_cases hodd : n % 2 = 1
      · conv_rhs => rw [← Nat.div_add_mod n 2, hodd]
        rw [if_pos hodd]
        ring
      · conv_rhs => rw [← Nat.div_add_mod n 2, show n % 2 = 0 by omega]
        rw [if_neg hodd]
        ring

theorem power_eq_zpow (x : K) (n : Int) : power x n = x ^ n := by
  unfold power
  simp only [powerLoop_eq_pow, one_mul]
  by_cases hneg : n < 0
  · rcases Int.eq_negSucc_of_lt_zero hneg with ⟨k, rfl⟩
    rw [if_pos hneg, Int.natAbs_negSucc, zpow_negSucc, one_div]
  · rcases Int.eq_ofNat_of_zero_le (not_lt.1 hneg) with ⟨k, rfl⟩
    rw [if_neg hneg, Int.natAbs_natCast, zpow_natCast]

end Scalar
end WeakForm
