/-!
# Faults

A fault is a broken precondition: a number left the word that holds it, an
index points past the end, a stated requirement does not hold. A fault is not a
property of the mathematics but of the bounded machine the compiler is written
for, so it is kept apart from the problems a form can have: a problem is
reported and compilation goes on with the next integral, a fault stops it.

Sizes are natural numbers that must fit a 64-bit word. Every operation that can
leave the word says so in its type, `Checked`, and computes with exact natural
numbers otherwise, so that a successful result is the arithmetic one.

## Main definitions

* `Size.add`, `Size.mul`, `Size.sub`, `Size.pow`: Word arithmetic.
* `Size.sum`, `Size.product`: Sums and products from left to right.

## Theorems

* `Size.ofNat_eq_ok`: A size is the number it was made from.
* `Size.product_eq_ok`: A product that fits is the product.
-/

namespace WeakForm

/-- The ways a precondition can fail. -/
inductive Fault where
  /-- A number is too large for its word. -/
  | overflow
  /-- A difference of sizes is negative. -/
  | underflow
  /-- An index is not below the length of what it points into. -/
  | outOfRange
  /-- A requirement on the arguments of an operation does not hold. -/
  | unmet
  deriving DecidableEq, Repr, Inhabited

/-- A value, or the fault that prevented it. -/
abbrev Checked (β : Type) := Except Fault β

namespace Checked

def require (condition : Bool) : Checked Unit :=
  if condition then .ok () else .error .unmet

/-- Requires an index to be below a length. -/
def bound (index length : Nat) : Checked Unit :=
  if index < length then .ok () else .error .outOfRange

end Checked

namespace Size

/-- Sizes lie below this bound. -/
def limit : Nat := Nat.pow 2 64

/-- A natural number as a size. -/
def ofNat (n : Nat) : Checked Nat :=
  if n < limit then .ok n else .error .overflow

def add (a b : Nat) : Checked Nat := ofNat (a + b)

def mul (a b : Nat) : Checked Nat := ofNat (a * b)

/-- The difference of two sizes, which may not be negative. -/
def sub (a b : Nat) : Checked Nat :=
  if b ≤ a then .ok (a - b) else .error .underflow

/-- A power of a size. A base above one leaves the word at the 64th power at the latest, so
    larger exponents are not computed. -/
def pow (base exponent : Nat) : Checked Nat :=
  if 1 < base ∧ 64 ≤ exponent then .error .overflow
  else if base ≤ 1 then .ok (if base = 0 ∧ exponent ≠ 0 then 0 else 1)
  else ofNat (Nat.pow base exponent)

/-- The sum of sizes, added from left to right. -/
def sum (ns : List Nat) : Checked Nat := ns.foldlM add 0

/-- The sum of numbers, whatever its size. Counters are compared with the bound where they are
    used. -/
def total (ns : List Nat) : Nat := ns.foldr (· + ·) 0

/-- The product of sizes, multiplied from left to right. A zero early in the list keeps the
    running product small whatever follows it. -/
def product (ns : List Nat) : Checked Nat := ns.foldlM mul 1

theorem ofNat_eq_ok {n m : Nat} (h : ofNat n = .ok m) : m = n := by
  unfold ofNat at h
  split at h <;> simp_all

theorem foldlM_mul_eq_ok {ns : List Nat} {a m : Nat} (h : ns.foldlM mul a = .ok m) :
    m = ns.foldl (· * ·) a := by
  induction ns generalizing a with
  | nil => simpa [List.foldlM, pure, Except.pure] using h.symm
  | cons n ns ih =>
    simp only [List.foldlM, bind, Except.bind] at h
    split at h
    · simp at h
    · rename_i v hv
      rw [ih h, List.foldl_cons, ofNat_eq_ok hv]

theorem product_eq_ok {ns : List Nat} {m : Nat} (h : product ns = .ok m) :
    m = ns.foldl (· * ·) 1 := foldlM_mul_eq_ok h

end Size

/-- The entry of a list at a position that must exist. -/
def entryAt {β : Type} (xs : List β) (i : Nat) : Checked β :=
  match xs[i]? with
  | some x => .ok x
  | none => .error .outOfRange

end WeakForm
