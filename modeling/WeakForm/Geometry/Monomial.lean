import WeakForm.Scalar
import WeakForm.Geometry.Symbol

/-!
# Products of geometry symbols

A geometry monomial is a coefficient times a product of powers of symbols. The
powers are listed in the order of the symbols and hold no zero exponent, so equal
products have equal lists. Exponents are 32-bit numbers; a product whose
exponents leave that range is a fault.

A geometry sum is a sum of monomials with strictly increasing lists of powers and
no zero coefficient, so a sum is zero exactly if it has no terms.

## Main definitions

* `GeometryMonomial.mul`: The product of two monomials.
* `GeometrySum.ofTerms`: Merges monomials with equal powers.
-/

namespace WeakForm

/-- Powers of symbols, in the order of the symbols. -/
abbrev Powers := List (Symbol × Int)

namespace Powers

/-- Whether an exponent fits a 32-bit word. -/
def fits (exponent : Int) : Bool := -2147483648 ≤ exponent && exponent < 2147483648

/-- Multiplies by a power of one symbol. An exponent that becomes zero is dropped. -/
def insert (symbol : Symbol) (exponent : Int) : Powers → Checked Powers
  | [] => .ok (if exponent = 0 then [] else [(symbol, exponent)])
  | (s, e) :: rest =>
    if symbol = s then
      if fits (e + exponent) then
        .ok (if e + exponent = 0 then rest else (s, e + exponent) :: rest)
      else .error .overflow
    else if symbol.before s then
      .ok (if exponent = 0 then (s, e) :: rest else (symbol, exponent) :: (s, e) :: rest)
    else do return (s, e) :: (← insert symbol exponent rest)

/-- The product of two lists of powers. -/
def mul (a b : Powers) : Checked Powers := b.foldlM (fun p (s, e) => insert s e p) a

/-- The order of lists of powers: by the first place they differ in, a shorter list before its
    extensions. -/
def before : Powers → Powers → Bool
  | _, [] => false
  | [], _ :: _ => true
  | (s, e) :: p, (s', e') :: q =>
    if s = s' then if e = e' then before p q else e < e' else s.before s'

/-- The number of factors when powers are written out. -/
def factorCount (p : Powers) : Nat := Size.total (p.map fun (_, e) => e.natAbs)

end Powers

/-- A coefficient times a product of powers of symbols. -/
structure GeometryMonomial (α : Type) where
  coefficient : α
  powers : Powers

namespace GeometryMonomial

/-- The bound of the number of products in a list: four words each must fit the address space. -/
def capacity : Nat := Nat.pow 2 58

/-- Requires that products for all tuples of `order` axes can be listed. -/
def reserve (dim order : Nat) : Checked Unit := do
  Checked.bound (← Size.pow dim order) capacity

variable {α : Type} [Scalar α]

def constant (c : α) : GeometryMonomial α := ⟨c, []⟩

def power (symbol : Symbol) (exponent : Int) : GeometryMonomial α :=
  ⟨1, if exponent = 0 then [] else [(symbol, exponent)]⟩

def ofSymbol (symbol : Symbol) : GeometryMonomial α := power symbol 1

def isConstant (m : GeometryMonomial α) : Bool := m.powers.isEmpty

def scaled (m : GeometryMonomial α) (factor : α) : GeometryMonomial α :=
  { m with coefficient := m.coefficient * factor }

/-- The same powers with coefficient one. -/
def normalized (m : GeometryMonomial α) : GeometryMonomial α := { m with coefficient := 1 }

/-- The product of two monomials. -/
def mul (a b : GeometryMonomial α) : Checked (GeometryMonomial α) := do
  return ⟨a.coefficient * b.coefficient, ← Powers.mul a.powers b.powers⟩

/-- The value of a monomial, multiplied from left to right, given the values of symbols. -/
def value (m : GeometryMonomial α) (valueOf : Symbol → α) : α :=
  m.powers.foldl (fun product (s, e) => product * Scalar.power (valueOf s) e) m.coefficient

/-- The number of multiplications and divisions it takes to compute the monomial: one less than
    its factors, the coefficient counting unless its magnitude is one. -/
def operations (m : GeometryMonomial α) : Nat :=
  let coefficient := if Scalar.eq (Scalar.abs m.coefficient) 1 then 0 else 1
  m.powers.factorCount + coefficient - 1

end GeometryMonomial

/-- A sum of monomials in canonical form. -/
structure GeometrySum (α : Type) where
  terms : List (GeometryMonomial α)

namespace GeometrySum

variable {α : Type} [Scalar α]

/-- Adds a monomial to a list of monomials with increasing powers. -/
def insert (m : GeometryMonomial α) : List (GeometryMonomial α) → List (GeometryMonomial α)
  | [] => [m]
  | t :: rest =>
    if m.powers = t.powers then { t with coefficient := t.coefficient + m.coefficient } :: rest
    else if m.powers.before t.powers then m :: t :: rest
    else t :: insert m rest

/-- The sum of monomials. Monomials with equal powers are merged in the order they come, and
    terms whose coefficient vanishes are dropped. -/
def ofTerms (ms : List (GeometryMonomial α)) : GeometrySum α :=
  ⟨(ms.foldl (fun terms m => insert m terms) []).filter fun t => Scalar.nonzero t.coefficient⟩

def isZero (s : GeometrySum α) : Bool := s.terms.isEmpty

def value (s : GeometrySum α) (valueOf : Symbol → α) : α :=
  Scalar.sum (s.terms.map fun t => t.value valueOf)

/-- The operations of all terms and the additions between them. -/
def operations (s : GeometrySum α) : Nat :=
  Size.total (s.terms.map GeometryMonomial.operations) + (s.terms.length - 1)

def symbols (s : GeometrySum α) : List Symbol := s.terms.flatMap fun t => t.powers.map Prod.fst

end GeometrySum
end WeakForm
