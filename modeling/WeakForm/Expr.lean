import WeakForm.Geometry.Monomial

/-!
# Arithmetic expressions

Everything the compiler writes down that has a value is an expression first:
geometry constants, the products inside of loops, positions in arrays, and the
formulas of the geometry passages. An expression is a tree over literals and
names; what a name is differs from use to use and is a parameter.

A tree is written without adding brackets. Brackets are part of the tree, so the
reader of the text and the evaluator of the tree see the same structure.

## Main definitions

* `GeometryMonomial.toExpr`, `GeometrySum.toExpr`: Symbolic geometry as expressions.
-/

namespace WeakForm

/-- An arithmetic expression over names of type `ν` and literals of type `α`. -/
inductive Expr (ν α : Type) where
  | literal (value : α)
  | name (n : ν)
  | neg (a : Expr ν α)
  | add (a b : Expr ν α)
  | sub (a b : Expr ν α)
  | mul (a b : Expr ν α)
  | div (a b : Expr ν α)
  | sqrt (a : Expr ν α)
  | abs (a : Expr ν α)
  /-- An expression in brackets. -/
  | group (a : Expr ν α)
  deriving DecidableEq, Repr

namespace Expr

variable {ν μ α : Type}

instance : Add (Expr ν α) := ⟨add⟩
instance : Sub (Expr ν α) := ⟨sub⟩
instance : Mul (Expr ν α) := ⟨mul⟩
instance : Div (Expr ν α) := ⟨div⟩
instance : Neg (Expr ν α) := ⟨neg⟩

/-- The sum of expressions from left to right, `empty` if there are none. -/
def sumOf (empty : Expr ν α) : List (Expr ν α) → Expr ν α
  | [] => empty
  | e :: es => es.foldl add e

/-- The product of expressions from left to right, `empty` if there are none. -/
def productOf (empty : Expr ν α) : List (Expr ν α) → Expr ν α
  | [] => empty
  | e :: es => es.foldl mul e

/-- Replaces the names. -/
def rename (f : ν → μ) : Expr ν α → Expr μ α
  | literal value => literal value
  | name n => name (f n)
  | neg a => neg (a.rename f)
  | add a b => add (a.rename f) (b.rename f)
  | sub a b => sub (a.rename f) (b.rename f)
  | mul a b => mul (a.rename f) (b.rename f)
  | div a b => div (a.rename f) (b.rename f)
  | sqrt a => sqrt (a.rename f)
  | abs a => abs (a.rename f)
  | group a => group (a.rename f)

/-- Replaces the names, which may fail. -/
def mapNames (f : ν → Checked μ) : Expr ν α → Checked (Expr μ α)
  | literal value => .ok (literal value)
  | name n => do return name (← f n)
  | neg a => do return neg (← a.mapNames f)
  | add a b => do return add (← a.mapNames f) (← b.mapNames f)
  | sub a b => do return sub (← a.mapNames f) (← b.mapNames f)
  | mul a b => do return mul (← a.mapNames f) (← b.mapNames f)
  | div a b => do return div (← a.mapNames f) (← b.mapNames f)
  | sqrt a => do return sqrt (← a.mapNames f)
  | abs a => do return abs (← a.mapNames f)
  | group a => do return group (← a.mapNames f)

end Expr

/-- How products and quotients are written. -/
structure Operators where
  times : String
  quotient : String → String → String

/-- An expression in brackets. -/
def grouped (s : String) : String := "(" ++ s ++ ")"

namespace Expr

variable {ν α : Type}

def text (op : Operators) (nameText : ν → String) (number : α → String) : Expr ν α → String
  | literal value => number value
  | name n => nameText n
  | neg a => "-" ++ a.text op nameText number
  | add a b => a.text op nameText number ++ " + " ++ b.text op nameText number
  | sub a b => a.text op nameText number ++ " - " ++ b.text op nameText number
  | mul a b => a.text op nameText number ++ op.times ++ b.text op nameText number
  | div a b => op.quotient (a.text op nameText number) (b.text op nameText number)
  | sqrt a => "std::sqrt" ++ grouped (a.text op nameText number)
  | abs a => "std::abs" ++ grouped (a.text op nameText number)
  | group a => grouped (a.text op nameText number)

end Expr

namespace GeometryMonomial

variable {α : Type} [Scalar α]

/-- The symbols with positive exponents, each as often as its exponent says. -/
def numerators (m : GeometryMonomial α) : List Symbol :=
  m.powers.flatMap fun (s, e) => List.replicate e.toNat s

/-- The symbols with negative exponents, each as often as its exponent says. -/
def denominators (m : GeometryMonomial α) : List Symbol :=
  m.powers.flatMap fun (s, e) => List.replicate (-e).toNat s

/-- The monomial without its sign: the coefficient unless it is one, times the symbols with
    positive exponents, divided by the product of those with negative exponents. -/
def magnitude (m : GeometryMonomial α) : Expr Symbol α :=
  let size := Scalar.abs m.coefficient
  let leading := if Scalar.eq size 1 then [] else [.literal size]
  let numerator := Expr.productOf (.literal 1) (leading ++ m.numerators.map .name)
  match m.denominators.map Expr.name with
  | [] => numerator
  | [single] => numerator / single
  | several => numerator / Expr.group (Expr.productOf (.literal 1) several)

/-- The monomial as an expression. -/
def toExpr (m : GeometryMonomial α) : Expr Symbol α :=
  if Scalar.lt m.coefficient 0 then -m.magnitude else m.magnitude

end GeometryMonomial

namespace GeometrySum

variable {α : Type} [Scalar α]

/-- The sum as an expression. Terms with a negative coefficient are subtracted. -/
def toExpr (s : GeometrySum α) : Expr Symbol α :=
  match s.terms with
  | [] => .literal 0
  | t :: ts =>
    ts.foldl (fun e t => if Scalar.lt t.coefficient 0 then e - t.magnitude else e + t.magnitude)
      t.toExpr

end GeometrySum
end WeakForm
