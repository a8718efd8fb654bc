import WeakForm.Proofs.Operations
import WeakForm.Proofs.SumText

/-!
# Operators in printed geometry

Geometry factors count the operations it takes to compute them by a formula over their
powers, without printing anything. Here the operators in the printed text are counted
instead. An operator is counted if it stands between two operands: a minus behind an
opening bracket, behind another operator or in front of everything is a sign, and the
sign in the exponent of a number belongs to its word.

The two counts differ in one case. A monomial of magnitude one with nothing but
negative exponents has no factor to be divided, and is printed with a one in its place.
The formula takes that one for the coefficient and leaves it out, so the division
behind it is not counted.

## Theorems

* `Expr.binaryOperators_tokens`: An expression is printed with one operator for each of
  its operations.
* `Cpp.operators_of_geometry`: Monomials and sums are printed with the operators that
  they count, and one more for each reciprocal.
-/

namespace WeakForm

open List Success Cpp

/-- The operators between two operands. `operand` tells whether an operand ends in front. -/
def binaryOperators (operand : Bool) : List Token → Nat
  | [] => 0
  | .word _ :: ts | .closing :: ts => binaryOperators true ts
  | .opening :: ts => binaryOperators false ts
  | .plus :: ts | .minus :: ts | .times :: ts | .slash :: ts =>
    operand.toNat + binaryOperators false ts

def Token.scales : Token → Bool
  | .times | .slash => true
  | _ => false

namespace Expr

variable {ν α : Type} (nameText : ν → String) (number : α → String)

theorem binaryOperators_tokens (e : Expr ν α) (rest : List Token) :
    binaryOperators false (e.tokens nameText number ++ rest) =
      e.operations + binaryOperators true rest := by
  induction e generalizing rest with
  | literal x | name n => exact (Nat.zero_add _).symm
  | neg a ih => exact (Nat.zero_add _).trans (ih rest)
  | sqrt a ih | abs a ih | group a ih =>
    refine (congrArg (binaryOperators false) (append_assoc _ [.closing] rest)).trans ?_
    exact ih (.closing :: rest)
  | add a b iha ihb | sub a b iha ihb | mul a b iha ihb | div a b iha ihb =>
    rw [tokens, append_assoc, iha, cons_append, binaryOperators, ihb, operations, Bool.toNat_true]
    omega

/-- The multiplications and divisions in the text of a product are its operations. -/
theorem tallies_scales : Tallies fun e : Expr ν α =>
    (e.tokens nameText number).countP Token.scales where
  literal _ := rfl
  name _ := rfl
  neg _ := rfl
  group a := by
    rw [tokens, countP_cons_of_neg Bool.false_ne_true, countP_append]
    rfl
  mul a b := by
    rw [tokens, countP_append, countP_cons_of_pos rfl, Nat.add_assoc]
  div a b := by
    rw [tokens, countP_append, countP_cons_of_pos rfl, Nat.add_assoc]

end Expr

/-- What is printed of a sum with finite coefficients are the tokens of its expression. -/
theorem GeometrySum.lex_toExpr {s : GeometrySum Float}
    (h : ∀ t ∈ s.terms, t.coefficient.isFinite = true) :
    lex [] (s.toExpr.text operators symbol number).toList = s.toExpr.tokens symbol number := by
  have hlex := lex_text signs_operators (fun n _ => Text.isWord_of_oneWord (oneWord_symbol n))
    (fun x hx => (GeometrySum.literal_number h x hx).1) stops_nil
  rwa [append_nil, lex, wordToken, if_pos isEmpty_nil, append_nil] at hlex

/-- Monomials are printed with as many multiplications and divisions as they count, and sums with
    as many operators between operands. Only the division of a one that is printed because nothing
    else stands above the line is not counted. -/
theorem Cpp.operators_of_geometry (m : GeometryMonomial Float) (s : GeometrySum Float) :
    (m.coefficient.isFinite = true →
      ∃ text, (style number).monomial m = .ok text ∧
        (lex [] text.toList).countP Token.scales = m.operations + m.isReciprocal.toNat) ∧
    ((∀ t ∈ s.terms, t.coefficient.isFinite = true) →
      ∃ text, (style number).sum s = .ok text ∧
        binaryOperators false (lex [] text.toList) =
          s.operations + (s.terms.map fun t => t.isReciprocal.toNat).sum) := by
  refine ⟨fun hm => ⟨_, sum_eq_ok number ⟨[m]⟩, ?_⟩, fun hs => ⟨_, sum_eq_ok number s, ?_⟩⟩
  -- A monomial is printed like the sum of it alone.
  · rw [GeometrySum.lex_toExpr (forall_mem_singleton.2 hm)]
    exact GeometryMonomial.tally_toExpr (Expr.tallies_scales symbol number) m
  · have hcount := Expr.binaryOperators_tokens symbol number s.toExpr []
    rw [append_nil] at hcount
    rw [GeometrySum.lex_toExpr hs, hcount, GeometrySum.operations_toExpr]
    rfl

/-- `2.0*det - 1.0/(detJ*detJ)` counts three operations and is printed with four. -/
theorem Cpp.operators_of_geometry_difference :
    ∃ text, (style number).sum ⟨[⟨2, [(.scale, 1)]⟩, ⟨-1, [(.determinant none, -2)]⟩]⟩ = .ok text ∧
      binaryOperators false (lex [] text.toList) = 3 + 1 :=
  (operators_of_geometry ⟨1, []⟩ ⟨[⟨2, [(.scale, 1)]⟩, ⟨-1, [(.determinant none, -2)]⟩]⟩).2
    (by decide)

/-- The reciprocal of a determinant counts no operation and is printed with one. -/
theorem Cpp.uncounted_division :
    (GeometryMonomial.power (.determinant none) (-1) : GeometryMonomial Float).operations = 0 ∧
      (style number).monomial (.power (.determinant none) (-1)) = .ok "1.0/detJ" := by
  decide +kernel

end WeakForm
