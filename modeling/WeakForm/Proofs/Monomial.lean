import WeakForm.Proofs.Exact
import Mathlib.Data.List.Lex
import Mathlib.Data.Prod.Lex
import WeakForm.Geometry.Monomial
import WeakForm.Proofs.Success

/-!
# Values of symbolic geometry

A geometry monomial has a value once its symbols have values. Multiplying monomials
multiplies their values, with one reservation: multiplying powers adds exponents, and
a symbol of value zero may have no exponent left after its positive and its negative
powers cancel. Then the product of monomials has a value that the product of the
values has not.

The compiler never runs into this, whatever the values are. Determinants occur in
denominators only, everything else occurs in numerators only, so no exponent ever
cancels. `Powers.Signed` is that invariant. It is a property of the exponents alone,
so the theorems that rest on it need no assumption about the values of the symbols.

## Theorems

* `Powers.mul_spec`: Products of signed powers.
* `GeometryMonomial.mul_spec`: Products of monomials with signed powers.
* `GeometrySum.value_ofTerms`: Merging monomials does not change their sum.
-/

namespace WeakForm

open List Success

/-- Whether a symbol occurs in denominators. The others occur in numerators. -/
def Symbol.isDivisor : Symbol → Bool
  | determinant _ => true
  | _ => false

variable {K : Type} [Field K]

namespace Powers

/-- Divisors have negative exponents and the other symbols positive ones. -/
def Signed (p : Powers) : Prop := ∀ x ∈ p, if x.1.isDivisor then x.2 < 0 else 0 < x.2

def value (v : Symbol → K) (p : Powers) : K := (p.map fun x => v x.1 ^ x.2).prod

theorem signed_nil : Signed [] := nofun

variable {p : Powers} {s : Symbol} {e : Int} {q a b c : Powers} {x : Symbol × Int}
  {P : Symbol → Prop} (h : insert s e p = .ok q)

theorem signed_cons :
    Signed (x :: p) ↔ (if x.1.isDivisor then x.2 < 0 else 0 < x.2) ∧ Signed p := by
  unfold Signed
  rw [forall_mem_cons]

@[simp] theorem value_nil (v : Symbol → K) : value v [] = 1 := rfl

@[simp] theorem value_cons (v : Symbol → K) (x : Symbol × Int) (p : Powers) :
    value v (x :: p) = v x.1 ^ x.2 * value v p := by
  unfold value
  rw [map_cons, prod_cons]

theorem value_append (v : Symbol → K) (p q : Powers) :
    value v (p ++ q) = value v p * value v q := by
  rw [value, map_append, prod_append]
  rfl

/-- The power of a symbol, unless its exponent is zero. -/
def single (s : Symbol) (e : Int) : Powers := if e = 0 then [] else [(s, e)]

theorem mem_single : x ∈ single s e ↔ x = (s, e) ∧ e ≠ 0 := by
  unfold single
  split <;> simp [*]

theorem value_single (v : Symbol → K) : value v (single s e) = v s ^ e := by
  unfold single
  split
  · next he => rw [he, zpow_zero, value_nil]
  · rw [value_cons, value_nil, mul_one]

/-- Signed exponents of one symbol do not cancel. -/
theorem add_ne_zero_of_signed {e' : Int} (h : if s.isDivisor then e < 0 else 0 < e)
    (h' : if s.isDivisor then e' < 0 else 0 < e') : e + e' ≠ 0 := by
  split at h <;> simp_all only [if_true, if_false, Bool.false_eq_true] <;> omega

include h

/-- What multiplying by a power of one symbol does: the power stands between the others, or its
    exponent is added to the one that is there. -/
theorem insert_eq_ok : ∃ front back,
    (p = front ++ back ∧ q = front ++ single s e ++ back) ∨
      ∃ e', p = front ++ (s, e') :: back ∧ q = front ++ single s (e' + e) ++ back := by
  induction p generalizing q with
  | nil =>
    cases h
    exact ⟨[], [], .inl ⟨rfl, (append_nil _).symm⟩⟩
  | cons y p ih =>
    rcases y with ⟨s', e'⟩
    rw [insert] at h
    split at h
    · next heq =>
      subst heq
      split at h
      · cases h
        refine ⟨[], p, .inr ⟨e', rfl, ?_⟩⟩
        rw [nil_append, single]
        split <;> rfl
      · cases h
    · split at h
      · cases h
        refine ⟨[], _, .inl ⟨rfl, ?_⟩⟩
        rw [nil_append, single]
        split <;> rfl
      · rcases bind_eq_ok.1 h with ⟨q', hq', h⟩
        cases h
        rcases ih hq' with ⟨front, back, ⟨rfl, rfl⟩ | ⟨e'', rfl, rfl⟩⟩
        · exact ⟨_ :: front, back, .inl ⟨rfl, rfl⟩⟩
        · exact ⟨_ :: front, back, .inr ⟨e'', rfl, rfl⟩⟩

/-- A power in a product with a power of one symbol was there, or it is the one of that symbol and
    not zero: the new exponent, or its sum with the one that was there. -/
theorem of_mem_insert (hx : x ∈ q) :
    x ∈ p ∨ x.1 = s ∧ x.2 ≠ 0 ∧ (x.2 = e ∨ ∃ e', (s, e') ∈ p ∧ x.2 = e' + e) := by
  rcases insert_eq_ok h with ⟨front, back, ⟨rfl, rfl⟩ | ⟨e', rfl, rfl⟩⟩ <;>
    grind [mem_single]

theorem signed_insert (hs : if s.isDivisor then e < 0 else 0 < e) (hp : Signed p) : Signed q := by
  intro x hx
  rcases of_mem_insert h hx with hx | ⟨hsymbol, _, hnew | ⟨e', hmem, hadd⟩⟩
  · exact hp x hx
  · rwa [hsymbol, hnew]
  · -- Exponents of the same sign have a sum of that sign.
    have he' := hp _ hmem
    rw [hsymbol, hadd]
    split at hs <;> simp_all only [if_true, if_false, Bool.false_eq_true] <;> omega

/-- What lists of powers are compared by. -/
def orderKey (p : Powers) : List (List Nat ×ₗ Int) := p.map fun x => toLex (x.1.key, x.2)

omit h in
theorem orderKey_injective (h : orderKey p = orderKey q) : p = q := by
  unfold orderKey at h
  refine map_injective_iff.2 ?_ h
  rintro ⟨s, e⟩ ⟨s', e'⟩ hkey
  have hpair : (s.key, e) = (s'.key, e') := toLex.injective hkey
  rw [Prod.mk.injEq] at hpair
  rw [Symbol.key_injective hpair.1, hpair.2]

omit h in
/-- The order of lists of powers is the lexicographic one, so it is linear. -/
theorem before_iff : before p q = true ↔ orderKey p < orderKey q := by
  induction p generalizing q with
  | nil =>
    cases q with
    | nil | cons y q => simp [before, orderKey]
  | cons x p ih =>
    cases q with
    | nil => simp [before, orderKey]
    | cons y q =>
      rcases x with ⟨s, e⟩
      rcases y with ⟨s', e'⟩
      unfold orderKey at ih ⊢
      rw [before, map_cons, map_cons, cons_lt_cons_iff, Prod.Lex.toLex_lt_toLex, ← ih]
      -- Symbols are compared first, then exponents, then the rest of the lists.
      by_cases hs : s = s'
      · subst hs
        by_cases he : e = e'
        · subst he
          simp
        · simp [he]
      · have hkey : s.key ≠ s'.key := fun h => hs (Symbol.key_injective h)
        simp [hs, hkey, Symbol.before]

/-- All symbols of a product have a property. -/
def Over (P : Symbol → Prop) (p : Powers) : Prop := ∀ x ∈ p, P x.1

theorem over_insert (hs : P s) (hp : Over P p) : Over P q := by
  intro x hx
  rcases of_mem_insert h hx with hx | ⟨hsymbol, _⟩
  · exact hp x hx
  · rwa [hsymbol]

omit h in
theorem over_mul (h : mul a b = .ok c) (ha : Over P a) (hb : Over P b) : Over P c :=
  foldlM_invariant h ha fun x hx _ _ hp hq => over_insert hq (hb x hx) hp

/-- No exponent of a product is zero. -/
def Nonzero (p : Powers) : Prop := ∀ x ∈ p, x.2 ≠ 0

theorem nonzero_insert (hp : Nonzero p) : Nonzero q := by
  intro x hx
  rcases of_mem_insert h hx with hx | ⟨_, he, _⟩
  · exact hp x hx
  · exact he

omit h in
theorem nonzero_mul (h : mul a b = .ok c) (ha : Nonzero a) : Nonzero c :=
  foldlM_invariant h ha fun _ _ _ _ hp hq => nonzero_insert hq hp

/-- Multiplying by a power of one symbol multiplies the value. The symbol may only have the value
    zero if its exponents do not cancel. -/
theorem value_insert {v : Symbol → K} (hs : ∀ e', (s, e') ∈ p → v s ≠ 0 ∨ e' + e ≠ 0) :
    value v q = value v p * v s ^ e := by
  rcases insert_eq_ok h with ⟨front, back, ⟨rfl, rfl⟩ | ⟨e', rfl, rfl⟩⟩
  · rw [value_append, value_append, value_append, value_single, mul_right_comm]
  -- Exponents add up for values other than zero, and for zero if they do not cancel.
  · have hadd : v s ^ (e' + e) = v s ^ e' * v s ^ e := by
      rcases hs e' (mem_append_right _ mem_cons_self) with hv | hne
      · exact zpow_add₀ hv e' e
      · exact zpow_add' (Or.inr (Or.inl hne))
    rw [value_append, value_append, value_append, value_cons, value_single, hadd]
    ring

omit h in
theorem mul_spec (h : mul a b = .ok c) (ha : Signed a) (hb : Signed b) (v : Symbol → K) :
    Signed c ∧ value v c = value v a * value v b := by
  unfold mul at h
  induction b generalizing a with
  | nil =>
    rw [← foldlM_nil_eq_ok.1 h, value_nil, mul_one]
    exact ⟨ha, rfl⟩
  | cons x b ih =>
    rcases x with ⟨s, e⟩
    rw [signed_cons] at hb
    rcases foldlM_cons_eq_ok.1 h with ⟨a', ha', h⟩
    have hvalue : value v a' = value v a * v s ^ e :=
      value_insert ha' fun e' hmem => Or.inr (add_ne_zero_of_signed (ha _ hmem) hb.1)
    rcases ih h (signed_insert ha' hb.1 ha) hb.2 with ⟨hc, hval⟩
    exact ⟨hc, by rw [hval, hvalue, value_cons, mul_assoc]⟩

end Powers

variable [LinearOrder K] [Root K]

namespace GeometryMonomial

variable (m : GeometryMonomial K) (c : K) (v : Symbol → K)

theorem value_eq : m.value v = m.coefficient * m.powers.value v := by
  unfold value Powers.value
  simp only [Scalar.power_eq_zpow]
  exact Scalar.foldl_mul_eq_prod (fun x : Symbol × Int => v x.1 ^ x.2) m.powers m.coefficient

@[simp] theorem value_constant : (constant c).value v = c := rfl

theorem value_scaled : (m.scaled c).value v = m.value v * c := by
  rw [value_eq, value_eq]
  exact mul_right_comm m.coefficient c (m.powers.value v)

@[simp] theorem value_ofSymbol (s : Symbol) (v : Symbol → K) :
    (ofSymbol s : GeometryMonomial K).value v = v s := by
  rw [value_eq]
  change 1 * Powers.value v [(s, 1)] = v s
  rw [Powers.value_cons, Powers.value_nil, zpow_one, one_mul, mul_one]

theorem signed_ofSymbol {s : Symbol} (h : s.isDivisor = false) :
    (ofSymbol s : GeometryMonomial K).powers.Signed := by
  change Powers.Signed [(s, 1)]
  rw [Powers.signed_cons]
  exact ⟨by simp [h], Powers.signed_nil⟩

theorem mul_spec {a b c : GeometryMonomial K} (h : a.mul b = .ok c) (ha : a.powers.Signed)
    (hb : b.powers.Signed) (v : Symbol → K) : c.powers.Signed ∧ c.value v = a.value v * b.value v ∧
      c.coefficient = a.coefficient * b.coefficient := by
  rcases bind_eq_ok.1 h with ⟨p, hp, h⟩
  have hc := (pure_eq_ok.1 h).symm
  subst hc
  rcases Powers.mul_spec hp ha hb v with ⟨hsigned, hvalue⟩
  refine ⟨hsigned, ?_, rfl⟩
  rw [value_eq, value_eq, value_eq, hvalue]
  exact mul_mul_mul_comm a.coefficient b.coefficient _ _

end GeometryMonomial

namespace GeometrySum

variable (ms : List (GeometryMonomial K)) (v : Symbol → K)

/-- The sum of the values of monomials. -/
def total (v : Symbol → K) (ms : List (GeometryMonomial K)) : K := (ms.map fun m => m.value v).sum

theorem value_eq_total (s : GeometrySum K) (v : Symbol → K) : s.value v = total v s.terms :=
  Scalar.sum_eq_sum _

section

variable {M : Type} [AddCommMonoid M] {f : GeometryMonomial K → M}
  (hadd : ∀ a b p, f ⟨a + b, p⟩ = f ⟨a, p⟩ + f ⟨b, p⟩)

include hadd

theorem sum_insert (m : GeometryMonomial K) (ms : List (GeometryMonomial K)) :
    ((insert m ms).map f).sum = (ms.map f).sum + f m := by
  induction ms with
  | nil => rw [insert, map_cons, sum_cons, map_nil, sum_nil, add_comm]
  | cons t ms ih =>
    rw [insert]
    split
    · next heq =>
      -- Equal powers: the coefficients add up in front of the common powers.
      rcases m with ⟨c, p⟩
      cases heq
      rw [map_cons, sum_cons, map_cons, sum_cons, add_right_comm]
      exact congrArg (· + _) (hadd t.coefficient c t.powers)
    · split
      · rw [map_cons, sum_cons, add_comm]
      · rw [map_cons, sum_cons, ih, map_cons, sum_cons, add_assoc]

/-- Merging monomials and dropping those without coefficient does not change sums that add up in the
    coefficients. -/
theorem sum_ofTerms (hzero : ∀ p, f ⟨0, p⟩ = 0) (ms : List (GeometryMonomial K)) :
    ((ofTerms ms).terms.map f).sum = (ms.map f).sum := by
  have hfold : ∀ ms acc : List (GeometryMonomial K),
      ((ms.foldl (fun terms m => insert m terms) acc).map f).sum =
        (acc.map f).sum + (ms.map f).sum := by
    intro ms
    induction ms with
    | nil => exact fun acc => (add_zero _).symm
    | cons m ms ih =>
      intro acc
      rw [foldl_cons, ih, sum_insert hadd, map_cons, sum_cons, add_assoc]
  have hfilter : ∀ ts : List (GeometryMonomial K),
      ((ts.filter fun t => Scalar.nonzero t.coefficient).map f).sum = (ts.map f).sum := by
    intro ts
    induction ts with
    | nil => rfl
    | cons t ts ih =>
      rcases t with ⟨c, p⟩
      by_cases hc : c = 0
      · rw [filter_cons_of_neg (by simp [hc]), ih, map_cons, sum_cons, hc, hzero, zero_add]
      · rw [filter_cons_of_pos (by simp [hc]), map_cons, sum_cons, ih, map_cons, sum_cons]
  rw [ofTerms, hfilter, hfold, map_nil, sum_nil, zero_add]

end

theorem value_ofTerms : (ofTerms ms).value v = total v ms := by
  rw [value_eq_total]
  refine sum_ofTerms (fun a b p => ?_) (fun p => ?_) ms
  · simp only [GeometryMonomial.value_eq, add_mul]
  · rw [GeometryMonomial.value_eq, zero_mul]

end GeometrySum
end WeakForm
