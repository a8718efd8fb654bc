import Mathlib.Data.List.Sort
import WeakForm.Proofs.Exponents

/-!
# Laws of geometry monomials

Monomials are multiplied by going through the powers of one operand and changing the
list of the other as one goes: a symbol is put in, its exponent grows, or it disappears
because its exponents have cancelled. The laws of a commutative monoid cannot be seen in
this. They hold because a list of powers is a table of exponents in disguise. Increasing
symbols and exponents other than zero leave one list for each table (`ext_exponent`), and
multiplying adds tables.

Products can fail, and the laws include that. A product exists if and only if no sum of
exponents leaves its word, and whether this happens does not depend on the order of the
operands either. For three operands it depends on what is multiplied first: exponents
that cancel in the end may leave the word in between. Associativity therefore asks for
the two products that are taken first.

## Theorems

* `Powers.ext_exponent`: The exponents determine canonical powers.
* `Powers.mul_cases`: A product exists exactly if the sums of exponents fit.
* `GeometryMonomial.Reachable.mul_laws`: Monomials form a commutative monoid, and taking
  values is a homomorphism.
-/

namespace WeakForm

open Success

namespace Powers

variable {p : Powers} {s : Symbol} {e : Int}

theorem mem_iff_exponent (hp : p.Canonical) : (s, e) ∈ p ↔ e ≠ 0 ∧ p.exponent s = e := by
  induction p with
  | nil => exact ⟨fun h => absurd h List.not_mem_nil, fun h => absurd h.2.symm h.1⟩
  | cons x p ih =>
    rcases x with ⟨s', e'⟩
    rcases canonical_cons.1 hp with ⟨he', hover, htail⟩
    rw [List.mem_cons, exponent_cons]
    by_cases hs : s = s'
    · subst hs
      -- The symbol is the first one, so it does not occur again.
      have htail' : (s, e) ∉ p := fun hmem => Symbol.ne_of_before (hover _ hmem) rfl
      rw [if_pos rfl, Prod.mk.injEq]
      constructor
      · rintro (⟨_, rfl⟩ | hmem)
        · exact ⟨he', rfl⟩
        · exact absurd hmem htail'
      · exact fun h => Or.inl ⟨rfl, h.2.symm⟩
    · rw [if_neg hs, ← ih htail, Prod.mk.injEq]
      exact ⟨fun h => h.resolve_left fun heq => hs heq.1, Or.inr⟩

theorem ext_exponent {q : Powers} (hp : p.Canonical) (hq : q.Canonical)
    (h : ∀ s, p.exponent s = q.exponent s) : p = q := by
  have : Std.Irrefl fun x y : Symbol × Int => x.1.before y.1 = true :=
    ⟨fun _ hx => Symbol.ne_of_before hx rfl⟩
  have : Std.Antisymm fun x y : Symbol × Int => x.1.before y.1 = true :=
    ⟨fun _ _ hxy hyx => absurd rfl (Symbol.ne_of_before (Symbol.before_trans hxy hyx))⟩
  refine List.Pairwise.eq_of_mem_iff hp.increasing hq.increasing fun x => ?_
  rw [mem_iff_exponent hp, mem_iff_exponent hq, h]

/-- Canonical powers whose exponents fit their word. -/
structure Regular (p : Powers) : Prop where
  canonical : p.Canonical
  bounded : ∀ s, fits (p.exponent s) = true

theorem regular_nil : Regular [] := by
  refine ⟨canonical_nil, fun s => ?_⟩
  rw [exponent_nil]
  decide

theorem Regular.of_cons {x : Symbol × Int} (h : Regular (x :: p)) :
    fits x.2 = true ∧ Regular p := by
  rcases x with ⟨s, e⟩
  rcases canonical_cons.1 h.canonical with ⟨_, hover, hp⟩
  have hfirst := h.bounded s
  rw [exponent_cons, if_pos rfl] at hfirst
  refine ⟨hfirst, hp, fun t => ?_⟩
  by_cases hts : t = s
  · rw [hts, exponent_eq_zero hover]
    decide
  · have ht := h.bounded t
    rwa [exponent_cons, if_neg hts] at ht

/-- Multiplying by a power of a symbol adds to its exponent, if the sum fits. -/
theorem Regular.insert (hp : p.Regular) (hfits : fits (p.exponent s + e) = true) :
    ∃ q, Powers.insert s e p = .ok q ∧ q.Regular ∧
      ∀ t, q.exponent t = p.exponent t + if t = s then e else 0 := by
  rcases insert_canonical hp.canonical hfits with ⟨q, hq, hcanonical, hexponent⟩
  refine ⟨q, hq, ⟨hcanonical, fun t => ?_⟩, hexponent⟩
  rw [hexponent]
  by_cases ht : t = s
  · rwa [if_pos ht, ht]
  · rw [if_neg ht, add_zero]
    exact hp.bounded t

/-- An exponent that does not fit its word is a fault. It can only be that of a symbol which
    occurs already. -/
theorem insert_overflow (hp : p.Canonical) (he : fits e = true)
    (h : ¬ fits (p.exponent s + e) = true) : insert s e p = .error .overflow := by
  induction p with
  | nil =>
    rw [exponent_nil, zero_add] at h
    exact absurd he h
  | cons x p ih =>
    rcases x with ⟨s', e'⟩
    rcases canonical_cons.1 hp with ⟨_, hover, htail⟩
    rw [insert]
    by_cases hs : s = s'
    · rw [exponent_cons, if_pos hs] at h
      rw [if_pos hs, if_neg h]
    · rw [exponent_cons, if_neg hs] at h
      rw [if_neg hs]
      by_cases hbefore : s.before s' = true
      · -- In front of all others the symbol is new, and its exponent is the one that fits.
        have hzero : exponent s p = 0 :=
          exponent_eq_zero fun x hx => Symbol.before_trans hbefore (hover x hx)
        rw [hzero, zero_add] at h
        exact absurd he h
      · rw [if_neg hbefore, ih htail h]
        rfl

theorem mul_cons (a b : Powers) (s : Symbol) (e : Int) :
    mul a ((s, e) :: b) = insert s e a >>= fun a' => mul a' b := List.foldlM_cons

theorem mul_cases {a b : Powers} (ha : a.Regular) (hb : b.Regular) :
    (∃ c, mul a b = .ok c ∧ c.Regular ∧ ∀ s, c.exponent s = a.exponent s + b.exponent s) ∨
      (mul a b = .error .overflow ∧ ∃ s, ¬ fits (a.exponent s + b.exponent s) = true) := by
  induction b generalizing a with
  | nil => exact Or.inl ⟨a, rfl, ha, fun s => by rw [exponent_nil, add_zero]⟩
  | cons x b ih =>
    rcases x with ⟨s, e⟩
    rcases hb.of_cons with ⟨he, hb'⟩
    rcases canonical_cons.1 hb.canonical with ⟨_, hover, _⟩
    rw [mul_cons]
    by_cases hfits : fits (a.exponent s + e) = true
    · rcases ha.insert hfits with ⟨a', ha', hregular, hexponent⟩
      -- The symbol does not occur in the rest, so what has been added is all there is to add.
      have hsum : ∀ t, exponent t a' + exponent t b =
          exponent t a + exponent t ((s, e) :: b) := by
        intro t
        rw [hexponent, exponent_cons_eq_add hover, add_assoc]
      rw [ha']
      rcases ih hregular hb' with ⟨c, hc, hc', hexp⟩ | ⟨herror, t, ht⟩
      · exact Or.inl ⟨c, hc, hc', fun t => by rw [hexp, hsum]⟩
      · exact Or.inr ⟨herror, t, by rwa [hsum] at ht⟩
    · rw [insert_overflow ha.canonical he hfits]
      exact Or.inr ⟨rfl, s, by rwa [exponent_cons, if_pos rfl]⟩

/-- A product depends on the sums of exponents only, also if it does not exist. -/
theorem mul_congr {a b a' b' : Powers} (ha : a.Regular) (hb : b.Regular) (ha' : a'.Regular)
    (hb' : b'.Regular) (h : ∀ s, a.exponent s + b.exponent s = a'.exponent s + b'.exponent s) :
    mul a b = mul a' b' := by
  rcases mul_cases ha hb with ⟨c, hc, hregular, hexp⟩ | ⟨herror, s, hs⟩ <;>
    rcases mul_cases ha' hb' with ⟨c', hc', hregular', hexp'⟩ | ⟨herror', s', hs'⟩
  · have heq : c = c' := ext_exponent hregular.canonical hregular'.canonical fun s => by
      rw [hexp, hexp', h]
    rw [hc, hc', heq]
  · rw [← h, ← hexp] at hs'
    exact absurd (hregular.bounded s') hs'
  · rw [h, ← hexp'] at hs
    exact absurd (hregular'.bounded s) hs
  · rw [herror, herror']

end Powers

namespace GeometryMonomial

section

variable {α : Type} [Scalar α]

/-- The monomials that can be made from numbers and symbols by the operations on monomials.
    Exponents are words, and products are those that exist. -/
inductive Reachable : GeometryMonomial α → Prop
  | constant (c : α) : Reachable (constant c)
  | ofSymbol (s : Symbol) : Reachable (ofSymbol s)
  | power (s : Symbol) {e : Int} (h : Powers.fits e = true) : Reachable (power s e)
  | scaled {m : GeometryMonomial α} (hm : Reachable m) (c : α) : Reachable (m.scaled c)
  | normalized {m : GeometryMonomial α} (hm : Reachable m) : Reachable m.normalized
  | mul {a b c : GeometryMonomial α} (ha : Reachable a) (hb : Reachable b)
    (h : a.mul b = .ok c) : Reachable c

theorem regular_power (s : Symbol) {e : Int} (h : Powers.fits e = true) :
    (power s e : GeometryMonomial α).powers.Regular := by
  refine ⟨canonical_power s e, fun t => ?_⟩
  rw [exponent_power]
  by_cases ht : t = s
  · rwa [if_pos ht]
  · rw [if_neg ht]
    decide

theorem mul_eq_map (a b : GeometryMonomial α) :
    a.mul b = (Powers.mul a.powers b.powers).map fun p => ⟨a.coefficient * b.coefficient, p⟩ := by
  unfold mul
  cases Powers.mul a.powers b.powers <;> rfl

theorem mul_cases {a b : GeometryMonomial α} (ha : a.powers.Regular) (hb : b.powers.Regular) :
    (∃ c, a.mul b = .ok c ∧ c.powers.Regular ∧ c.coefficient = a.coefficient * b.coefficient ∧
        ∀ s, c.powers.exponent s = a.powers.exponent s + b.powers.exponent s) ∨
      (a.mul b = .error .overflow ∧
        ∃ s, ¬ Powers.fits (a.powers.exponent s + b.powers.exponent s) = true) := by
  rw [mul_eq_map]
  rcases Powers.mul_cases ha hb with ⟨p, hp, hregular, hexp⟩ | ⟨herror, hs⟩
  · rw [hp]
    exact Or.inl ⟨⟨a.coefficient * b.coefficient, p⟩, rfl, hregular, rfl, hexp⟩
  · rw [herror]
    exact Or.inr ⟨rfl, hs⟩

theorem Reachable.regular {m : GeometryMonomial α} (h : m.Reachable) : m.powers.Regular := by
  induction h with
  | constant c => exact Powers.regular_nil
  | ofSymbol s => exact regular_power s (by decide)
  | power s he => exact regular_power s he
  | scaled _ c ih => exact ih
  | normalized _ ih => exact ih
  | mul _ _ hmul iha ihb =>
    rcases mul_cases iha ihb with ⟨c, hc, hregular, _⟩ | ⟨herror, _⟩
    · rw [hmul, Except.ok.injEq] at hc
      rwa [hc]
    · rw [hmul] at herror
      cases herror

end

variable {K : Type} [Field K] [LinearOrder K] [Root K]

theorem mul_congr {a b a' b' : GeometryMonomial K} (ha : a.powers.Regular)
    (hb : b.powers.Regular) (ha' : a'.powers.Regular) (hb' : b'.powers.Regular)
    (hcoefficient : a.coefficient * b.coefficient = a'.coefficient * b'.coefficient)
    (h : ∀ s, a.powers.exponent s + b.powers.exponent s =
      a'.powers.exponent s + b'.powers.exponent s) : a.mul b = a'.mul b' := by
  rw [mul_eq_map, mul_eq_map, Powers.mul_congr ha hb ha' hb' h]
  exact congrArg (fun c => (Powers.mul a'.powers b'.powers).map (GeometryMonomial.mk c))
    hcoefficient

theorem mul_one_right (a : GeometryMonomial K) : a.mul (constant 1) = .ok a := by
  rw [mul_eq_map]
  exact congrArg (fun c => Except.ok (GeometryMonomial.mk c a.powers)) (mul_one a.coefficient)

namespace Reachable

variable {a b c ab bc : GeometryMonomial K}

theorem mul_swap (ha : a.Reachable) (hb : b.Reachable) : a.mul b = b.mul a :=
  mul_congr ha.regular hb.regular hb.regular ha.regular (mul_comm _ _) fun _ => add_comm _ _

theorem parts_of_mul (ha : a.Reachable) (hb : b.Reachable) (h : a.mul b = .ok ab) :
    ab.coefficient = a.coefficient * b.coefficient ∧
      ∀ s, ab.powers.exponent s = a.powers.exponent s + b.powers.exponent s := by
  rcases mul_cases ha.regular hb.regular with ⟨p, hp, _, hparts⟩ | ⟨herror, _⟩
  · rw [h, Except.ok.injEq] at hp
    rwa [hp]
  · rw [h] at herror
    cases herror

theorem mul_brackets (ha : a.Reachable) (hb : b.Reachable) (hc : c.Reachable)
    (hab : a.mul b = .ok ab) (hbc : b.mul c = .ok bc) : ab.mul c = a.mul bc := by
  rcases parts_of_mul ha hb hab with ⟨hcoefficient, hexponent⟩
  rcases parts_of_mul hb hc hbc with ⟨hcoefficient', hexponent'⟩
  refine mul_congr (ha.mul hb hab).regular hc.regular ha.regular (hb.mul hc hbc).regular ?_
    fun s => ?_
  · rw [hcoefficient, hcoefficient']
    exact mul_assoc _ _ _
  · rw [hexponent, hexponent', add_assoc]

theorem exists_mul_iff (ha : a.Reachable) (hb : b.Reachable) : (∃ ab, a.mul b = .ok ab) ↔
      ∀ s, Powers.fits (a.powers.exponent s + b.powers.exponent s) = true := by
  constructor
  · rintro ⟨ab, hab⟩ s
    rw [← (parts_of_mul ha hb hab).2]
    exact (ha.mul hb hab).regular.bounded s
  · intro hfits
    rcases mul_cases ha.regular hb.regular with ⟨p, hp, _⟩ | ⟨_, s, hs⟩
    · exact ⟨p, hp⟩
    · exact absurd (hfits s) hs

/-- Reachable monomials have no exponent that is zero. They form a commutative monoid as far as
    exponents fit their words: products do not depend on the order of their operands, nor on
    brackets, the constant one is neutral, and exponents add up. For values other than zero,
    the value of a product is the product of the values. -/
theorem mul_laws (ha : a.Reachable) (hb : b.Reachable) (hc : c.Reachable) :
    (∀ x ∈ a.powers, x.2 ≠ 0) ∧
    a.mul b = b.mul a ∧
    (∀ ab bc, a.mul b = .ok ab → b.mul c = .ok bc → ab.mul c = a.mul bc) ∧
    (a.mul (GeometryMonomial.constant 1) = .ok a ∧
      (GeometryMonomial.constant 1).mul a = .ok a) ∧
    ((∃ ab, a.mul b = .ok ab) ↔
      ∀ s, Powers.fits (a.powers.exponent s + b.powers.exponent s) = true) ∧
    ∀ ab, a.mul b = .ok ab →
      ab.coefficient = a.coefficient * b.coefficient ∧
      (∀ s, ab.powers.exponent s = a.powers.exponent s + b.powers.exponent s) ∧
      ∀ v : Symbol → K, (∀ s, v s ≠ 0) → ab.value v = a.value v * b.value v := by
  have hneutral : (GeometryMonomial.constant 1).mul a = .ok a := by
    rw [← mul_swap ha (.constant 1), mul_one_right]
  refine ⟨ha.regular.canonical.nonzero, mul_swap ha hb, fun ab bc => mul_brackets ha hb hc,
    ⟨mul_one_right a, hneutral⟩, exists_mul_iff ha hb, fun ab hab => ?_⟩
  rcases parts_of_mul ha hb hab with ⟨hcoefficient, hexponent⟩
  exact ⟨hcoefficient, hexponent, fun v hv => value_mul hab hv⟩

end Reachable

def twiceDeterminant : GeometryMonomial ℚ := (ofSymbol (.determinant none)).scaled 2

def overDeterminant : GeometryMonomial ℚ := power (.determinant none) (-1)

/-- The determinant cancels, whatever is multiplied first. -/
theorem mul_laws_determinant :
    twiceDeterminant.Reachable ∧ overDeterminant.Reachable ∧
      twiceDeterminant.mul overDeterminant = .ok (constant 2) ∧
      overDeterminant.mul twiceDeterminant = .ok (constant 2) ∧
      (constant 2).mul overDeterminant = twiceDeterminant.mul (power (.determinant none) (-2)) ∧
      twiceDeterminant.value (fun _ => 3) * overDeterminant.value (fun _ => 3) = 2 := by
  have htwice : twiceDeterminant.Reachable := (Reachable.ofSymbol _).scaled 2
  have hover : overDeterminant.Reachable := .power _ (by decide)
  have hproduct : twiceDeterminant.mul overDeterminant = .ok (constant 2) := by cbv
  have hsquare : overDeterminant.mul overDeterminant = .ok (power (.determinant none) (-2)) := by
    cbv
  rcases htwice.mul_laws hover hover with ⟨_, hswap, hbrackets, _, _, hparts⟩
  refine ⟨htwice, hover, hproduct, hswap ▸ hproduct, hbrackets _ _ hproduct hsquare, ?_⟩
  rw [← (hparts _ hproduct).2.2 (fun _ => 3) fun _ => by decide]
  rfl

end GeometryMonomial
end WeakForm
