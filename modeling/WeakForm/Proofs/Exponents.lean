import WeakForm.Proofs.Monomial

/-!
# Exponents of products

A product of symbols is kept as a list of powers in the order of the symbols, without
a symbol that occurs twice and without an exponent that is zero. Under this invariant
the list is a table of exponents: `exponent` reads it at any symbol, and multiplying
two products adds their tables.

The exponents are words of 32 bits, so a product may not exist. It does if, for every
symbol, the sum of its two exponents fits a word. That is all that can go wrong, and
what is needed to show that a computation with geometry symbols runs to its end.

## Theorems

* `Powers.mul_canonical`: Multiplying adds the exponents.
-/

namespace WeakForm

open List Success

namespace Symbol

variable {s t : Symbol}

theorem before_iff : s.before t = true ↔ s.key < t.key := decide_eq_true_iff

theorem before_trans {u : Symbol} (hst : s.before t = true) (htu : t.before u = true) :
    s.before u = true :=
  before_iff.2 (List.lt_trans (before_iff.1 hst) (before_iff.1 htu))

theorem ne_of_before (h : s.before t = true) : s ≠ t := by
  intro heq
  subst heq
  exact List.lt_irrefl _ (before_iff.1 h)

theorem before_of_not_before (hne : s ≠ t) (h : ¬ s.before t = true) : t.before s = true := by
  rw [before_iff, List.not_lt] at h
  rcases List.le_iff_lt_or_eq.1 h with hlt | heq
  · exact before_iff.2 hlt
  · exact absurd (key_injective heq.symm) hne

end Symbol

namespace Powers

/-- Powers in the order of their symbols, without exponents that are zero. -/
structure Canonical (p : Powers) : Prop where
  increasing : p.Pairwise fun x y => x.1.before y.1 = true
  nonzero : ∀ x ∈ p, x.2 ≠ 0

/-- The exponent of a symbol, zero if it does not occur. -/
def exponent (s : Symbol) : Powers → Int
  | [] => 0
  | (s', e) :: p => if s = s' then e else exponent s p

theorem canonical_nil : Canonical [] := ⟨Pairwise.nil, nofun⟩

variable {s : Symbol} {p : Powers}

theorem canonical_cons {e : Int} :
    Canonical ((s, e) :: p) ↔ e ≠ 0 ∧ Over (fun t => s.before t = true) p ∧ Canonical p := by
  constructor
  · rintro ⟨hincreasing, hnonzero⟩
    rw [pairwise_cons] at hincreasing
    rw [forall_mem_cons] at hnonzero
    exact ⟨hnonzero.1, hincreasing.1, hincreasing.2, hnonzero.2⟩
  · rintro ⟨he, hover, hp⟩
    exact ⟨pairwise_cons.2 ⟨hover, hp.increasing⟩, forall_mem_cons.2 ⟨he, hp.nonzero⟩⟩

@[simp] theorem exponent_nil (s : Symbol) : exponent s [] = 0 := rfl

theorem exponent_cons (s s' : Symbol) (e : Int) (p : Powers) :
    exponent s ((s', e) :: p) = if s = s' then e else exponent s p := rfl

theorem exponent_eq_zero (h : Over (fun t => s.before t = true) p) : exponent s p = 0 := by
  induction p with
  | nil => rfl
  | cons x p ih =>
    rcases forall_mem_cons.1 h with ⟨hx, hp⟩
    rw [exponent_cons, if_neg (Symbol.ne_of_before hx), ih hp]

theorem exponent_cons_eq_add {e : Int} (h : Over (fun t => s.before t = true) p) (t : Symbol) :
    exponent t ((s, e) :: p) = (if t = s then e else 0) + exponent t p := by
  rw [exponent_cons]
  split
  · next ht => rw [ht, exponent_eq_zero h, add_zero]
  · rw [zero_add]

/-- Multiplying by a power of a symbol adds to its exponent, if the sum fits. -/
theorem insert_canonical {e : Int} (hp : p.Canonical) (hfits : fits (p.exponent s + e) = true) :
    ∃ q, insert s e p = .ok q ∧ q.Canonical ∧
      ∀ t, q.exponent t = p.exponent t + if t = s then e else 0 := by
  induction p with
  | nil =>
    rw [insert]
    by_cases he : e = 0
    · exact ⟨[], by rw [if_pos he], canonical_nil, fun t => by simp [he]⟩
    · refine ⟨[(s, e)], by rw [if_neg he], ?_, fun t => by simp [exponent_cons]⟩
      exact canonical_cons.2 ⟨he, forall_mem_nil _, canonical_nil⟩
  | cons x p ih =>
    rcases x with ⟨s', e'⟩
    rcases canonical_cons.1 hp with ⟨he', hover, htail⟩
    rw [insert]
    by_cases hs : s = s'
    -- The symbol is the first one, and it does not occur again.
    · subst hs
      rw [exponent_cons, if_pos rfl] at hfits
      rw [if_pos rfl, if_pos hfits]
      by_cases hzero : e' + e = 0
      · refine ⟨p, by rw [if_pos hzero], htail, fun t => ?_⟩
        rw [exponent_cons_eq_add hover]
        split <;> omega
      · refine ⟨(s, e' + e) :: p, by rw [if_neg hzero], canonical_cons.2 ⟨hzero, hover, htail⟩,
          fun t => ?_⟩
        rw [exponent_cons_eq_add hover, exponent_cons_eq_add hover]
        split <;> omega
    · rw [if_neg hs]
      by_cases hbefore : s.before s' = true
      -- The symbol comes before all others.
      · have hall : Over (fun t => s.before t = true) ((s', e') :: p) :=
          forall_mem_cons.2 ⟨hbefore, fun x hx => Symbol.before_trans hbefore (hover x hx)⟩
        rw [if_pos hbefore]
        by_cases he : e = 0
        · exact ⟨_, by rw [if_pos he], hp, fun t => by simp [he]⟩
        · refine ⟨_, by rw [if_neg he], canonical_cons.2 ⟨he, hall, hp⟩, fun t => ?_⟩
          rw [exponent_cons_eq_add hall, add_comm]
      -- The symbol comes behind the first one, which stays where it is.
      · have hbehind : s'.before s = true := Symbol.before_of_not_before hs hbefore
        rw [exponent_cons, if_neg hs] at hfits
        rcases ih htail hfits with ⟨q, hq, hcanonical, hexponent⟩
        have hover' := over_insert hq hbehind hover
        rw [if_neg hbefore, hq]
        refine ⟨(s', e') :: q, rfl, canonical_cons.2 ⟨he', hover', hcanonical⟩, fun t => ?_⟩
        rw [exponent_cons_eq_add hover', exponent_cons_eq_add hover, hexponent, add_assoc]

theorem mul_canonical {a b : Powers} (ha : a.Canonical) (hb : b.Canonical)
    (hfits : ∀ s, fits (a.exponent s + b.exponent s) = true) :
    ∃ c, mul a b = .ok c ∧ c.Canonical ∧ ∀ s, c.exponent s = a.exponent s + b.exponent s := by
  unfold mul
  induction b generalizing a with
  | nil => exact ⟨a, rfl, ha, fun s => by rw [exponent_nil, add_zero]⟩
  | cons x b ih =>
    rcases x with ⟨s, e⟩
    rcases canonical_cons.1 hb with ⟨_, hover, hb'⟩
    have hfirst := hfits s
    rw [exponent_cons, if_pos rfl] at hfirst
    rcases insert_canonical ha hfirst with ⟨a', ha', hcanonical, hexponent⟩
    -- The symbol does not occur in the rest, so what has been added is all there is to add.
    have hsum : ∀ t, exponent t a' + exponent t b =
        exponent t a + exponent t ((s, e) :: b) := by
      intro t
      rw [hexponent, exponent_cons_eq_add hover, add_assoc]
    rcases ih hcanonical hb' (fun t => by rw [hsum]; exact hfits t) with ⟨c, hc, hc', hexp⟩
    exact ⟨c, foldlM_cons_eq_ok.2 ⟨a', ha', hc⟩, hc', fun t => by rw [hexp, hsum]⟩

end Powers

namespace GeometryMonomial

variable {α : Type} [Scalar α]

theorem canonical_power (s : Symbol) (e : Int) :
    (power s e : GeometryMonomial α).powers.Canonical := by
  unfold power
  by_cases he : e = 0
  · rw [if_pos he]
    exact Powers.canonical_nil
  · rw [if_neg he]
    exact Powers.canonical_cons.2 ⟨he, nofun, Powers.canonical_nil⟩

theorem exponent_power (s t : Symbol) (e : Int) :
    (power s e : GeometryMonomial α).powers.exponent t = if t = s then e else 0 := by
  unfold power
  by_cases he : e = 0
  · simp [he]
  · simp [he, Powers.exponent_cons]

theorem over_power {P : Symbol → Prop} {s : Symbol} (h : P s) (e : Int) :
    (power s e : GeometryMonomial α).powers.Over P := by
  intro x hx
  rwa [(Powers.mem_single.1 hx).1]

/-- Multiplying by a power adds to the exponent of its symbol, if the sum fits. -/
theorem mul_power {a : GeometryMonomial α} {s : Symbol} {e : Int} (ha : a.powers.Canonical)
    (hfits : Powers.fits (a.powers.exponent s + e) = true) :
    ∃ c, a.mul (power s e) = .ok c ∧ c.powers.Canonical ∧ c.coefficient = a.coefficient * 1 ∧
      ∀ t, c.powers.exponent t = a.powers.exponent t + if t = s then e else 0 := by
  rcases Powers.insert_canonical ha hfits with ⟨p, hp, hcanonical, hexponent⟩
  have hmul : Powers.mul a.powers (power s e : GeometryMonomial α).powers =
      if e = 0 then .ok a.powers else .ok p := by
    unfold power Powers.mul
    by_cases he : e = 0
    · rw [if_pos he, if_pos he]
      rfl
    · rw [if_neg he, if_neg he]
      exact foldlM_cons_eq_ok.2 ⟨p, hp, rfl⟩
  by_cases he : e = 0
  · refine ⟨⟨a.coefficient * 1, a.powers⟩, ?_, ha, rfl, fun t => by simp [he]⟩
    rw [if_pos he] at hmul
    exact bind_eq_ok.2 ⟨a.powers, hmul, rfl⟩
  · rw [if_neg he] at hmul
    exact ⟨⟨a.coefficient * 1, p⟩, bind_eq_ok.2 ⟨p, hmul, rfl⟩, hcanonical, rfl, hexponent⟩

theorem mul_canonical {a b : GeometryMonomial α} (ha : a.powers.Canonical) (hb : b.powers.Canonical)
    (hfits : ∀ s, Powers.fits (a.powers.exponent s + b.powers.exponent s) = true) :
    ∃ c, a.mul b = .ok c ∧ c.powers.Canonical ∧ c.coefficient = a.coefficient * b.coefficient ∧
      ∀ s, c.powers.exponent s = a.powers.exponent s + b.powers.exponent s := by
  rcases Powers.mul_canonical ha hb hfits with ⟨p, hp, hcanonical, hexponent⟩
  exact ⟨⟨a.coefficient * b.coefficient, p⟩, bind_eq_ok.2 ⟨p, hp, rfl⟩, hcanonical, rfl, hexponent⟩

end GeometryMonomial

namespace Powers

variable {K : Type} [Field K]

/-- For values other than zero, multiplying multiplies the values, also if exponents cancel. -/
theorem value_mul {a b c : Powers} (h : mul a b = .ok c) {v : Symbol → K} (hv : ∀ s, v s ≠ 0) :
    value v c = value v a * value v b := by
  unfold mul at h
  induction b generalizing a with
  | nil => rw [← foldlM_nil_eq_ok.1 h, value_nil, mul_one]
  | cons x b ih =>
    rcases foldlM_cons_eq_ok.1 h with ⟨a', ha', h⟩
    rw [ih h, value_insert ha' fun _ _ => Or.inl (hv x.1), value_cons, mul_assoc]

end Powers

namespace GeometryMonomial

variable {K : Type} [Field K] [LinearOrder K] [Root K]

theorem value_power (s : Symbol) (e : Int) (v : Symbol → K) :
    (power s e : GeometryMonomial K).value v = v s ^ e := by
  rw [value_eq]
  exact (one_mul _).trans (Powers.value_single v)

theorem value_mul {a b c : GeometryMonomial K} (h : a.mul b = .ok c) {v : Symbol → K} (hv : ∀ s, v s ≠ 0) :
    c.value v = a.value v * b.value v := by
  rcases bind_eq_ok.1 h with ⟨p, hp, h⟩
  have hc := (pure_eq_ok.1 h).symm
  subst hc
  rw [value_eq, value_eq, value_eq, Powers.value_mul hp hv]
  exact mul_mul_mul_comm a.coefficient b.coefficient _ _

end GeometryMonomial
end WeakForm
