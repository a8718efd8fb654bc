import Mathlib.Algebra.BigOperators.Fin
import Mathlib.Algebra.MvPolynomial.Degrees
import Mathlib.Tactic.IntervalCases
import Mathlib.Tactic.LinearCombination
import WeakForm.Proofs.QuadratureCode
import WeakForm.Proofs.SymmetricNodes

/-!
# Collapsed rules are exact

A product of Gauss rules on the square or the cube becomes a rule for the triangle
or the tetrahedron by pulling one side of it together to a point. What the collapse
does to a monomial is to hand powers of `1 - v` to the axes that were collapsed: the
sum over the points of the simplex falls apart into one sum per axis, each of the form
`∑ w (1 - u) ^ p u ^ q`.

Such a sum is a discrete Beta integral. For nodes that integrate powers exactly it has
the value of the integral, `p! q! / (p + q + 1)!`, and the factorials of successive
axes cancel. The axis that is collapsed last carries the highest degree, which exceeds
that of the monomial by one less than the dimension; that is the excess the number of
points per axis pays for.

## Theorems

* `Gauss.ExactTo.beta_eq`: Exact nodes compute Beta integrals.
* `Rule.simplex_integrates`: The rule of a degree integrates polynomials of that degree.
-/

namespace WeakForm

open List Success Gauss

variable {K : Type} [Field K]

namespace Gauss

theorem length_rule {α : Type} [Scalar α] {source : Source α} {n : Nat} {line : List (α × α)}
    (h : rule source n = .ok line) : line.length = (source n).length := by
  rcases bind_eq_ok.1 h with ⟨_, _, h⟩
  rcases bind_eq_ok.1 h with ⟨_, _, h⟩
  rw [← pure_eq_ok.1 h, length_symmetrize]

variable {degree : Nat} {line : List (K × K)}

/-- Nodes and weights that integrate the powers up to a degree over the unit interval. -/
def ExactTo (degree : Nat) (line : List (K × K)) : Prop :=
  ∀ k ≤ degree, (line.map fun x => x.2 * x.1 ^ k).sum = 1 / (k + 1)

/-- The sum over the nodes that stands for the Beta integral of `(1 - u) ^ p * u ^ q`. -/
def beta (line : List (K × K)) (p q : Nat) : K :=
  (line.map fun x => x.2 * ((1 - x.1) ^ p * x.1 ^ q)).sum

theorem ExactTo.mono {degree' : Nat} (h : ExactTo degree line) (hle : degree' ≤ degree) :
    ExactTo degree' line :=
  fun k hk => h k (hk.trans hle)

theorem ExactTo.beta_eq [CharZero K] (h : ExactTo degree line) (p : Nat) : ∀ q, p + q ≤ degree →
      beta line p q = (p.factorial * q.factorial : K) / (p + q + 1).factorial := by
  unfold beta
  induction p with
  | zero =>
    intro q hq
    simp only [pow_zero, one_mul, Nat.factorial_zero, Nat.cast_one, Nat.zero_add]
    rw [h q (by omega), Nat.factorial_succ, Nat.cast_mul, Nat.cast_succ]
    have hq0 : (q.factorial : K) ≠ 0 := Nat.cast_ne_zero.2 (Nat.factorial_ne_zero q)
    have hq1 : (q : K) + 1 ≠ 0 := Nat.cast_add_one_ne_zero q
    field_simp
  | succ p ih =>
    intro q hq
    -- One factor `1 - u` is multiplied out, which leaves two integrals with one factor less.
    have hsplit : (line.map fun x => x.2 * ((1 - x.1) ^ (p + 1) * x.1 ^ q)) =
        line.map fun x => x.2 * ((1 - x.1) ^ p * x.1 ^ q) +
          -1 * (x.2 * ((1 - x.1) ^ p * x.1 ^ (q + 1))) :=
      map_congr_left fun x _ => by ring
    rw [hsplit, sum_map_add, sum_map_mul_left, ih q (by omega), ih (q + 1) (by omega)]
    have hsum : p + 1 + q + 1 = (p + q + 1) + 1 := by omega
    have hnext : p + (q + 1) + 1 = (p + q + 1) + 1 := by omega
    rw [hsum, hnext, Nat.factorial_succ (p + q + 1), Nat.factorial_succ p, Nat.factorial_succ q]
    have hfactorial : ((p + q + 1).factorial : K) ≠ 0 :=
      Nat.cast_ne_zero.2 (Nat.factorial_ne_zero _)
    have hstep : (p : K) + q + 1 + 1 ≠ 0 := by
      have h := Nat.cast_add_one_ne_zero (R := K) (p + q + 1)
      push_cast at h
      exact h
    push_cast
    field_simp
    ring

end Gauss

namespace Rule

section

/-- The integral of a product of powers of coordinates over the unit simplex. -/
def moment (exponents : List Nat) : K :=
  ((exponents.map Nat.factorial).prod : Nat) / (exponents.sum + exponents.length).factorial

/-- The integral of a polynomial over the unit simplex, term by term. -/
def simplexIntegral {n : Nat} (p : MvPolynomial (Fin n) K) : K :=
  ∑ m ∈ p.support, p.coeff m * moment (List.ofFn m)

noncomputable def valueAt {n : Nat} (p : MvPolynomial (Fin n) K) (point : List K) : K :=
  MvPolynomial.eval (fun i : Fin n => point[(i : Nat)]?.getD 0) p

end

variable [LinearOrder K] [Root K] {n dimension : Nat} {r : Rule K}
  {degree : Nat} {β : Type} (line : List (K × K)) (a b : Nat)

theorem integrate_ofPairs (pairs : List (K × List K)) (f : List K → K) :
    (ofPairs pairs).integrate f = (pairs.map fun x => x.1 * f x.2).sum := by
  unfold integrate ofPairs
  rw [Scalar.sum_eq_sum, zipWith_map, zipWith_self]

theorem coordinateProduct_eq_prod (exponents : List Nat) (point : List K) :
    coordinateProduct exponents point = ((point.zip exponents).map fun x => x.1 ^ x.2).prod := by
  have hpower : ∀ (x : K) (e : Nat) (product : K),
      (range e).foldl (fun product _ => product * x) product = product * x ^ e := by
    intro x e product
    rw [Scalar.foldl_mul_eq_prod (fun _ => x), map_const', prod_replicate,
      length_range]
  unfold coordinateProduct
  simp only [hpower]
  rw [Scalar.foldl_mul_eq_prod (fun x : K × Nat => x.1 ^ x.2), one_mul]

/-- A rule has points of the dimension, and it integrates products of powers of coordinates up to
    a degree. -/
structure Integrates (dimension degree : Nat) (r : Rule K) : Prop where
  points : ∀ point ∈ r.points, point.length = dimension
  moments : ∀ exponents : List Nat, exponents.length = dimension → exponents.sum ≤ degree →
    r.integrate (coordinateProduct exponents) = moment exponents

theorem integrate_congr {f g : List K → K} (h : ∀ point ∈ r.points, f point = g point) :
    r.integrate f = r.integrate g := by
  unfold integrate
  congr 1
  refine ext_getElem (by simp only [length_zipWith]) fun k _ _ => ?_
  rw [getElem_zipWith, getElem_zipWith, h _ (getElem_mem _)]

theorem integrate_sum (r : Rule K) {ι : Type} (s : Finset ι) (c : ι → K) (f : ι → List K → K) :
    r.integrate (fun x => ∑ i ∈ s, c i * f i x) = ∑ i ∈ s, c i * r.integrate (f i) := by
  unfold integrate
  simp only [Scalar.sum_eq_sum]
  generalize r.weights = ws
  generalize r.points = ps
  induction ws generalizing ps with
  | nil => simp only [zipWith_nil_left, sum_nil, mul_zero, Finset.sum_const_zero]
  | cons w ws ih =>
    cases ps with
    | nil => simp only [zipWith_nil_right, sum_nil, mul_zero, Finset.sum_const_zero]
    | cons p ps =>
      simp only [zipWith_cons_cons, sum_cons, ih ps]
      rw [Finset.mul_sum, ← Finset.sum_add_distrib]
      exact Finset.sum_congr rfl fun i _ => by ring

/-- At a point with all coordinates, a polynomial is the sum of its coefficients times products
    of powers of coordinates. -/
theorem valueAt_eq_sum (p : MvPolynomial (Fin n) K) {point : List K} (hpoint : point.length = n) :
    valueAt p point = ∑ m ∈ p.support, p.coeff m * coordinateProduct (List.ofFn m) point := by
  unfold valueAt
  rw [MvPolynomial.eval_eq']
  refine Finset.sum_congr rfl fun m _ => ?_
  congr 1
  have hpowers : (point.zip (List.ofFn m)).map (fun x => x.1 ^ x.2) =
      List.ofFn fun i : Fin n => point[(i : Nat)]?.getD 0 ^ m i := by
    refine ext_getElem (by simp [hpoint]) fun k hk hk' => ?_
    have hlt : k < point.length := by
      rw [length_ofFn] at hk'
      omega
    simp only [getElem_map, getElem_zip, List.getElem_ofFn, getElem?_eq_getElem hlt,
      Option.getD_some]
  rw [coordinateProduct_eq_prod, hpowers, prod_ofFn]

theorem Integrates.polynomial (h : r.Integrates dimension degree)
    {p : MvPolynomial (Fin dimension) K} (hp : p.totalDegree ≤ degree) :
    r.integrate (valueAt p) = simplexIntegral p := by
  have hvalues : r.integrate (valueAt p) = r.integrate fun x =>
      ∑ m ∈ p.support, p.coeff m * coordinateProduct (List.ofFn m) x := by
    refine integrate_congr fun point hpoint => ?_
    exact valueAt_eq_sum p (h.points point hpoint)
  rw [hvalues, integrate_sum]
  refine Finset.sum_congr rfl fun m hm => ?_
  have hsum : (List.ofFn m).sum ≤ degree := by
    have hdegree := MvPolynomial.le_totalDegree hm
    rw [Finsupp.sum_fintype _ _ fun _ => rfl] at hdegree
    rw [sum_ofFn]
    omega
  rw [h.moments _ length_ofFn hsum]

theorem integrate_interval : (interval line).integrate (coordinateProduct [a]) = beta line 0 a := by
  unfold interval beta
  rw [integrate_ofPairs, map_map]
  refine congrArg List.sum (map_congr_left fun x _ => ?_)
  simp [coordinateProduct_eq_prod]

/-- The collapse hands a power of `1 - v` to the second axis. -/
theorem integrate_triangle : (triangle line).integrate (coordinateProduct [a, b]) =
      beta line 0 a * beta line (a + 1) b := by
  unfold triangle beta
  rw [integrate_ofPairs, Tuple.sum_flatMap, ← sum_map_mul_right]
  refine congrArg List.sum (map_congr_left fun x _ => ?_)
  rw [map_map, ← sum_map_mul_left]
  refine congrArg List.sum (map_congr_left fun y _ => ?_)
  simp only [Function.comp_apply, coordinateProduct_eq_prod, zip_cons_cons, zip_nil_left, map_cons,
    map_nil, prod_cons, prod_nil, mul_pow]
  ring

/-- The third axis takes the powers of both collapses. -/
theorem integrate_tetrahedron (c : Nat) :
    (tetrahedron line).integrate (coordinateProduct [a, b, c]) =
      beta line 0 a * (beta line (a + 1) b * beta line (a + b + 2) c) := by
  unfold tetrahedron beta
  rw [integrate_ofPairs, Tuple.sum_flatMap, ← sum_map_mul_right]
  refine congrArg List.sum (map_congr_left fun x _ => ?_)
  rw [Tuple.sum_flatMap, ← sum_map_mul_right, ← sum_map_mul_left]
  refine congrArg List.sum (map_congr_left fun y _ => ?_)
  rw [map_map, ← sum_map_mul_left, ← sum_map_mul_left]
  refine congrArg List.sum (map_congr_left fun z _ => ?_)
  simp only [Function.comp_apply, coordinateProduct_eq_prod, zip_cons_cons, zip_nil_left, map_cons,
    map_nil, prod_cons, prod_nil, mul_pow]
  ring

section

variable [CharZero K] {degree : Nat} {line : List (K × K)}

theorem integrates_interval (h : ExactTo degree line) : (interval line).Integrates 1 degree := by
  refine ⟨(shaped_interval line).coordinates, fun exponents hlength hsum => ?_⟩
  rcases length_eq_one_iff.1 hlength with ⟨a, rfl⟩
  simp only [sum_cons, sum_nil] at hsum
  rw [integrate_interval, h.beta_eq 0 a (by omega)]
  simp [moment]

theorem integrates_triangle (h : ExactTo (degree + 1) line) :
    (triangle line).Integrates 2 degree := by
  refine ⟨(shaped_triangle line).coordinates, fun exponents hlength hsum => ?_⟩
  rcases length_eq_two.1 hlength with ⟨a, b, rfl⟩
  simp only [sum_cons, sum_nil] at hsum
  rw [integrate_triangle, h.beta_eq 0 a (by omega), h.beta_eq (a + 1) b (by omega)]
  -- The denominator of the first axis cancels against the second one.
  have hfirst : ((a + 1).factorial : K) ≠ 0 := Nat.cast_ne_zero.2 (Nat.factorial_ne_zero _)
  simp only [moment, map_cons, map_nil, prod_cons, prod_nil, sum_cons, sum_nil, length_cons,
    length_nil]
  rw [show a + 1 + b + 1 = a + (b + 0) + (0 + 1 + 1) by omega, Nat.zero_add]
  push_cast
  field_simp
  simp

theorem integrates_tetrahedron (h : ExactTo (degree + 2) line) :
    (tetrahedron line).Integrates 3 degree := by
  refine ⟨(shaped_tetrahedron line).coordinates, fun exponents hlength hsum => ?_⟩
  rcases length_eq_three.1 hlength with ⟨a, b, c, rfl⟩
  simp only [sum_cons, sum_nil] at hsum
  rw [integrate_tetrahedron, h.beta_eq 0 a (by omega), h.beta_eq (a + 1) b (by omega),
    h.beta_eq (a + b + 2) c (by omega), show a + b + 2 = a + 1 + b + 1 by omega]
  have hfirst : ((a + 1).factorial : K) ≠ 0 := Nat.cast_ne_zero.2 (Nat.factorial_ne_zero _)
  have hsecond : ((a + 1 + b + 1).factorial : K) ≠ 0 :=
    Nat.cast_ne_zero.2 (Nat.factorial_ne_zero _)
  simp only [moment, map_cons, map_nil, prod_cons, prod_nil, sum_cons, sum_nil, length_cons,
    length_nil]
  rw [show a + 1 + b + 1 + c + 1 = a + (b + (c + 0)) + (0 + 1 + 1 + 1) by omega, Nat.zero_add]
  push_cast
  field_simp
  simp

end

theorem degree_le_of_pointsPerAxis (h : pointsPerAxis degree dimension = .ok n) :
    degree + dimension ≤ 2 * n := by
  rcases bind_eq_ok.1 h with ⟨a, ha, h⟩
  rcases bind_eq_ok.1 h with ⟨b, hb, h⟩
  have hsum : b = degree + dimension + 1 := by rw [Size.add_eq_ok hb, Size.add_eq_ok ha]
  have hn : max (b / 2) 1 = n := pure_eq_ok.1 h
  omega

/-- In each dimension there is a collapsed rule, with the points of the Gauss rule along each
    axis, and it integrates what the Gauss rule leaves after the collapse. -/
theorem collapsed_integrates [CharZero K] {source : Source K} {line : List (K × K)}
    (degree : Nat) (hpos : 0 < dimension) (hle : dimension ≤ 3)
    (hline : rule source n = .ok line) (h : ExactTo (degree + dimension - 1) line) :
    ∃ r, collapsed source dimension n = .ok r ∧ r.size = line.length ^ dimension ∧
      r.points.length = r.size ∧ r.Integrates dimension degree := by
  suffices ∃ r, collapsed source dimension n = .ok r ∧ r.Integrates dimension degree by
    rcases this with ⟨r, hr, hintegrates⟩
    rcases (collapsed_eq_ok hr).resolve_left fun h => hpos.ne' h.1 with ⟨line', hline', hshaped⟩
    rw [hline, Except.ok.injEq] at hline'
    rw [← hline'] at hshaped
    exact ⟨r, hr, hshaped.weights, hshaped.points.trans hshaped.weights.symm, hintegrates⟩
  have hdimension : dimension = 1 ∨ dimension = 2 ∨ dimension = 3 := by omega
  have hlift : (liftM (rule source n) : Outcome _) = .ok line := lift_fault_eq_ok.2 hline
  rcases hdimension with rfl | rfl | rfl
  · exact ⟨interval line, bind_eq_ok.2 ⟨line, hlift, rfl⟩, integrates_interval h⟩
  · exact ⟨triangle line, bind_eq_ok.2 ⟨line, hlift, rfl⟩, integrates_triangle h⟩
  · exact ⟨tetrahedron line, bind_eq_ok.2 ⟨line, hlift, rfl⟩, integrates_tetrahedron h⟩

/-- If the Gauss rule with the number of points per axis integrates powers exactly, then the rule
    of a dimension and degree exists, it has that many points along each axis, and it integrates
    every polynomial of the degree over the unit simplex. -/
theorem simplex_integrates [CharZero K] {source : Gauss.Source K} {dimension degree n : Nat}
    {line : List (K × K)} (hpos : 0 < dimension) (hle : dimension ≤ 3)
    (hn : pointsPerAxis degree dimension = .ok n) (hline : Gauss.rule source n = .ok line)
    (hsource : (source n).length = n) (hexact : Gauss.ExactTo (2 * n - 1) line) :
    ∃ r, simplex source dimension degree = .ok r ∧
      r.size = n ^ dimension ∧ r.points.length = n ^ dimension ∧
      (∀ exponents : List Nat, exponents.length = dimension → exponents.sum ≤ degree →
        r.integrate (coordinateProduct exponents) =
          ((exponents.map Nat.factorial).prod : Nat) / (exponents.sum + dimension).factorial) ∧
      ∀ p : MvPolynomial (Fin dimension) K, p.totalDegree ≤ degree →
        r.integrate (valueAt p) = simplexIntegral p := by
  have hdegree := degree_le_of_pointsPerAxis hn
  have hlength : line.length = n := by rw [Gauss.length_rule hline, hsource]
  rcases collapsed_integrates degree hpos hle hline (hexact.mono (by omega)) with
    ⟨r, hr, hsize, hpoints, hintegrates⟩
  rw [hlength] at hsize
  refine ⟨r, bind_eq_ok.2 ⟨n, lift_fault_eq_ok.2 hn, hr⟩, hsize, hpoints.trans hsize, ?_,
    fun p hp => hintegrates.polynomial hp⟩
  intro exponents hexponents hsum
  rw [hintegrates.moments exponents hexponents hsum, moment, hexponents]

end Rule

theorem exactTo_twoPoints : ExactTo 3 twoPoints := by
  have hroot : Real.sqrt 3 * Real.sqrt 3 = 3 := Real.mul_self_sqrt (by norm_num)
  intro k hk
  simp only [twoPoints, map_cons, map_nil, sum_cons, sum_nil]
  interval_cases k
  · norm_num
  · push_cast
    ring
  · push_cast
    linear_combination hroot / 36
  · push_cast
    linear_combination hroot / 24

/-- Eight points integrate linear functions over the tetrahedron. -/
theorem simplex_integrates_twoPoints :
    ∃ r, Rule.simplex (fun _ => twoPoints) 3 1 = .ok r ∧ r.size = 8 ∧ r.points.length = 8 ∧
      (∀ exponents : List Nat, exponents.length = 3 → exponents.sum ≤ 1 →
        r.integrate (Rule.coordinateProduct exponents) =
          ((exponents.map Nat.factorial).prod : Nat) / (exponents.sum + 3).factorial) ∧
      ∀ p : MvPolynomial (Fin 3) ℝ, p.totalDegree ≤ 1 →
        r.integrate (Rule.valueAt p) = Rule.simplexIntegral p :=
  Rule.simplex_integrates (by decide) (by decide) (by decide) rule_twoPoints rfl exactTo_twoPoints

end WeakForm
