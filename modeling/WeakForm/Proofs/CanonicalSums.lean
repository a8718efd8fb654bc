import Mathlib.Data.List.Sort
import WeakForm.Proofs.Monomial
import WeakForm.Style

/-!
# Canonical sums of monomials

A sum of geometry monomials is kept in canonical form: one term for each product of
powers, in increasing order, without terms that have cancelled. Constants are filed
under the text of their sum, so two sums that differ only in the order of their
monomials have to become the same list of terms.

What a list of monomials amounts to is a coefficient for each product of powers
(`GeometrySum.coefficientOf`). Merging keeps these coefficients, and the terms of a
canonical sum are determined by them: a monomial is a term if and only if its
coefficient is the one of its powers, and not zero. All statements about reordering and
about merging parts first follow, since they do not change any coefficient.

The arithmetic is exact here. With rounding, the order of additions would show.

## Theorems

* `GeometrySum.increasing_insert`: Adding a monomial keeps the order.
* `GeometrySum.ofTerms_canonical`: Canonical sums.
-/

namespace WeakForm

open List
namespace GeometrySum

section

variable {K : Type} {a b : GeometryMonomial K}

/-- The order of monomials by their powers. -/
def Before (a b : GeometryMonomial K) : Prop := a.powers.before b.powers = true

/-- Terms in increasing order of their powers. -/
def Increasing (ts : List (GeometryMonomial K)) : Prop := ts.Pairwise Before

theorem before_trans {c : GeometryMonomial K} (hab : Before a b) (hbc : Before b c) : Before a c :=
  Powers.before_iff.2 (lt_trans (Powers.before_iff.1 hab) (Powers.before_iff.1 hbc))

theorem before_of_not (hne : a.powers ≠ b.powers) (h : ¬ Before a b) : Before b a := by
  refine Powers.before_iff.2 (lt_of_le_of_ne (not_lt.1 fun hlt => h (Powers.before_iff.2 hlt)) ?_)
  exact fun hkey => hne (Powers.orderKey_injective hkey).symm

theorem ne_of_before (h : Before a b) : a.powers ≠ b.powers :=
  fun heq => lt_irrefl _ (heq ▸ Powers.before_iff.1 h)

instance : Std.Irrefl (Before (K := K)) := ⟨fun _ h => ne_of_before h rfl⟩

instance : Std.Antisymm (Before (K := K)) :=
  ⟨fun _ _ hab hba => absurd rfl (ne_of_before (before_trans hab hba))⟩

end

variable {K : Type} [Field K]

/-- The coefficient of a product of powers in a list of monomials. -/
def coefficientOf (p : Powers) (ms : List (GeometryMonomial K)) : K :=
  ((ms.filter fun m => m.powers = p).map fun m => m.coefficient).sum

section

variable (p : Powers) (m : GeometryMonomial K) (ms ms' : List (GeometryMonomial K))

@[simp] theorem coefficientOf_nil : coefficientOf p ([] : List (GeometryMonomial K)) = 0 := rfl

theorem coefficientOf_eq_sum :
    coefficientOf p ms = (ms.map fun m => if m.powers = p then m.coefficient else 0).sum := by
  rw [coefficientOf, sum_map_ite, map_const', sum_replicate, nsmul_zero, add_zero]

theorem coefficientOf_cons :
    coefficientOf p (m :: ms) = (if m.powers = p then m.coefficient else 0) + coefficientOf p ms := by
  rw [coefficientOf_eq_sum, coefficientOf_eq_sum, map_cons, sum_cons]

theorem coefficientOf_append :
    coefficientOf p (ms ++ ms') = coefficientOf p ms + coefficientOf p ms' := by
  unfold coefficientOf
  rw [filter_append, map_append, sum_append]

variable {ms ms'} in
theorem coefficientOf_perm (h : ms.Perm ms') : coefficientOf p ms = coefficientOf p ms' :=
  ((h.filter _).map _).sum_eq

variable {p ms} in
theorem coefficientOf_eq_zero (h : ∀ t ∈ ms, t.powers ≠ p) : coefficientOf p ms = 0 := by
  have hnone : ms.filter (fun m => m.powers = p) = [] :=
    filter_eq_nil_iff.2 fun t ht => by simpa using h t ht
  rw [coefficientOf, hnone]
  rfl

end

variable [LinearOrder K] [Root K] {t : GeometryMonomial K} {ts ms ms' : List (GeometryMonomial K)}

theorem forall_mem_insert {m : GeometryMonomial K} {Q : Powers → Prop} (hm : Q m.powers)
    (hts : ∀ t ∈ ts, Q t.powers) : ∀ t ∈ insert m ts, Q t.powers := by
  induction ts with
  | nil => exact forall_mem_singleton.2 hm
  | cons u ts ih =>
    rw [forall_mem_cons] at hts
    rw [insert]
    split
    · exact forall_mem_cons.2 hts
    · split
      · exact forall_mem_cons.2 ⟨hm, forall_mem_cons.2 hts⟩
      · exact forall_mem_cons.2 ⟨hts.1, ih hts.2⟩

theorem increasing_insert (m : GeometryMonomial K) (h : Increasing ts) :
    Increasing (insert m ts) := by
  induction ts with
  | nil => exact pairwise_singleton _ m
  | cons t ts ih =>
    unfold Increasing at h ih ⊢
    rw [pairwise_cons] at h
    rw [insert]
    split
    · exact pairwise_cons.2 h
    · next hne =>
      split
      · next hbefore =>
        refine pairwise_cons.2 ⟨?_, pairwise_cons.2 h⟩
        exact forall_mem_cons.2 ⟨hbefore, fun u hu => before_trans hbefore (h.1 u hu)⟩
      · next hnot =>
        -- The monomial goes behind the first term, as do all terms behind it.
        refine pairwise_cons.2 ⟨?_, ih h.2⟩
        exact forall_mem_insert (Q := fun p => t.powers.before p = true) (before_of_not hne hnot) h.1

theorem increasing_ofTerms (ms : List (GeometryMonomial K)) : Increasing (ofTerms ms).terms := by
  -- Dropping terms with coefficient zero keeps the order, so the loop is what matters.
  have hfold : ∀ (ms acc : List (GeometryMonomial K)), Increasing acc →
      Increasing (ms.foldl (fun terms m => insert m terms) acc) := by
    intro ms
    induction ms with
    | nil => exact fun acc hacc => hacc
    | cons m ms ih => exact fun acc hacc => ih _ (increasing_insert m hacc)
  exact (hfold ms [] .nil).filter _

theorem coefficientOf_ofTerms (p : Powers) (ms : List (GeometryMonomial K)) :
    coefficientOf p (ofTerms ms).terms = coefficientOf p ms := by
  rw [coefficientOf_eq_sum, coefficientOf_eq_sum]
  refine sum_ofTerms (fun a b q => ?_) (fun q => ite_self 0) ms
  rw [ite_add_ite, add_zero]

omit [LinearOrder K] [Root K] in
theorem Increasing.coefficientOf_eq (h : Increasing ts) (ht : t ∈ ts) :
    coefficientOf t.powers ts = t.coefficient := by
  induction ts with
  | nil => cases ht
  | cons u ts ih =>
    unfold Increasing at h
    rw [pairwise_cons] at h
    rw [coefficientOf_cons]
    rcases mem_cons.1 ht with rfl | ht
    · rw [if_pos rfl, coefficientOf_eq_zero fun v hv => (ne_of_before (h.1 v hv)).symm, add_zero]
    · rw [if_neg (ne_of_before (h.1 t ht)), ih h.2 ht, zero_add]

theorem coefficient_ne_zero (h : t ∈ (ofTerms ms).terms) : t.coefficient ≠ 0 := by
  simpa using (mem_filter.1 h).2

/-- The terms of a canonical sum are the coefficients of its monomials that are not zero. -/
theorem mem_ofTerms :
    t ∈ (ofTerms ms).terms ↔ t.coefficient ≠ 0 ∧ t.coefficient = coefficientOf t.powers ms := by
  constructor
  · intro ht
    refine ⟨coefficient_ne_zero ht, ?_⟩
    rw [← coefficientOf_ofTerms, (increasing_ofTerms ms).coefficientOf_eq ht]
  · rintro ⟨hne, hcoefficient⟩
    rw [← coefficientOf_ofTerms] at hcoefficient
    -- A coefficient that is not zero belongs to a term.
    have hexists : ∃ u ∈ (ofTerms ms).terms, u.powers = t.powers := by
      by_contra hnone
      refine hne (hcoefficient.trans (coefficientOf_eq_zero fun u hu hpowers => ?_))
      exact hnone ⟨u, hu, hpowers⟩
    rcases hexists with ⟨u, hu, hpowers⟩
    have hvalue := (increasing_ofTerms ms).coefficientOf_eq hu
    rw [hpowers, ← hcoefficient] at hvalue
    rcases t with ⟨c, p⟩
    rcases u with ⟨c', p'⟩
    simp only at hvalue hpowers
    rwa [hvalue, ← hpowers]

theorem ofTerms_congr (h : ∀ p, coefficientOf p ms = coefficientOf p ms') :
    ofTerms ms = ofTerms ms' := by
  have hterms : (ofTerms ms).terms = (ofTerms ms').terms :=
    Pairwise.eq_of_mem_iff (increasing_ofTerms ms) (increasing_ofTerms ms') fun t => by
      rw [mem_ofTerms, mem_ofTerms, h t.powers]
  calc ofTerms ms = ⟨(ofTerms ms).terms⟩ := rfl
    _ = ⟨(ofTerms ms').terms⟩ := by rw [hterms]
    _ = ofTerms ms' := rfl

/-- Some of the monomials may be merged first. -/
theorem ofTerms_merge {part rest : List (GeometryMonomial K)} (h : (part ++ rest).Perm ms)
    (h' : ((ofTerms part).terms ++ rest).Perm ms') : ofTerms ms' = ofTerms ms := by
  refine ofTerms_congr fun p => ?_
  rw [← coefficientOf_perm p h, ← coefficientOf_perm p h', coefficientOf_append,
    coefficientOf_append, coefficientOf_ofTerms]

theorem isZero_ofTerms_iff : (ofTerms ms).isZero = true ↔ ∀ p, coefficientOf p ms = 0 := by
  rw [isZero, List.isEmpty_iff]
  constructor
  · intro hempty p
    rw [← coefficientOf_ofTerms, hempty, coefficientOf_nil]
  · intro hzero
    refine eq_nil_iff_forall_not_mem.2 fun t ht => ?_
    rcases mem_ofTerms.1 ht with ⟨hne, hcoefficient⟩
    exact hne (hcoefficient.trans (hzero t.powers))

/-- A sum of monomials is canonical: it depends on the coefficients of the monomials only. -/
theorem ofTerms_canonical (ms : List (GeometryMonomial K)) :
    ((ofTerms ms).terms.Pairwise fun t u => t.powers.before u.powers = true) ∧
    ((ofTerms ms).terms.map fun t => t.powers).Nodup ∧
    (∀ t ∈ (ofTerms ms).terms, t.coefficient ≠ 0) ∧
    (∀ v : Symbol → K, (ofTerms ms).value v = (ms.map fun m => m.value v).sum) ∧
    (∀ ms' : List (GeometryMonomial K), ms'.Perm ms → ofTerms ms' = ofTerms ms ∧
      ∀ style : Style K, style.sum (ofTerms ms') = style.sum (ofTerms ms)) ∧
    (∀ part rest ms' : List (GeometryMonomial K), (part ++ rest).Perm ms →
      ((ofTerms part).terms ++ rest).Perm ms' → ofTerms ms' = ofTerms ms) ∧
    ofTerms (ofTerms ms).terms = ofTerms ms ∧
    ((ofTerms ms).isZero = true ↔
      ∀ p : Powers, ((ms.filter fun m => m.powers = p).map fun m => m.coefficient).sum = 0) := by
  have hperm : ∀ ms' : List (GeometryMonomial K), ms'.Perm ms → ofTerms ms' = ofTerms ms :=
    fun ms' h => ofTerms_congr fun p => coefficientOf_perm p h
  refine ⟨increasing_ofTerms ms, ?_, fun t ht => coefficient_ne_zero ht, value_ofTerms ms,
    fun ms' h => ⟨hperm ms' h, fun style => by rw [hperm ms' h]⟩,
    fun part rest ms' h h' => ofTerms_merge h h', ?_, isZero_ofTerms_iff⟩
  · exact List.pairwise_map.2 ((increasing_ofTerms ms).imp ne_of_before)
  · exact ofTerms_congr fun p => coefficientOf_ofTerms p ms

end GeometrySum
end WeakForm
