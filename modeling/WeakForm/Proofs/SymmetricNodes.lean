import Mathlib.Algebra.Order.BigOperators.Group.List
import Mathlib.Analysis.Real.Sqrt
import Mathlib.Tactic.Linarith
import WeakForm.Proofs.Exact
import WeakForm.Quadrature.Gauss

/-!
# Symmetric nodes

Approximate nodes and weights of a Gauss rule are sorted, their weights are normalised, and
each node is averaged with the reflection of its partner at the other end. The average is
taken pair by pair, the lower node first and the upper one from it, with a rule of its own
for the node in the middle. A step changes two nodes in place, which no other step reads
(`getElem?_foldl_reflectAt`). In exact arithmetic these are three spellings of one formula,
`mirrorMean`, applied to the list and its reverse, and everything follows from that formula.
It is symmetric by itself, it keeps sums, signs and the open unit interval, and it keeps the
order because the reversed list is ordered the other way round.

Nodes that are symmetric already are their own average, so nothing is lost where the
approximations are exact.

## Theorems

* `Gauss.reflected_eq_zipWith`: Reflecting averages a list with its reverse.
* `Gauss.symmetrize_isSymmetric`: Nodes are made symmetric and keep what they have.
-/

namespace WeakForm
namespace Gauss

open List

section

variable {α : Type} [Scalar α]

theorem length_reflectAt (nodes : List (α × α)) (i : Nat) :
    (reflectAt nodes i).length = nodes.length := by
  unfold reflectAt
  simp only
  split
  · rw [length_set, length_set]
  · rfl

theorem length_foldl_reflectAt (is : List Nat) (nodes : List (α × α)) :
    (is.foldl reflectAt nodes).length = nodes.length := by
  induction is generalizing nodes with
  | nil => rfl
  | cons i is ih => exact (ih _).trans (length_reflectAt nodes i)

theorem length_reflected (pairs : List (α × α)) : (reflected pairs).length = pairs.length := by
  unfold reflected
  simp only
  split
  · rw [length_modify, length_foldl_reflectAt]
  · exact length_foldl_reflectAt _ _

end

variable {K : Type} [Field K] {nodes pairs : List (K × K)}

/-- The average of a node with the reflection of another one, and of their weights. -/
def mirrorMean (x y : K × K) : K × K := ((x.1 + 1 - y.1) / 2, (x.2 + y.2) / 2)

theorem forall_mem_mirrorMean {P : K × K → Prop}
    (h : ∀ x ∈ pairs, ∀ y ∈ pairs, P (mirrorMean x y)) :
    ∀ z ∈ zipWith mirrorMean pairs pairs.reverse, P z := by
  rw [← map_uncurry_zip_eq_zipWith, forall_mem_map]
  exact fun z hz => h _ (of_mem_zip hz).1 _ (mem_reverse.1 (of_mem_zip hz).2)

theorem sum_mirrorMean (xs ys : List (K × K)) (h : xs.length = ys.length) :
    ((zipWith mirrorMean xs ys).map Prod.snd).sum =
      ((xs.map Prod.snd).sum + (ys.map Prod.snd).sum) / 2 := by
  induction xs generalizing ys with
  | nil =>
    rw [length_eq_zero_iff.1 h.symm]
    simp
  | cons x xs ih =>
    cases ys with
    | nil => cases h
    | cons y ys =>
      rw [zipWith_cons_cons, map_cons, sum_cons, ih ys (by simpa using h), map_cons, sum_cons,
        map_cons, sum_cons, mirrorMean]
      ring

theorem getElem?_mirrorMean {m : Nat} {a b : K × K} (ha : pairs[m]? = some a)
    (hb : pairs[pairs.length - 1 - m]? = some b) :
    (zipWith mirrorMean pairs pairs.reverse)[m]? = some (mirrorMean a b) := by
  have hm := (List.getElem?_eq_some_iff.1 ha).1
  rw [getElem?_zipWith, getElem?_reverse hm, ha, hb]

/-- Turned round, the nodes are the reflected ones, with the same weights. -/
def IsMirrored (nodes : List (K × K)) : Prop := nodes.reverse = nodes.map fun x => (1 - x.1, x.2)

theorem IsMirrored.get (h : IsMirrored nodes) {i : Nat} {x y : K × K} (hx : nodes[i]? = some x)
    (hy : nodes[nodes.length - 1 - i]? = some y) : y = (1 - x.1, x.2) := by
  have hi := (List.getElem?_eq_some_iff.1 hx).1
  rw [← getElem?_reverse hi, h, getElem?_map, hx] at hy
  exact (Option.some.inj hy).symm

section

variable [LinearOrder K] [Root K]

theorem normalized_of_total (h : (nodes.map Prod.snd).sum = 1) : normalized nodes = nodes := by
  unfold normalized
  simp only [Scalar.sum_eq_sum, h, div_one, Prod.mk.eta, map_id']

theorem map_fst_normalized (pairs : List (K × K)) :
    (normalized pairs).map Prod.fst = pairs.map Prod.fst := by
  unfold normalized
  rw [map_map]
  rfl

/-- Sorting gives the same pairs in increasing order, if no node occurs twice. -/
theorem sorted_spec (h : (pairs.map Prod.fst).Nodup) :
    (sorted pairs).Perm pairs ∧ (sorted pairs).Pairwise fun x y => x.1 < y.1 := by
  have hperm : (sorted pairs).Perm pairs := mergeSort_perm _ _
  have hle : (sorted pairs).Pairwise fun x y => x.1 ≤ y.1 := by
    refine (pairwise_mergeSort (fun x y z hxy hyz => ?_) (fun x y => ?_) pairs).imp fun hxy => ?_
    · simp only [Bool.not_eq_true', ← Bool.not_eq_true, Scalar.lt_eq_true, not_lt] at *
      exact hxy.trans hyz
    · simp only [Bool.or_eq_true, Bool.not_eq_true', ← Bool.not_eq_true, Scalar.lt_eq_true, not_lt]
      exact le_total x.1 y.1
    · simpa only [Bool.not_eq_true', ← Bool.not_eq_true, Scalar.lt_eq_true, not_lt] using hxy
  have hne : (sorted pairs).Pairwise fun x y => x.1 ≠ y.1 :=
    pairwise_map.1 ((hperm.map Prod.fst).nodup_iff.2 h)
  exact ⟨hperm, (hle.and hne).imp fun hxy => lt_of_le_of_ne hxy.1 hxy.2⟩

end

variable [LinearOrder K] [IsStrictOrderedRing K]

/-- An average of a list with its reverse is symmetric, whatever the list is. -/
theorem isMirrored_mirrorMean (pairs : List (K × K)) :
    IsMirrored (zipWith mirrorMean pairs pairs.reverse) := by
  unfold IsMirrored
  rw [reverse_zipWith (length_reverse).symm, reverse_reverse, map_zipWith, zipWith_comm]
  congr 1
  funext x y
  unfold mirrorMean
  exact Prod.ext (by ring) (by ring)

/-- Increasing nodes have increasing averages: their partners decrease. -/
theorem increasing_mirrorMean (h : pairs.Pairwise fun x y => x.1 < y.1) :
    (zipWith mirrorMean pairs pairs.reverse).Pairwise fun x y => x.1 < y.1 := by
  have hpartners := pairwise_reverse.2 h
  rw [pairwise_iff_getElem] at *
  intro i j hi hj hij
  rw [length_zipWith] at hi hj
  have hlower := h i j (by omega) (by omega) hij
  have hupper := hpartners i j (by omega) (by omega) hij
  rw [getElem_zipWith, getElem_zipWith]
  unfold mirrorMean
  linarith

theorem IsMirrored.mirrorMean_eq (h : IsMirrored nodes) :
    zipWith mirrorMean nodes nodes.reverse = nodes := by
  have hfix : ∀ x : K × K, mirrorMean x (1 - x.1, x.2) = x := by
    intro x
    unfold mirrorMean
    exact Prod.ext (by ring) (by ring)
  rw [h, zipWith_map_right, zipWith_self]
  simp only [hfix, map_id']

variable [Root K]

theorem normalized_weights (hne : pairs ≠ []) (h : ∀ x ∈ pairs, 0 < x.2) :
    (∀ x ∈ normalized pairs, 0 < x.2) ∧ ((normalized pairs).map Prod.snd).sum = 1 := by
  have hpos : 0 < (pairs.map Prod.snd).sum :=
    sum_pos _ (forall_mem_map.2 h) (by simpa using hne)
  unfold normalized
  rw [Scalar.sum_eq_sum]
  refine ⟨forall_mem_map.2 fun x hx => div_pos (h x hx) hpos, ?_⟩
  simp only [map_map, Function.comp_def, div_eq_mul_inv, sum_map_mul_right]
  exact mul_inv_cancel₀ hpos.ne'

theorem decimal_half : (Scalar.decimal 5 1 : K) = 1 / 2 := by
  change ((5 : Nat) : K) / 10 ^ 1 = 1 / 2
  norm_num

theorem reflectAt_eq {i : Nat} {a b : K × K} (ha : nodes[i]? = some a)
    (hb : nodes[nodes.length - 1 - i]? = some b) : reflectAt nodes i =
      (nodes.set i (mirrorMean a b)).set (nodes.length - 1 - i) (mirrorMean b a) := by
  have hlower : (1 / 2 * (a.1 + 1 - b.1), 1 / 2 * (a.2 + b.2)) = mirrorMean a b :=
    Prod.ext (by simp only [mirrorMean]; ring) (by simp only [mirrorMean]; ring)
  have hupper : (1 - 1 / 2 * (a.1 + 1 - b.1), 1 / 2 * (a.2 + b.2)) = mirrorMean b a :=
    Prod.ext (by simp only [mirrorMean]; ring) (by simp only [mirrorMean]; ring)
  rw [reflectAt, ha, hb, decimal_half]
  simp only [hlower, hupper]

/-- After some steps the nodes at both ends are reflected, and those between them are as they
    were. -/
theorem getElem?_foldl_reflectAt (pairs : List (K × K)) {k : Nat} (hk : k ≤ pairs.length / 2) :
    ∀ m, ((range k).foldl reflectAt pairs)[m]? = if m < k ∨ pairs.length ≤ m + k then
      (zipWith mirrorMean pairs pairs.reverse)[m]? else pairs[m]? := by
  induction k with
  | zero =>
    intro m
    rw [range_zero, foldl_nil]
    split
    · next hm =>
      have hm : pairs.length ≤ m := by omega
      rw [getElem?_eq_none hm, getElem?_eq_none (by simpa using hm)]
    · rfl
  | succ k ih =>
    intro m
    have hlength := length_foldl_reflectAt (range k) pairs
    have hnodes := ih (by omega)
    rw [range_succ, foldl_append, foldl_cons, foldl_nil]
    generalize (range k).foldl reflectAt pairs = nodes at hlength hnodes ⊢
    have hsome : ∀ m < pairs.length, ∃ a, pairs[m]? = some a :=
      fun m hm => ⟨_, getElem?_eq_getElem hm⟩
    rcases hsome k (by omega) with ⟨a, hfirst⟩
    rcases hsome (pairs.length - 1 - k) (by omega) with ⟨b, hlast⟩
    -- Both nodes of this step are untouched so far.
    have hlower : nodes[k]? = some a := by rw [hnodes, if_neg (by omega), hfirst]
    have hupper : nodes[nodes.length - 1 - k]? = some b := by
      rw [hlength, hnodes, if_neg (by omega), hlast]
    rw [reflectAt_eq hlower hupper, getElem?_set, getElem?_set, length_set, hlength, hnodes]
    split
    · next hm =>
      have hpartner : pairs.length - 1 - m = k := by omega
      rw [if_pos (by omega), if_pos (by omega), getElem?_mirrorMean (hm ▸ hlast)
        (hpartner.symm ▸ hfirst)]
    · split
      · next hm =>
        subst hm
        rw [if_pos (by omega), if_pos (by omega), getElem?_mirrorMean hfirst hlast]
      · exact if_congr (by omega) rfl rfl

theorem reflected_eq_zipWith (pairs : List (K × K)) :
    reflected pairs = zipWith mirrorMean pairs pairs.reverse := by
  refine ext_getElem? fun m => ?_
  have hnodes := getElem?_foldl_reflectAt pairs le_rfl
  unfold reflected
  simp only
  split
  · next hodd =>
    rw [getElem?_modify, hnodes]
    by_cases hm : pairs.length / 2 = m
    · -- The node in the middle is its own partner.
      have hmiddle := getElem?_eq_getElem (show m < pairs.length by omega)
      have hself : pairs[pairs.length - 1 - m]? = some pairs[m] := by
        rw [show pairs.length - 1 - m = m by omega, hmiddle]
      simp only [if_pos hm]
      rw [if_neg (by omega), hmiddle, getElem?_mirrorMean hmiddle hself]
      refine congrArg some (Prod.ext ?_ ?_)
      · simp only [mirrorMean, decimal_half]
        ring
      · simp only [mirrorMean]
        ring
    · simp only [if_neg hm]
      rw [if_pos (by omega)]
      exact congrFun Option.map_id _
  · rw [hnodes, if_pos (by omega)]

/-- Sorted nodes that are symmetric already are not changed. -/
theorem symmetrize_of_isMirrored (hmirrored : IsMirrored (sorted pairs))
    (htotal : ((sorted pairs).map Prod.snd).sum = 1) : symmetrize pairs = sorted pairs := by
  unfold symmetrize
  rw [normalized_of_total htotal, reflected_eq_zipWith, hmirrored.mirrorMean_eq]

/-- Nodes in increasing order with positive weights that add up to one. Nodes at the same distance
    from the two ends are reflections of each other and have the same weight. -/
structure IsSymmetric (n : Nat) (nodes : List (K × K)) : Prop where
  length : nodes.length = n
  positive : ∀ x ∈ nodes, 0 < x.2
  total : (nodes.map Prod.snd).sum = 1
  mirrored : ∀ i x y, nodes[i]? = some x → nodes[n - 1 - i]? = some y → x.1 + y.1 = 1 ∧ x.2 = y.2
  increasing : nodes.Pairwise fun x y => x.1 < y.1
  middle : n % 2 = 1 → ∃ w, nodes[n / 2]? = some (1 / 2, w)

/-- Nodes and weights of any kind are made symmetric, if no node occurs twice and the weights are
    positive. Nodes between zero and one stay between them, and what is symmetric already is
    only sorted. -/
theorem symmetrize_isSymmetric (hne : pairs ≠ []) (hnodes : (pairs.map Prod.fst).Nodup)
    (hweights : ∀ x ∈ pairs, 0 < x.2) :
    IsSymmetric pairs.length (symmetrize pairs) ∧
      ((∀ x ∈ pairs, 0 < x.1 ∧ x.1 < 1) → ∀ x ∈ symmetrize pairs, 0 < x.1 ∧ x.1 < 1) ∧
      (IsMirrored (sorted pairs) → ((sorted pairs).map Prod.snd).sum = 1 →
        symmetrize pairs = sorted pairs) := by
  rcases sorted_spec hnodes with ⟨hperm, hsorted⟩
  have hsymmetrize : symmetrize pairs =
      zipWith mirrorMean (normalized (sorted pairs)) (normalized (sorted pairs)).reverse :=
    reflected_eq_zipWith _
  rcases normalized_weights (mt (fun h => (h ▸ hperm).nil_eq.symm) hne)
    (fun x hx => hweights x (hperm.mem_iff.1 hx)) with ⟨hpositive, htotal⟩
  have hfst := map_fst_normalized (sorted pairs)
  have hmirrored := isMirrored_mirrorMean (normalized (sorted pairs))
  have hlength : (symmetrize pairs).length = pairs.length := by
    simp [hsymmetrize, normalized, hperm.length_eq]
  rw [← hsymmetrize] at hmirrored
  refine ⟨⟨hlength, ?_, ?_, ?_, ?_, ?_⟩, ?_, symmetrize_of_isMirrored⟩
  · rw [hsymmetrize]
    exact forall_mem_mirrorMean fun x hx y hy => half_pos (add_pos (hpositive x hx) (hpositive y hy))
  · rw [hsymmetrize, sum_mirrorMean _ _ length_reverse.symm, map_reverse, sum_reverse, htotal]
    norm_num
  · intro i x y hx hy
    have hpartner := hmirrored.get hx (hlength.symm ▸ hy)
    subst hpartner
    exact ⟨add_sub_cancel _ _, rfl⟩
  · rw [hsymmetrize]
    refine increasing_mirrorMean (pairwise_map.1 ?_)
    rw [hfst]
    exact pairwise_map.2 hsorted
  · intro hodd
    -- The node in the middle is its own partner.
    have hmiddle := getElem?_eq_getElem (l := symmetrize pairs) (i := pairs.length / 2) (by omega)
    have hself := hmirrored.get hmiddle (by rwa [hlength, show pairs.length - 1 - pairs.length / 2 =
      pairs.length / 2 by omega])
    exact ⟨_, hmiddle.trans (congrArg some (Prod.ext (by linarith [congrArg Prod.fst hself]) rfl))⟩
  · intro hunit
    have hline : ∀ x ∈ normalized (sorted pairs), 0 < x.1 ∧ x.1 < 1 := by
      intro x hx
      rcases mem_map.1 (hfst ▸ mem_map_of_mem (f := Prod.fst) hx) with ⟨y, hy, hxy⟩
      exact hxy ▸ hunit y (hperm.mem_iff.1 hy)
    rw [hsymmetrize]
    refine forall_mem_mirrorMean fun x hx y hy => ?_
    rcases hline x hx with ⟨hx₀, hx₁⟩
    rcases hline y hy with ⟨hy₀, hy₁⟩
    unfold mirrorMean
    constructor <;> simp only <;> linarith

/-- Three nodes out of order, symmetric once they are sorted. -/
def scattered : List (ℚ × ℚ) := [(4 / 5, 1 / 4), (1 / 5, 1 / 4), (1 / 2, 1 / 2)]

/-- The nodes are put in order, and nothing else is changed. -/
theorem symmetrize_isSymmetric_scattered :
    IsSymmetric 3 (symmetrize scattered) ∧ (∀ x ∈ symmetrize scattered, 0 < x.1 ∧ x.1 < 1) ∧
      symmetrize scattered = [(1 / 5, 1 / 4), (1 / 2, 1 / 2), (4 / 5, 1 / 4)] := by
  have hnodes : (scattered.map Prod.fst).Nodup := by decide +kernel
  have hsorted : sorted scattered = [(1 / 5, 1 / 4), (1 / 2, 1 / 2), (4 / 5, 1 / 4)] := by
    rcases sorted_spec hnodes with ⟨hperm, hincreasing⟩
    refine (hperm.trans (by decide +kernel)).eq_of_pairwise ?_ hincreasing (by decide +kernel)
    exact fun x y _ _ hxy hyx => absurd hxy hyx.asymm
  rcases symmetrize_isSymmetric (by decide : scattered ≠ []) hnodes (by decide +kernel) with
    ⟨hsymmetric, hunit, hsame⟩
  rw [hsorted] at hsame
  refine ⟨hsymmetric, hunit (by decide +kernel), hsame ?_ (by decide +kernel)⟩
  unfold IsMirrored
  decide +kernel

end Gauss

open List Gauss

/-- The real square root. -/
noncomputable instance : Root ℝ := ⟨Real.sqrt⟩

/-- The Gauss rule with two points. -/
noncomputable def twoPoints : List (ℝ × ℝ) :=
  [(1 / 2 - Real.sqrt 3 / 6, 1 / 2), (1 / 2 + Real.sqrt 3 / 6, 1 / 2)]

/-- The two points are sorted and symmetric, and their weights add up to one. -/
theorem symmetrize_twoPoints : symmetrize twoPoints = twoPoints := by
  have hsorted : sorted twoPoints = twoPoints := by
    refine mergeSort_of_pairwise (pairwise_pair.2 ?_)
    have hroot := Real.sqrt_nonneg 3
    rw [Bool.not_eq_true', ← Bool.not_eq_true, Scalar.lt_eq_true]
    linarith
  refine (symmetrize_of_isMirrored ?_ ?_).trans hsorted
  · rw [hsorted, IsMirrored]
    norm_num [twoPoints]
    exact ⟨by ring, by ring⟩
  · rw [hsorted]
    norm_num [twoPoints]

theorem rule_twoPoints : rule (fun _ => twoPoints) 2 = .ok twoPoints := by
  change Except.ok (symmetrize twoPoints) = _
  rw [symmetrize_twoPoints]

end WeakForm
