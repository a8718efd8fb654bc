import WeakForm.Proofs.Numbering

/-!
# Computations that keep a promise

A fault is the end of a computation that nobody asked for: a size that left its word,
or an index that pointed nowhere. Showing that there is none goes forward along the
computation. Each step has a result of which something is known, and this is what the
next step needs. `Ensures E P` puts the two sides of such a statement together: a
failure is one that `E` allows, and a value satisfies `P`.

One predicate serves both kinds of computation. Where only faults are possible, `E`
allows nothing, and `P` holds of a result that exists. Where there are problems of the
input too, `E` is `Failure.Only T`: no fault, and a problem only if `T` holds.

The product of sizes is taken from left to right, so that it may overflow although a
zero further behind makes it small in the end. The number that has to fit is therefore
the `extent`, in which empty dimensions count as one.

## Theorems

* `Ensures.bind`, `Ensures.mapM`, `Ensures.foldlM`: Rules for parts and wholes.
* `Tuple.axesNumber_of_lt`: Tuples of axes have numbers if their count fits.
-/

namespace WeakForm

open List Success

/-- A computation that fails only in the ways that `E` allows, and whose value has the property
    `P`. -/
def Ensures {ε β : Type} (E : ε → Prop) (P : β → Prop) : Except ε β → Prop
  | .ok b => P b
  | .error e => E e

/-- Problems under a condition, and no faults. -/
def Failure.Only (T : Prop) : Failure → Prop
  | .problem _ => T
  | .fault _ => False

/-- A computation without a fault, whose value has the property `P`. -/
abbrev Checked.Sure {β : Type} (P : β → Prop) (x : Checked β) : Prop := Ensures (fun _ => False) P x

/-- A computation without a fault, in which problems occur under a condition only. -/
abbrev Outcome.Sound {β : Type} (T : Prop) (P : β → Prop) (x : Outcome β) : Prop :=
  Ensures (Failure.Only T) P x

namespace Ensures

variable {ε β γ : Type} {E : ε → Prop} {P Q : β → Prop} {b : β} {x : Except ε β} {R : γ → Prop}
  {f : β → Except ε γ} {xs : List β} {T : Prop}

theorem pure (h : P b) : Ensures E P (Pure.pure b) := h

theorem mono (h : Ensures E P x) (hPQ : ∀ b, P b → Q b) : Ensures E Q x := by
  cases x with
  | ok b => exact hPQ b h
  | error e => exact h

theorem bind (hx : Ensures E P x) (hf : ∀ b, P b → Ensures E R (f b)) : Ensures E R (x >>= f) := by
  cases x with
  | ok b => exact hf b hx
  | error e => exact hx

theorem bind_ok (hx : x = .ok b) (hf : Ensures E R (f b)) : Ensures E R (x >>= f) := by
  rw [hx]
  exact hf

theorem of_eq (h : Ensures E P x) : Ensures E (fun b => P b ∧ x = .ok b) x := by
  cases x with
  | ok b => exact ⟨h, rfl⟩
  | error e => exact h

theorem mapM {R : β → γ → Prop} (h : ∀ x ∈ xs, Ensures E (R x) (f x)) :
    Ensures E (Forall₂ R xs) (xs.mapM f) := by
  induction xs with
  | nil =>
    rw [mapM_nil]
    exact Forall₂.nil
  | cons x xs ih =>
    rw [forall_mem_cons] at h
    rw [mapM_cons]
    refine bind h.1 fun y hy => bind (ih h.2) fun ys hys => ?_
    exact Forall₂.cons hy hys

theorem foldlM {f : γ → β → Except ε γ} {I : γ → Prop} {a : γ} (ha : I a)
    (h : ∀ x ∈ xs, ∀ a, I a → Ensures E I (f a x)) : Ensures E I (xs.foldlM f a) := by
  induction xs generalizing a with
  | nil => exact ha
  | cons x xs ih =>
    rw [forall_mem_cons] at h
    rw [foldlM_cons]
    exact bind (h.1 a ha) fun b hb => ih hb h.2

theorem lift {x : Checked β} (h : Checked.Sure P x) : Outcome.Sound T P (liftM x : Outcome β) := by
  cases x with
  | ok b => exact h
  | error e => exact h.elim

theorem bind_lift {x : Checked β} {f : β → Outcome γ} (hx : x = .ok b)
    (hf : Outcome.Sound T R (f b)) : Outcome.Sound T R ((liftM x : Outcome β) >>= f) :=
  bind_ok (lift_fault_eq_ok.2 hx) hf

theorem allow {T' : Prop} {x : Outcome β} (h : Outcome.Sound T P x) (hT : T → T') :
    Outcome.Sound T' P x := by
  cases x with
  | ok b => exact h
  | error e =>
    cases e with
    | problem p => exact hT h
    | fault f => exact h

theorem exists_ok {x : Checked β} (h : Checked.Sure P x) : ∃ b, x = .ok b ∧ P b := by
  cases x with
  | ok b => exact ⟨b, rfl, h⟩
  | error e => exact h.elim

theorem exists_of_not {x : Outcome β} (h : Outcome.Sound T P x) (hT : ¬ T) :
    ∃ b, x = .ok b ∧ P b := by
  cases x with
  | ok b => exact ⟨b, rfl, h⟩
  | error e =>
    cases e with
    | problem p => exact absurd h hT
    | fault f => exact h.elim

theorem of_ok (hx : x = .ok b) (hb : P b) : Ensures E P x := hx ▸ hb

end Ensures

theorem Checked.sure_require {condition : Bool} (h : condition = true) :
    Checked.Sure (fun _ => True) (require condition) :=
  .of_ok ((require_eq_ok (u := ())).2 h) trivial

theorem Checked.sure_bound {index length : Nat} (h : index < length) :
    Checked.Sure (fun _ => True) (bound index length) :=
  .of_ok ((bound_eq_ok (u := ())).2 h) trivial

theorem sure_entryAt {β : Type} {xs : List β} {i : Nat} (h : i < xs.length) :
    Checked.Sure (fun x => xs[i]? = some x) (entryAt xs i) :=
  .of_ok (entryAt_eq_ok.2 (getElem?_eq_getElem h)) (getElem?_eq_getElem h)

namespace Size

variable {n a b : Nat} {ns : List Nat} (dims : List Nat)

theorem ofNat_of_lt (h : n < limit) : ofNat n = .ok n := if_pos h

theorem add_of_lt (h : a + b < limit) : add a b = .ok (a + b) := ofNat_of_lt h

theorem mul_of_lt (h : a * b < limit) : mul a b = .ok (a * b) := ofNat_of_lt h

theorem sum_of_lt (h : ns.sum < limit) : sum ns = .ok ns.sum := by
  -- The invariant of the loop has an arbitrary start.
  have hfold : ∀ (ns : List Nat) (start : Nat), start + ns.sum < limit →
      ns.foldlM add start = .ok (start + ns.sum) := by
    intro ns
    induction ns with
    | nil =>
      intro start _
      rw [foldlM_nil, sum_nil, Nat.add_zero]
      rfl
    | cons n ns ih =>
      intro start hstart
      rw [sum_cons, ← Nat.add_assoc] at hstart ⊢
      exact foldlM_cons_eq_ok.2 ⟨start + n, add_of_lt (by omega), ih (start + n) hstart⟩
  have hsum := hfold ns 0 (by rwa [Nat.zero_add])
  rwa [Nat.zero_add] at hsum

theorem pow_of_lt {base exponent : Nat} (hbase : 0 < base) (h : base ^ exponent < limit) :
    pow base exponent = .ok (base ^ exponent) := by
  have hsmall : ¬ (1 < base ∧ 64 ≤ exponent) := by
    rintro ⟨hlarge, hexponent⟩
    have hpow : 2 ^ 64 ≤ base ^ exponent :=
      calc 2 ^ 64 ≤ base ^ 64 := Nat.pow_le_pow_left hlarge 64
        _ ≤ base ^ exponent := Nat.pow_le_pow_right hbase hexponent
    exact absurd h (Nat.not_lt.2 hpow)
  unfold pow
  rw [if_neg hsmall]
  by_cases hone : base ≤ 1
  · have hbase' : base = 1 := by omega
    rw [if_pos hone, hbase', Nat.one_pow, if_neg (by simp)]
  · rw [if_neg hone]
    exact ofNat_of_lt h

/-- The product of dimensions, of which empty ones count as one. -/
def extent (dims : List Nat) : Nat := (dims.map (max 1)).prod

@[simp] theorem extent_nil : extent [] = 1 := rfl

@[simp] theorem extent_cons (n : Nat) (dims : List Nat) :
    extent (n :: dims) = max 1 n * extent dims := by
  simp only [extent, map_cons, prod_cons]

theorem extent_append (dims' : List Nat) : extent (dims ++ dims') = extent dims * extent dims' := by
  simp only [extent, map_append, prod_append]

theorem one_le_extent : 1 ≤ extent dims := by
  induction dims with
  | nil => exact Nat.le_refl 1
  | cons n dims ih =>
    rw [extent_cons]
    exact Nat.mul_pos (Nat.lt_of_lt_of_le Nat.one_pos (Nat.le_max_left 1 n)) ih

theorem extent_drop_le (k : Nat) : extent (dims.drop k) ≤ extent dims := by
  conv_rhs => rw [← take_append_drop k dims, extent_append]
  exact Nat.le_mul_of_pos_left _ (one_le_extent _)

theorem extent_le {dims dims' : List Nat} (h : Forall₂ (· ≤ ·) dims dims') :
    extent dims ≤ extent dims' := by
  induction h with
  | nil => exact Nat.le_refl 1
  | cons hn _ ih =>
    rw [extent_cons, extent_cons]
    exact Nat.mul_le_mul (by omega) ih

theorem extent_replicate (h : 0 < n) (count : Nat) : extent (replicate count n) = n ^ count := by
  rw [extent, map_replicate, prod_replicate, Nat.max_eq_right h]

theorem extent_eq_prod (h : ∀ n ∈ dims, 0 < n) : extent dims = dims.prod := by
  rw [extent, map_congr_left fun n hn => Nat.max_eq_right (h n hn), map_id']

theorem prod_le_extent : dims.prod ≤ extent dims := by
  induction dims with
  | nil => exact Nat.le_refl 1
  | cons n dims ih =>
    rw [prod_cons, extent_cons]
    exact Nat.mul_le_mul (Nat.le_max_right 1 n) ih

theorem product_of_extent (h : extent ns < limit) : product ns = .ok ns.prod := by
  -- The running product never exceeds the extent of the part that has been multiplied.
  have hfold : ∀ (ns : List Nat) (start : Nat), max 1 start * extent ns < limit →
      ns.foldlM mul start = .ok (start * ns.prod) := by
    intro ns
    induction ns with
    | nil =>
      intro start _
      rw [foldlM_nil, prod_nil, Nat.mul_one]
      rfl
    | cons n ns ih =>
      intro start hstart
      rw [extent_cons, ← Nat.mul_assoc] at hstart
      have hnext : max 1 (start * n) ≤ max 1 start * max 1 n :=
        Nat.max_le.2 ⟨Nat.mul_pos (by omega) (by omega),
          Nat.mul_le_mul (Nat.le_max_right 1 start) (Nat.le_max_right 1 n)⟩
      have hrest := Nat.lt_of_le_of_lt (Nat.mul_le_mul_right (extent ns) hnext) hstart
      have hmul : start * n < limit := by
        have hle := Nat.le_mul_of_pos_right (max 1 (start * n)) (one_le_extent ns)
        omega
      rw [prod_cons, ← Nat.mul_assoc]
      exact foldlM_cons_eq_ok.2 ⟨start * n, mul_of_lt hmul, ih (start * n) hrest⟩
  have hproduct := hfold ns 1 (by rwa [Nat.max_self, Nat.one_mul])
  rwa [Nat.one_mul] at hproduct

end Size

namespace Tuple

variable {dim : Nat} {order : Nat} {tuple : List Nat}

theorem axesCount_of_lt (hdim : 0 < dim) (horder : order < 2 ^ 32) (h : dim ^ order < Size.limit) :
    axesCount dim order = .ok (dim ^ order) := by
  have hmod : order % Nat.pow 2 32 = order := Nat.mod_eq_of_lt horder
  unfold axesCount
  rw [hmod]
  exact Size.pow_of_lt hdim h

theorem reserve_of_lt (hdim : 0 < dim) (h : dim ^ order < capacity) : reserve dim order = .ok () :=
  bind_eq_ok.2 ⟨_, Size.pow_of_lt hdim (Nat.lt_trans h (by decide)), if_pos h⟩

/-- A tuple below dimensions has a number if the running products of the dimensions fit. -/
theorem number_of_product {dims : List Nat} {n : Nat} (h : Size.product dims = .ok n)
    (htuple : tuple ∈ all dims) : number dims tuple = .ok (linear dims tuple) := by
  -- The number of the entries so far lies below the product of their dimensions.
  have hfold : ∀ (dims tuple : List Nat) (start offset : Nat), Forall₂ (· < ·) tuple dims →
      offset < start → dims.foldlM Size.mul start = .ok n → ∃ k,
        (tuple.zip dims).foldlM (fun offset x => shift offset x.2 x.1) offset = .ok k := by
    intro dims tuple start offset hbelow
    induction hbelow generalizing start offset with
    | nil => exact fun _ _ => ⟨offset, rfl⟩
    | @cons x dim tuple dims hx _ ih =>
      intro hoffset hproduct
      rcases foldlM_cons_eq_ok.1 hproduct with ⟨next, hnext, hproduct⟩
      have hlimit := Size.ofNat_lt hnext
      have hle : (offset + 1) * dim ≤ next :=
        Size.mul_eq_ok hnext ▸ Nat.mul_le_mul_right dim hoffset
      rw [Nat.add_mul, Nat.one_mul] at hle
      have hlt : offset * dim + x < next := by omega
      rcases ih next (offset * dim + x) hlt hproduct with ⟨k, hk⟩
      refine ⟨k, foldlM_cons_eq_ok.2 ⟨offset * dim + x, ?_, hk⟩⟩
      have hsum := hlt.trans hlimit
      exact bind_eq_ok.2 ⟨offset * dim, Size.mul_of_lt (Nat.lt_of_le_of_lt (Nat.le_add_right _ x) hsum),
        Size.add_of_lt hsum⟩
  have hbelow := mem_all_iff.1 htuple
  rcases hfold dims tuple 1 0 hbelow Nat.one_pos h with ⟨k, hk⟩
  have hnumber : number dims tuple = .ok k := (if_pos hbelow.length_eq).trans hk
  rw [hnumber, number_eq_linear hnumber]

theorem axesNumber_of_lt (haxes : ∀ axis ∈ tuple, axis < dim) (h : dim ^ tuple.length < Size.limit) :
    axesNumber dim tuple = .ok (linear (replicate tuple.length dim) tuple) := by
  have hextent : Size.extent (replicate tuple.length dim) < Size.limit := by
    cases tuple with
    | nil => exact (by decide : 1 < Size.limit)
    | cons axis tuple =>
      have haxis := haxes axis mem_cons_self
      rwa [Size.extent_replicate (by omega)]
  rw [axesNumber_eq_number]
  exact number_of_product (Size.product_of_extent hextent) (mem_axes_iff.2 ⟨rfl, haxes⟩)

theorem sure_axesNumber (haxes : ∀ axis ∈ tuple, axis < dim) (h : dim ^ tuple.length < Size.limit) :
    Checked.Sure (fun n => n < dim ^ tuple.length) (axesNumber dim tuple) := by
  have hlt := linear_lt (mem_axes_iff.2 ⟨rfl, haxes⟩)
  rw [prod_replicate] at hlt
  exact .of_ok (axesNumber_of_lt haxes h) hlt

end Tuple
end WeakForm
