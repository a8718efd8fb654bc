import Mathlib.Algebra.GroupWithZero.Nat
import Mathlib.Data.List.Forall2
import WeakForm.Problem
import WeakForm.Tuple

/-!
# What success says

The compiler is written with computations that can fail, so almost every theorem
about it starts from the equation `x = .ok y` of some long computation. Taking such
an equation apart is the same work each time: the first step succeeded with some
value, and the rest succeeded from there. The lemmas here do that work once. Each
is an equivalence, so the same lemma also builds a success from its parts.

A traversal that succeeds has succeeded at every element. `mapM_eq_ok` states this
with `List.Forall₂`, which is the form that an induction over two lists wants; a
caller that is interested in one position goes through `forall₂_get`.

Sizes that fit their word are the natural numbers they were computed from, so a
success of word arithmetic is an equation between natural numbers.

## Theorems

* `bind_eq_ok`: A sequence succeeds if both of its parts do.
* `mapM_eq_ok`: A traversal succeeds if it does at every element.
* `lift_fault_eq_ok`, `lift_problem_eq_ok`: Success does not depend on the kinds of
  failure that are possible.
* `entryAt_eq_ok`: An entry of a list is read if it exists.
* `product_eq_prod`: A product of sizes is the product.
* `pow_eq`: A power of sizes is the power.
-/

namespace WeakForm

open List

namespace Success

variable {ε β γ : Type} {x : Except ε β} {f : β → Except ε γ} {c : γ} {xs : List β} {ys : List γ}
  {a : γ} {R : β → γ → Prop} {g : β → γ} {P : List β → γ → Prop} (h : Forall₂ R xs ys)

theorem bind_eq_ok : (x >>= f) = .ok c ↔ ∃ b, x = .ok b ∧ f b = .ok c := by
  cases x with
  | error e | ok b => simp [bind, Except.bind]

theorem map_eq_ok {g : β → γ} : x.map g = .ok c ↔ ∃ b, x = .ok b ∧ g b = c := by
  cases x with
  | error e | ok b => simp [Except.map]

theorem pure_eq_ok {b c : β} : (pure b : Except ε β) = .ok c ↔ b = c := by
  simp [pure, Except.pure]

theorem exists_of_isOk (h : x.isOk = true) : ∃ b, x = .ok b := by
  cases x with
  | error e => exact absurd h (by simp [Except.isOk, Except.toBool])
  | ok b => exact ⟨b, rfl⟩

theorem exists_of_any {p : β → Bool} (h : x.toOption.any p = true) :
    ∃ b, x = .ok b ∧ p b = true := by
  cases x with
  | error e => cases h
  | ok b => exact ⟨b, rfl, h⟩

theorem throw_eq_ok {e : ε} {c : β} : (throw e : Except ε β) = .ok c ↔ False := by
  simp [throw, throwThe, MonadExceptOf.throw]

theorem lift_fault_eq_ok {x : Checked β} {c : β} : (liftM x : Outcome β) = .ok c ↔ x = .ok c := by
  cases x with
  | error e | ok b => simp [liftM, monadLift, MonadLift.monadLift]

theorem lift_problem_eq_ok {x : Except Problem β} {c : β} :
    (liftM x : Outcome β) = .ok c ↔ x = .ok c := by
  cases x with
  | error e | ok b => simp [liftM, monadLift, MonadLift.monadLift]

theorem mapM_eq_ok : xs.mapM f = .ok ys ↔ Forall₂ (fun x y => f x = .ok y) xs ys := by
  induction xs generalizing ys with
  | nil =>
    rw [mapM_nil, pure_eq_ok, forall₂_nil_left_iff]
    exact eq_comm
  | cons x xs ih =>
    rw [mapM_cons, bind_eq_ok, forall₂_cons_left_iff]
    constructor
    · rintro ⟨b, hb, h⟩
      rcases bind_eq_ok.1 h with ⟨bs, hbs, h⟩
      exact ⟨b, bs, hb, ih.1 hbs, (pure_eq_ok.1 h).symm⟩
    · rintro ⟨b, bs, hb, hbs, rfl⟩
      exact ⟨b, hb, bind_eq_ok.2 ⟨bs, ih.2 hbs, rfl⟩⟩

theorem mapM_eq_map (h : xs.mapM f = .ok ys) (hg : ∀ x ∈ xs, ∀ y, f x = .ok y → y = g x) :
    ys = xs.map g := by
  rw [mapM_eq_ok] at h
  induction h with
  | nil => rfl
  | @cons x y xs ys hxy _ ih =>
    rw [map_cons, hg x mem_cons_self y hxy,
      ih fun x' hx' => hg x' (mem_cons_of_mem x hx')]

theorem mapM_eq_ok_map (h : ∀ x ∈ xs, f x = .ok (g x)) : xs.mapM f = .ok (xs.map g) :=
  mapM_eq_ok.2 (forall₂_map_right_iff.2 (forall₂_same.2 h))

include h

theorem map_eq_of_forall₂ {δ : Type} {f : β → δ} {g : γ → δ} (hfg : ∀ x y, R x y → f x = g y) :
    xs.map f = ys.map g := by
  induction h with
  | nil => rfl
  | cons hxy _ ih => rw [map_cons, map_cons, hfg _ _ hxy, ih]

theorem mapM_eq_of_forall₂ {δ : Type} {f : β → Except ε δ} {g : γ → Except ε δ}
    (hfg : ∀ x y, R x y → f x = g y) : xs.mapM f = ys.mapM g := by
  induction h with
  | nil => rfl
  | cons hxy _ ih => rw [mapM_cons, mapM_cons, hfg _ _ hxy, ih]

theorem foldlM_eq_of_forall₂ {δ : Type} {f : δ → β → Except ε δ} {g : δ → γ → Except ε δ}
    (hfg : ∀ x y, R x y → ∀ a, f a x = g a y) (a : δ) : xs.foldlM f a = ys.foldlM g a := by
  induction h generalizing a with
  | nil => rfl
  | cons hxy _ ih =>
    rw [foldlM_cons, foldlM_cons, hfg _ _ hxy]
    exact congrArg _ (funext ih)

omit h in
theorem foldlM_cons_eq_ok {f : γ → β → Except ε γ} {x : β} :
    (x :: xs).foldlM f a = .ok c ↔ ∃ b, f a x = .ok b ∧ xs.foldlM f b = .ok c := by
  rw [foldlM_cons, bind_eq_ok]

omit h in
theorem foldlM_nil_eq_ok {f : γ → β → Except ε γ} : ([] : List β).foldlM f a = .ok c ↔ a = c := by
  rw [foldlM_nil, pure_eq_ok]

omit h in
/-- What each step of a fold adds its element to, holds of all elements in the end. -/
theorem foldlM_along {f : γ → β → Except ε γ} (h : xs.foldlM f a = .ok c) (ha : P [] a)
    (hstep : ∀ done x, xs[done.length]? = some x → ∀ a b, P done a → f a x = .ok b →
      P (done ++ [x]) b) : P xs c := by
  suffices hrest : ∀ rest done a, done ++ rest = xs → rest.foldlM f a = .ok c → P done a → P xs c from
    hrest xs [] a rfl h ha
  intro rest
  induction rest with
  | nil =>
    intro done a hxs h ha
    rwa [← hxs, append_nil, ← foldlM_nil_eq_ok.1 h]
  | cons x rest ih =>
    intro done a hxs h ha
    rcases foldlM_cons_eq_ok.1 h with ⟨b, hb, h⟩
    refine ih (done ++ [x]) b (by rw [← hxs, append_assoc, singleton_append]) h ?_
    exact hstep done x (by rw [← hxs, getElem?_append_right (Nat.le_refl _), Nat.sub_self]; rfl) a b ha hb

omit h in
theorem foldlM_invariant {f : γ → β → Except ε γ} {P : γ → Prop} (h : xs.foldlM f a = .ok c)
    (ha : P a) (hstep : ∀ x ∈ xs, ∀ a b, P a → f a x = .ok b → P b) : P c :=
  foldlM_along (P := fun _ => P) h ha fun _ x hx => hstep x (mem_of_getElem? hx)

omit h in
/-- A fold over elements with their positions, which count those that are done. -/
theorem foldlM_zipIdx_along {f : γ → β × Nat → Except ε γ} (h : xs.zipIdx.foldlM f a = .ok c)
    (ha : P [] a)
    (hstep : ∀ done, ∀ x ∈ xs, ∀ a b, P done a → f a (x, done.length) = .ok b → P (done ++ [x]) b) :
    P xs c := by
  rw [← zipIdx_map_fst 0 xs]
  refine foldlM_along (P := fun done => P (done.map Prod.fst)) h ha fun done x hx a b ha hb => ?_
  rw [getElem?_zipIdx, Option.map_eq_some_iff] at hx
  rcases hx with ⟨y, hy, rfl⟩
  rw [map_append]
  refine hstep _ y (mem_of_getElem? hy) a b ha ?_
  rwa [length_map, ← Nat.zero_add done.length]

theorem forall₂_get {n : Nat} {x : β} (hx : xs[n]? = some x) : ∃ y, ys[n]? = some y ∧ R x y := by
  rcases List.getElem?_eq_some_iff.1 hx with ⟨hn, rfl⟩
  have hn' : n < ys.length := h.length_eq ▸ hn
  exact ⟨ys[n], getElem?_eq_getElem hn', h.get hn hn'⟩

theorem forall₂_mem {x : β} (hx : x ∈ xs) : ∃ y ∈ ys, R x y := by
  rcases mem_iff_getElem?.1 hx with ⟨n, hn⟩
  rcases forall₂_get h hn with ⟨y, hy, hxy⟩
  exact ⟨y, mem_of_getElem? hy, hxy⟩

theorem forall₂_left {P : β → Prop} (hP : ∀ x y, R x y → P x) : ∀ x ∈ xs, P x :=
  ((forall₂_and_left xs ys).1 (h.imp fun x y hxy => ⟨hP x y hxy, hxy⟩)).1

theorem forall₂_zip : Forall₂ (fun x z => z.1 = x ∧ R x z.2) xs (xs.zip ys) := by
  induction h with
  | nil => exact Forall₂.nil
  | cons hxy _ ih => exact Forall₂.cons ⟨rfl, hxy⟩ ih

theorem forall₂_zipIdx (n : Nat) :
    Forall₂ (fun x y => R x.1 y.1 ∧ x.2 = y.2) (xs.zipIdx n) (ys.zipIdx n) := by
  induction h generalizing n with
  | nil => exact Forall₂.nil
  | cons hxy _ ih =>
    rw [zipIdx_cons, zipIdx_cons]
    exact Forall₂.cons ⟨hxy, rfl⟩ (ih (n + 1))

omit h in
theorem forall₂_join {δ : Type} {S : β → δ → Prop} {T : γ → δ → Prop} {zs : List δ}
    (hR : Forall₂ R xs ys) (hS : Forall₂ S xs zs)
    (h : ∀ x ∈ xs, ∀ y ∈ ys, ∀ z, R x y → S x z → T y z) : Forall₂ T ys zs := by
  refine forall₂_iff_get.2 ⟨hR.length_eq.symm.trans hS.length_eq, fun n hy hz => ?_⟩
  have hx : n < xs.length := hR.length_eq.symm ▸ hy
  exact h _ (get_mem xs ⟨n, hx⟩) _ (get_mem ys ⟨n, hy⟩) _ (hR.get hx hy) (hS.get hx hz)

end Success

open Success

theorem Checked.require_eq_ok {condition : Bool} {u : Unit} :
    require condition = .ok u ↔ condition = true := by
  unfold require
  split <;> simp_all

theorem Checked.bound_eq_ok {index length : Nat} {u : Unit} :
    bound index length = .ok u ↔ index < length := by
  unfold bound
  split <;> simp_all

theorem entryAt_eq_ok {β : Type} {xs : List β} {i : Nat} {x : β} :
    entryAt xs i = .ok x ↔ xs[i]? = some x := by
  unfold entryAt
  split <;> simp_all

namespace Size

variable {n : Nat} {a b base exponent : Nat} {ns : List Nat}

theorem add_eq_ok (h : add a b = .ok n) : n = a + b := ofNat_eq_ok h

theorem mul_eq_ok (h : mul a b = .ok n) : n = a * b := ofNat_eq_ok h

theorem product_eq_prod (h : product ns = .ok n) : n = ns.prod := by
  rw [product_eq_ok h, prod_eq_foldl]

theorem pow_eq (h : pow base exponent = .ok n) : n = base ^ exponent := by
  unfold pow at h
  split at h
  · cases h
  · split at h
    · next hb =>
      cases h
      rcases Nat.le_one_iff_eq_zero_or_eq_one.1 hb with rfl | rfl
      · by_cases he : exponent = 0
        · rw [if_neg (by simp [he]), he, Nat.pow_zero]
        · rw [if_pos ⟨rfl, he⟩, Nat.zero_pow (Nat.pos_of_ne_zero he)]
      · rw [if_neg (by simp), Nat.one_pow]
    · exact ofNat_eq_ok h

theorem pow_bound (h : pow base exponent = .ok n) : base ≤ 1 ∨ exponent < 64 := by
  unfold pow at h
  split at h
  · cases h
  · omega

theorem ofNat_lt {m : Nat} (h : ofNat n = .ok m) : m < limit := by
  unfold ofNat at h
  split at h
  · next hlt => rwa [← Except.ok.inj h]
  · cases h

theorem product_lt (h : product ns = .ok n) (hne : ns ≠ []) : n < limit := by
  unfold product at h
  generalize 1 = start at h
  induction ns generalizing start with
  | nil => exact absurd rfl hne
  | cons x ns ih =>
    rcases foldlM_cons_eq_ok.1 h with ⟨b, hb, h⟩
    cases ns with
    | nil =>
      rw [← foldlM_nil_eq_ok.1 h]
      exact ofNat_lt hb
    | cons y ns => exact ih (cons_ne_nil y ns) b h

theorem total_eq_sum (ns : List Nat) : total ns = ns.sum := rfl

end Size
end WeakForm
