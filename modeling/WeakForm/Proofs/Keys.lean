import WeakForm.Proofs.Exact
import WeakForm.Code.Store
import WeakForm.Proofs.Success

/-!
# Equality as a key

A store recognises what it already holds by comparing keys. Numeric equality would
not do: a non-number differs from itself, so a table with one in it would be stored
anew every time. As keys, a non-number equals itself and the two zeros are equal.

For sharing to be sound this has to be an equivalence, and a number that counts as
zero has to be a zero as a key. `LawfulKeys` says so. It holds of the numbers of a
field, and it holds of floating-point numbers: there a key is the number without the
sign of its zero (`unsignedZero`). Rows and tables inherit the laws.

A store of distinct values is a list with no two equal entries, to which `place` adds
what it does not find. The last section is about such lists in general: positions
tell values apart exactly as keys do.

## Main definitions

* `LawfulKeys`: Equality as a key is an equivalence.

## Theorems

* `sameRow_equivalence`, `sameRows_equivalence`: Rows and tables as keys.
* `place_placed`, `prefix_place`, `apart_place`: What adding a value does.
* `Apart.position_eq_iff`: Values have one position if and only if they are equal.
-/

namespace WeakForm

open List

/-- Equality as a key is an equivalence, and what equals zero is a zero as a key. -/
class LawfulKeys (α : Type) [Scalar α] : Prop where
  equivalence : Equivalence fun x y : α => Scalar.same x y = true
  zero : ∀ {x : α}, Scalar.eq x 0 = true → Scalar.same x 0 = true

instance {K : Type} [Field K] [LinearOrder K] [Root K] : LawfulKeys K where
  equivalence := by
    simp only [Scalar.same_eq_true]
    exact eq_equivalence
  zero h := Scalar.same_eq_true.2 (Scalar.eq_eq_true.1 h)

section Float

open Float.Model

/-- A floating-point number without the sign of its zero. -/
def unsignedZero : UnpackedFloat → UnpackedFloat
  | .zero _ => .zero .positive
  | x => x

/-- Finite numbers of one sign are compared by exponent and then by mantissa. -/
theorem compare_then_eq_iff {s : UnpackedFloat.Sign} {m m' : Nat} {e e' : Int} {hm : 0 < m}
    {hm' : 0 < m'} : (compare e e').then (compare m m') = .eq ↔
      UnpackedFloat.finite s m e hm = UnpackedFloat.finite s m' e' hm' := by
  rw [Ordering.then_eq_eq, compare_eq_iff_eq, compare_eq_iff_eq]
  constructor
  · rintro ⟨rfl, rfl⟩
    rfl
  · intro h
    cases h
    exact ⟨rfl, rfl⟩

theorem unsignedZero_eq_iff (a b : UnpackedFloat) :
    (a.beq b || (a.isNaN && b.isNaN)) = true ↔ unsignedZero a = unsignedZero b := by
  rcases a with (_ | _) | _ | (_ | _) | ⟨_ | _, m, e, hm⟩ <;>
    rcases b with (_ | _) | _ | (_ | _) | ⟨_ | _, m', e', hm'⟩
  -- Only finite numbers of one sign need a comparison.
  case finite.negative.finite.negative =>
    change (some ((compare e e').then (compare m m')).swap == some .eq || false) = true ↔
      UnpackedFloat.finite .negative m e hm = UnpackedFloat.finite .negative m' e' hm'
    rw [Bool.or_false, beq_iff_eq, Option.some.injEq, Ordering.swap_eq_eq, compare_then_eq_iff]
  case finite.positive.finite.positive =>
    change (some ((compare e e').then (compare m m')) == some .eq || false) = true ↔
      UnpackedFloat.finite .positive m e hm = UnpackedFloat.finite .positive m' e' hm'
    rw [Bool.or_false, beq_iff_eq, Option.some.injEq, compare_then_eq_iff]
  all_goals first
    | exact ⟨fun _ => rfl, fun _ => rfl⟩
    | exact ⟨fun h => absurd h Bool.false_ne_true, fun h => by cases h⟩

/-- The two zeros are the same key, and so are all non-numbers. -/
theorem same_float_iff (x y : Float) :
    Scalar.same x y = true ↔ unsignedZero x.toModel.unpack = unsignedZero y.toModel.unpack :=
  unsignedZero_eq_iff x.toModel.unpack y.toModel.unpack

instance : LawfulKeys Float where
  equivalence := by
    simp only [same_float_iff]
    exact ⟨fun _ => rfl, Eq.symm, Eq.trans⟩
  zero {x} h := by
    have h' : (x == 0) = true := h
    exact Bool.or_eq_true_iff.2 (Or.inl h')

end Float

section

variable {α : Type} [Scalar α]

theorem sameRow_iff_forall₂ {xs ys : List α} :
    sameRow xs ys = true ↔ Forall₂ (fun x y => Scalar.same x y = true) xs ys := by
  induction xs generalizing ys with
  | nil => cases ys <;> simp [sameRow]
  | cons x xs ih => cases ys <;> simp [sameRow, ih]

theorem sameRows_iff_forall₂ {xs ys : List (List α)} :
    sameRows xs ys = true ↔ Forall₂ (fun x y => sameRow x y = true) xs ys := by
  induction xs generalizing ys with
  | nil => cases ys <;> simp [sameRows]
  | cons x xs ih => cases ys <;> simp [sameRows, ih]

end

theorem forall₂_equivalence {β : Type} {r : β → β → Prop} (h : Equivalence r) :
    Equivalence (Forall₂ r) where
  refl _ := forall₂_same.2 fun x _ => h.refl x
  symm hxy := (hxy.imp fun _ _ => h.symm).flip
  trans hxy hyz := Success.forall₂_join (hxy.flip) hyz fun _ _ _ _ _ hx hz => h.trans hx hz

section

variable {α : Type} [Scalar α] [LawfulKeys α]

theorem sameRow_equivalence : Equivalence fun xs ys : List α => sameRow xs ys = true := by
  simp only [sameRow_iff_forall₂]
  exact forall₂_equivalence LawfulKeys.equivalence

theorem sameRow_comm (xs ys : List α) : sameRow xs ys = sameRow ys xs :=
  Bool.eq_iff_iff.2 ⟨sameRow_equivalence.symm, sameRow_equivalence.symm⟩

theorem sameRow_congr {xs ys : List α} (h : sameRow xs ys = true) : sameRow xs = sameRow ys := by
  funext zs
  rw [Bool.eq_iff_iff]
  exact ⟨sameRow_equivalence.trans (sameRow_equivalence.symm h), sameRow_equivalence.trans h⟩

theorem sameRows_equivalence : Equivalence fun xs ys : List (List α) => sameRows xs ys = true := by
  simp only [sameRows_iff_forall₂]
  exact forall₂_equivalence sameRow_equivalence

end

section

variable {β : Type} {same : β → β → Bool} {x y : β} {xs ys : List β} {m n : Nat}
  (h : Equivalence fun x y => same x y = true)

theorem get_of_findIdx? {p : β → Bool} (h : xs.findIdx? p = some n) :
    ∃ x, xs[n]? = some x ∧ p x = true := by
  rcases findIdx?_eq_some_iff_getElem.1 h with ⟨hn, hp, _⟩
  exact ⟨xs[n], getElem?_eq_getElem hn, hp⟩

theorem prefix_get (h : xs <+: ys) (hx : xs[n]? = some x) : ys[n]? = some x := by
  rcases h with ⟨zs, rfl⟩
  rw [getElem?_append_left (List.getElem?_eq_some_iff.1 hx).1, hx]

/-- A value has a position in a list, up to equality as a key. -/
def Placed (same : β → β → Bool) (xs : List β) (n : Nat) (x : β) : Prop :=
  ∃ y, xs[n]? = some y ∧ same x y = true

/-- No two entries of a list are equal as keys. -/
def Apart (same : β → β → Bool) (xs : List β) : Prop :=
  xs.Pairwise fun x y => same x y = false

theorem Placed.mono (h : Placed same xs n x) (hstart : xs <+: ys) : Placed same ys n x := by
  rcases h with ⟨y, hy, hxy⟩
  exact ⟨y, prefix_get hstart hy, hxy⟩

theorem prefix_place (same : β → β → Bool) (x : β) (xs : List β) :
    xs <+: (TableStore.place same x xs).2 := by
  unfold TableStore.place
  split
  · exact List.prefix_refl xs
  · exact List.prefix_append xs [x]

include h

theorem place_placed (x : β) (xs : List β) :
    Placed same (TableStore.place same x xs).2 (TableStore.place same x xs).1 x := by
  unfold TableStore.place
  split
  · next n hn => exact get_of_findIdx? hn
  · exact ⟨x, getElem?_concat_length, h.refl x⟩

theorem apart_place (x : β) (hxs : Apart same xs) : Apart same (TableStore.place same x xs).2 := by
  unfold TableStore.place
  split
  · exact hxs
  · next hnone =>
    rw [findIdx?_eq_none_iff] at hnone
    refine pairwise_append.2 ⟨hxs, pairwise_singleton _ x, fun y hy z hz => ?_⟩
    rw [mem_singleton.1 hz, ← Bool.not_eq_true]
    intro hyx
    exact absurd (h.symm hyx) (Bool.not_eq_true _ ▸ hnone y hy)

theorem Apart.position_eq_iff (hxs : Apart same xs) (hx : Placed same xs m x)
    (hy : Placed same xs n y) : m = n ↔ same x y = true := by
  rcases hx with ⟨x', hx', hxx'⟩
  rcases hy with ⟨y', hy', hyy'⟩
  constructor
  · rintro rfl
    rw [hx', Option.some.injEq] at hy'
    exact h.trans hxx' (h.symm (hy' ▸ hyy'))
  · intro hxy
    have hsame : same x' y' = true := h.trans (h.symm hxx') (h.trans hxy hyy')
    rcases List.getElem?_eq_some_iff.1 hx' with ⟨hm, rfl⟩
    rcases List.getElem?_eq_some_iff.1 hy' with ⟨hn, rfl⟩
    -- Of two different positions one comes first, and the entries there are not equal.
    rcases Nat.lt_trichotomy m n with hlt | heq | hlt
    · exact absurd hsame (Bool.not_eq_true _ ▸ pairwise_iff_getElem.1 hxs m n hm hn hlt)
    · exact heq
    · exact absurd (h.symm hsame) (Bool.not_eq_true _ ▸ pairwise_iff_getElem.1 hxs n m hn hm hlt)

end

end WeakForm
