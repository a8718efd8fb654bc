import Mathlib.Algebra.BigOperators.Ring.List
import Mathlib.Data.List.Nodup
import Mathlib.Tactic.Ring
import WeakForm.Proofs.Success

/-!
# Row-major numbering

The tuples below given dimensions are listed in one order, and every module that
turns a tuple into a number counts along that list. The counting formulas differ in
shape: some multiply as they go, the generated code adds up strides. `linear` is the
formula they are all compared with.

`map_linear_all` is the one fact that carries the rest: numbering the list of tuples
gives the numbers in order. It says at once that the tuples are pairwise different,
that their numbers are, and that the number of a tuple is its position.

Sums over tuples come up wherever a product of sums is multiplied out. `sum_all_prod`
is the distributive law in that form, for any number of factors.

## Theorems

* `Tuple.mem_all_iff`: The tuples listed are those below the dimensions.
* `Tuple.length_all`: There are as many as the product of the dimensions.
* `Tuple.map_linear_all`: Their numbers are the numbers in order.
* `Tuple.linear_of_get`, `Tuple.get_linear`: The number of a tuple is its position.
* `Tuple.linear_injective`: Different tuples have different numbers.
* `Tuple.axesNumber_eq_linear`: Tuples of axes are numbered the same way.
* `Tuple.all_append`: Tuples below appended dimensions are appended tuples.
* `intercalate_toDigits_injective`: Separators tell numbers apart.
-/

namespace WeakForm

open List Success

variable {β γ : Type} {xs : List β} {f : β → List γ}

namespace Tuple

variable {dims tuple : List Nat} {n dim : Nat}

theorem mem_all_iff : tuple ∈ all dims ↔ Forall₂ (· < ·) tuple dims := by
  induction dims generalizing tuple with
  | nil => rw [all, mem_singleton, forall₂_nil_right_iff]
  | cons dim dims ih =>
    rw [mem_all_cons, forall₂_cons_right_iff]
    constructor
    · rintro ⟨i, hi, rest, hrest, rfl⟩
      exact ⟨i, rest, hi, ih.1 hrest, rfl⟩
    · rintro ⟨i, rest, hi, hrest, rfl⟩
      exact ⟨i, hi, rest, ih.2 hrest, rfl⟩

/-- The number of a tuple: every entry counts as many tuples as there are behind it. -/
def linear : List Nat → List Nat → Nat
  | _ :: dims, x :: xs => x * dims.prod + linear dims xs
  | _, _ => 0

theorem range_mul (count length : Nat) : range (count * length) =
      (range count).flatMap fun i => (range length).map (i * length + ·) := by
  induction count with
  | zero => rw [Nat.zero_mul, range_zero, flatMap_nil]
  | succ count ih =>
    rw [Nat.succ_mul, range_add, ih, range_succ, flatMap_append, flatMap_singleton]

theorem map_linear_all (dims : List Nat) : (all dims).map (linear dims) = range dims.prod := by
  induction dims with
  | nil => rfl
  | cons dim dims ih =>
    -- The tuples that begin with `i` have the numbers of block `i`.
    rw [all_cons, map_flatMap, prod_cons, range_mul]
    congr 1
    funext i
    rw [← ih, map_map, map_map]
    rfl

theorem length_all (dims : List Nat) : (all dims).length = dims.prod := by
  have h := congrArg List.length (map_linear_all dims)
  rwa [length_map, length_range] at h

theorem nodup_all (dims : List Nat) : (all dims).Nodup := by
  apply Nodup.of_map (linear dims)
  rw [map_linear_all]
  exact nodup_range

theorem linear_of_get (h : (all dims)[n]? = some tuple) : linear dims tuple = n := by
  have hmap : ((all dims).map (linear dims))[n]? = some (linear dims tuple) := by
    rw [getElem?_map, h, Option.map_some]
  rw [map_linear_all] at hmap
  have hlt : n < dims.prod := by
    have hn := (List.getElem?_eq_some_iff.1 hmap).1
    rwa [length_range] at hn
  rw [getElem?_range hlt, Option.some.injEq] at hmap
  exact hmap.symm

theorem get_linear (h : tuple ∈ all dims) : (all dims)[linear dims tuple]? = some tuple := by
  rcases mem_iff_getElem?.1 h with ⟨n, hn⟩
  rw [linear_of_get hn, hn]

theorem zipIdx_all (dims : List Nat) :
    (all dims).zipIdx = (all dims).map fun tuple => (tuple, linear dims tuple) := by
  apply ext_getElem
  · rw [length_zipIdx, length_map]
  · intro n hn _
    rw [length_zipIdx] at hn
    rw [getElem_zipIdx, getElem_map, linear_of_get (getElem?_eq_getElem hn), Nat.zero_add]

theorem linear_lt (h : tuple ∈ all dims) : linear dims tuple < dims.prod := by
  rw [← length_all]
  exact (List.getElem?_eq_some_iff.1 (get_linear h)).1

theorem linear_injective {a b : List Nat} (ha : a ∈ all dims) (hb : b ∈ all dims)
    (h : linear dims a = linear dims b) : a = b := by
  have hab := get_linear ha
  rw [h, get_linear hb, Option.some.injEq] at hab
  exact hab.symm

theorem foldl_eq_linear (h : tuple.length = dims.length) (start : Nat) :
    (tuple.zip dims).foldl (fun offset x => offset * x.2 + x.1) start =
      start * dims.prod + linear dims tuple := by
  induction dims generalizing tuple start with
  | nil =>
    rw [zip_nil_right, foldl_nil, prod_nil, Nat.mul_one]
    rfl
  | cons dim dims ih =>
    cases tuple with
    | nil => cases h
    | cons x tuple =>
      rw [zip_cons_cons, foldl_cons, ih (by simpa using h), linear, prod_cons]
      ring

theorem shift_eq_ok {offset x : Nat} (h : shift offset dim x = .ok n) : n = offset * dim + x := by
  rcases bind_eq_ok.1 h with ⟨m, hm, h⟩
  rw [Size.add_eq_ok h, Size.mul_eq_ok hm]

theorem number_eq_linear (h : number dims tuple = .ok n) : n = linear dims tuple := by
  -- The invariant of the loop has an arbitrary start.
  have hfold : ∀ (xs : List (Nat × Nat)) (start n : Nat),
      xs.foldlM (fun offset x => shift offset x.2 x.1) start = .ok n →
        n = xs.foldl (fun offset x => offset * x.2 + x.1) start := by
    intro xs
    induction xs with
    | nil => exact fun start n h => (foldlM_nil_eq_ok.1 h).symm
    | cons x xs ih =>
      intro start n h
      rcases foldlM_cons_eq_ok.1 h with ⟨m, hm, h⟩
      rw [ih m n h, shift_eq_ok hm, foldl_cons]
  unfold number at h
  split at h
  · next hlength => rw [hfold _ _ _ h, foldl_eq_linear hlength, Nat.zero_mul, Nat.zero_add]
  · cases h

theorem axesNumber_eq_number (dim : Nat) (tuple : List Nat) :
    axesNumber dim tuple = number (replicate tuple.length dim) tuple := by
  have hzip : tuple.zip (replicate tuple.length dim) = tuple.map fun x => (x, dim) :=
    ext_getElem (by simp) (by simp)
  unfold axesNumber number
  rw [if_pos length_replicate.symm, hzip, foldlM_map]

theorem axesNumber_eq_linear (h : axesNumber dim tuple = .ok n) :
    n = linear (replicate tuple.length dim) tuple :=
  number_eq_linear (axesNumber_eq_number dim tuple ▸ h)

/-- The tuples of axes are counted modulo a power of two, which makes no difference for the
    orders that can be tabulated. -/
theorem axesCount_eq_pow {order count : Nat} (h : axesCount dim order = .ok count)
    (hbound : dim = 1 ∨ order < 64) : count = dim ^ order := by
  have hcount := Size.pow_eq h
  rcases hbound with rfl | horder
  · rw [hcount, Nat.one_pow, Nat.one_pow]
  · rw [hcount, Nat.mod_eq_of_lt (Nat.lt_trans horder (by decide))]

theorem length_axes (dim order : Nat) : (axes dim order).length = dim ^ order := by
  unfold axes
  rw [length_all, prod_replicate]

theorem mem_axes_iff {order : Nat} :
    tuple ∈ axes dim order ↔ tuple.length = order ∧ ∀ axis ∈ tuple, axis < dim := by
  unfold axes
  rw [mem_all_iff]
  induction tuple generalizing order with
  | nil =>
    cases order with
    | zero => simp
    | succ order => simp [replicate_succ]
  | cons x tuple ih =>
    cases order with
    | zero => simp
    | succ order =>
      rw [replicate_succ, forall₂_cons, ih]
      simp only [length_cons, Nat.add_right_cancel_iff, forall_mem_cons]
      tauto

theorem get_axesNumber (h : axesNumber dim tuple = .ok n) (haxes : ∀ axis ∈ tuple, axis < dim) :
    (axes dim tuple.length)[n]? = some tuple := by
  rw [axesNumber_eq_linear h]
  exact get_linear (mem_axes_iff.2 ⟨rfl, haxes⟩)

theorem all_append (dims dims' : List Nat) :
    all (dims ++ dims') = (all dims).flatMap fun a => (all dims').map (a ++ ·) := by
  induction dims with
  | nil => simp [all]
  | cons dim dims ih =>
    rw [cons_append, all_cons, ih, all_cons, flatMap_assoc]
    congr 1
    funext i
    rw [map_flatMap, flatMap_map]
    simp only [map_map, cons_append]
    rfl

section

variable {R : Type} [CommSemiring R]

theorem sum_flatMap {β γ : Type} (xs : List β) (f : β → List γ) (g : γ → R) :
    ((xs.flatMap f).map g).sum = (xs.map fun x => ((f x).map g).sum).sum := by
  induction xs with
  | nil => rfl
  | cons x xs ih =>
    rw [flatMap_cons, map_append, sum_append, ih, map_cons, sum_cons]

/-- The distributive law: a product of sums over ranges is the sum over all tuples of the
    products. -/
theorem sum_all_prod (fs : List (Nat → R)) (dims : List Nat) (h : fs.length = dims.length) :
    ((all dims).map fun tuple => (zipWith (fun f x => f x) fs tuple).prod).sum =
      (zipWith (fun f dim => ((range dim).map f).sum) fs dims).prod := by
  induction dims generalizing fs with
  | nil => simp [all]
  | cons dim dims ih =>
    cases fs with
    | nil => cases h
    | cons f fs =>
      rw [all_cons, sum_flatMap, zipWith_cons_cons, prod_cons, ← ih fs (by simpa using h),
        ← sum_map_mul_right]
      congr 1
      apply map_congr_left
      intro i _
      rw [map_map, ← sum_map_mul_left]
      rfl

end

end Tuple

/-- The elements that those of a list lead to, with their positions. -/
def numbered {β γ : Type} (xs : List β) (f : β → List γ) : List (Nat × γ) :=
  xs.zipIdx.flatMap fun x => (f x.1).map fun y => (x.2, y)

theorem mem_numbered {n : Nat × γ} : n ∈ numbered xs f ↔ ∃ x, xs[n.1]? = some x ∧ n.2 ∈ f x := by
  unfold numbered
  constructor
  · intro h
    rcases mem_flatMap.1 h with ⟨x, hx, h⟩
    rcases mem_map.1 h with ⟨y, hy, rfl⟩
    exact ⟨x.1, mem_zipIdx_iff_getElem?.1 hx, hy⟩
  · rintro ⟨x, hx, h⟩
    exact mem_flatMap.2 ⟨(x, n.1), mem_zipIdx_iff_getElem?.2 hx, mem_map.2 ⟨n.2, h, rfl⟩⟩

theorem nodup_numbered (h : ∀ x, (f x).Nodup) : (numbered xs f).Nodup := by
  refine nodup_flatMap.2 ⟨fun x _ => (h x.1).map fun a b h => (Prod.mk.inj h).2, ?_⟩
  -- Different elements have different positions.
  have hnumbers : xs.zipIdx.Pairwise fun x y => x.2 ≠ y.2 := by
    refine pairwise_map.1 ?_
    rw [zipIdx_map_snd]
    exact nodup_range'
  refine hnumbers.imp fun {x y} hne n hx hy => ?_
  rcases mem_map.1 hx with ⟨a, _, rfl⟩
  rcases mem_map.1 hy with ⟨b, _, hb⟩
  exact hne (Prod.mk.inj hb).1.symm

theorem toDigits_injective : Function.Injective (Nat.toDigits 10) := by
  intro m n hmn
  rw [← Nat.ofDigitChars_ten_toDigits (n := m), hmn, Nat.ofDigitChars_ten_toDigits]

theorem intercalate_toDigits_injective {c : Char} (hc : c.isDigit = false) {ms ns : List Nat}
    (hms : ms ≠ []) (hns : ns ≠ [])
    (h : [c].intercalate (ms.map (Nat.toDigits 10)) = [c].intercalate (ns.map (Nat.toDigits 10))) :
    ms = ns := by
  have hdigits : ∀ ns : List Nat, ∀ l ∈ ns.map (Nat.toDigits 10), c ∉ l := by
    intro ns l hl hmem
    rcases mem_map.1 hl with ⟨n, _, rfl⟩
    rw [Nat.isDigit_of_mem_toDigits (by decide) (by decide) hmem] at hc
    cases hc
  -- The numbers are what stands between the separators.
  have hsplit := congrArg (splitOn c) h
  rw [splitOn_intercalate c (hdigits ms) (by simpa using hms),
    splitOn_intercalate c (hdigits ns) (by simpa using hns)] at hsplit
  exact map_injective_iff.2 toDigits_injective hsplit

end WeakForm
