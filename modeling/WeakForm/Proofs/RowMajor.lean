import WeakForm.Proofs.SoundTensors

/-!
# One numbering

Tuples are listed by nesting ranges, and numbered by formulas: with the dimensions of a
multi-index, with one dimension for all axes of a derivative, and in two levels for the
entries of a reference tensor. All of them are the position in the list, for any rank and
for empty dimensions as well, and none leaves its word while the running products of the
dimensions fit.

## Theorems

* `Tuple.increasing_all`: Tuples are listed in lexicographic order.
* `Tuple.isRowMajor_all`: Listing and numbering are inverse to each other.
* `MultiIndex.numberings_agree`: The numberings of tuples, derivatives and entries.
-/

namespace WeakForm

open List Success Ensures

namespace Tuple

theorem increasing_all (dims : List Nat) : (all dims).Pairwise (· < ·) := by
  induction dims with
  | nil => exact pairwise_singleton _ _
  | cons dim dims ih =>
    rw [all_cons, pairwise_flatMap]
    refine ⟨fun i _ => pairwise_map.2 (ih.imp fun h => cons_lt_cons_self.2 h), ?_⟩
    -- Tuples of different blocks differ in their first entry.
    refine pairwise_lt_range.imp fun {i j} hij x hx y hy => ?_
    rcases mem_map.1 hx with ⟨x', _, rfl⟩
    rcases mem_map.1 hy with ⟨y', _, rfl⟩
    exact cons_lt_cons_iff.2 (.inl hij)

/-- The tuples below dimensions, each of them once and in lexicographic order, with numbers that
    tell their positions. -/
structure IsRowMajor (dims : List Nat) (count : Nat) (tuples : List (List Nat))
    (number : List Nat → Checked Nat) : Prop where
  length : tuples.length = count
  increasing : tuples.Pairwise (· < ·)
  members : ∀ tuple, tuple ∈ tuples ↔ Forall₂ (· < ·) tuple dims
  number_get : ∀ n < count, ∃ tuple, tuples[n]? = some tuple ∧ number tuple = .ok n
  get_number : ∀ tuple ∈ tuples, ∃ n, number tuple = .ok n ∧ tuples[n]? = some tuple

variable {dims : List Nat} {n : Nat}

theorem isRowMajor_all (h : count dims = .ok n) : IsRowMajor dims n (all dims) (number dims) := by
  have hlength : (all dims).length = n := (length_all dims).trans (Size.product_eq_prod h).symm
  refine ⟨hlength, increasing_all dims, fun _ => mem_all_iff, fun k hk => ?_, fun tuple htuple => ?_⟩
  · have hget := getElem?_eq_getElem (hlength.symm ▸ hk)
    refine ⟨_, hget, ?_⟩
    rw [number_of_product h (mem_of_getElem? hget), linear_of_get hget]
  · exact ⟨_, number_of_product h htuple, get_linear htuple⟩

theorem axesCount_eq_count {dim order : Nat} (horder : order < 2 ^ 32)
    (h : count (replicate order dim) = .ok n) : axesCount dim order = .ok n := by
  have hprod := Size.product_eq_prod h
  rw [prod_replicate] at hprod
  rcases Nat.eq_zero_or_pos dim with rfl | hpos
  · have hmod : order % Nat.pow 2 32 = order := Nat.mod_eq_of_lt horder
    rw [axesCount, hmod, hprod]
    cases order <;> simp [Size.pow]
  · subst hprod
    refine axesCount_of_lt hpos horder ?_
    cases order with
    | zero => exact (by decide : 1 < Size.limit)
    | succ order => exact Size.product_lt h (by simp [replicate_succ])

end Tuple

variable {α : Type} [Scalar α]

/-- All row-major numberings agree, if the running products of the dimensions fit. Tuples are
    listed in lexicographic order and numbered by their positions. Derivatives are tuples with
    one dimension for all axes, counted by a power and numbered by a loop of their own. The
    entries of a reference tensor are found where they were put; the tensor exists if its
    entries can be stored. -/
theorem MultiIndex.numberings_agree {i : MultiIndex} {n : Nat} (h : i.count = .ok n) :
    Tuple.IsRowMajor i.dims n i.tuples i.position ∧
      (∀ dim order m, Tuple.count (replicate order dim) = .ok m →
        Tuple.axes dim order = Tuple.all (replicate order dim) ∧
        Tuple.IsRowMajor (replicate order dim) m (Tuple.axes dim order) (Tuple.axesNumber dim) ∧
        (order < 2 ^ 32 → Tuple.axesCount dim order = .ok m)) ∧
      ∀ (a : MultiIndex) (f : List Nat → List Nat → α) (size : Nat),
        ReferenceTensor.size i a = .ok size → size < Table.capacity →
        ∃ t, ReferenceTensor.ofFn i a (fun it at' => .ok (f it at')) = .ok t ∧
          ∀ it ∈ i.tuples, ∀ at' ∈ a.tuples, t.entry it at' = f it at' := by
  refine ⟨Tuple.isRowMajor_all h, fun dim order m hm => ⟨rfl, ?_, ?_⟩, fun a f size hsize hlt => ?_⟩
  · have hrow := Tuple.isRowMajor_all hm
    have hnumber : ∀ tuple ∈ Tuple.axes dim order, Tuple.axesNumber dim tuple =
        Tuple.number (replicate order dim) tuple := by
      intro tuple htuple
      rw [Tuple.axesNumber_eq_number, (Tuple.mem_axes_iff.1 htuple).1]
    refine ⟨hrow.length, hrow.increasing, hrow.members, fun k hk => ?_, fun tuple htuple => ?_⟩
    · rcases hrow.number_get k hk with ⟨tuple, hget, hk⟩
      exact ⟨tuple, hget, (hnumber tuple (mem_of_getElem? hget)).trans hk⟩
    · rw [hnumber tuple htuple]
      exact hrow.get_number tuple htuple
  · exact fun horder => Tuple.axesCount_eq_count horder hm
  · rcases exists_ok (ReferenceTensor.sure_ofFn (f := fun it at' => .ok (f it at')) hsize hlt
      fun _ _ _ _ => trivial) with ⟨t, ht, _⟩
    refine ⟨t, ht, fun it hit at' hat => ?_⟩
    exact (Except.ok.inj ((ReferenceTensor.entry_ofFn ht).2.2 it hit at' hat)).symm

/-- Two primary indices, with two and three values. -/
def sixEntries : MultiIndex := ⟨[.primary 0, .primary 1], [2, 3]⟩

/-- The last of six tuples, derivatives along the axes of nothing, and an entry that is read
    back. -/
theorem MultiIndex.numberings_agree_sixEntries :
    sixEntries.count = .ok 6 ∧ sixEntries.tuples.length = 6 ∧
      (∃ tuple, sixEntries.tuples[5]? = some tuple ∧ sixEntries.position tuple = .ok 5) ∧
      Tuple.axesCount 0 2 = .ok 0 ∧ (Tuple.axes 0 2).length = 0 ∧
      ∃ t, ReferenceTensor.ofFn sixEntries .empty (fun it _ => .ok (it.sum : ℚ)) = .ok t ∧
        t.entry [1, 2] [] = 3 := by
  have hcount : sixEntries.count = .ok 6 := rfl
  rcases MultiIndex.numberings_agree (α := ℚ) hcount with ⟨hrow, haxes, hentries⟩
  rcases haxes 0 2 0 rfl with ⟨_, hnone, hpower⟩
  rcases hentries .empty (fun it _ => it.sum) 6 rfl (by decide) with ⟨t, ht, hentry⟩
  refine ⟨hcount, hrow.length, hrow.number_get 5 (by decide), hpower (by decide), hnone.length,
    t, ht, ?_⟩
  rw [hentry [1, 2] (by decide) [] (by decide)]
  rfl

end WeakForm
