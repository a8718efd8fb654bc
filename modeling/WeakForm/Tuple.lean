import WeakForm.Fault

/-!
# Tuples in row-major order

Entries of tensors, combinations of derivatives and positions in generated
arrays are all numbered the same way: the last index runs fastest. This module
holds that numbering once.

## Main definitions

* `Tuple.count`: Their number.
* `Tuple.number`: The position of a tuple.

## Theorems

* `Tuple.all_cons`: The first entry runs slowest.
* `Tuple.mem_all_cons`: A tuple is an entry below the first dimension and a tuple
  below the others.
* `Tuple.length_of_mem_all`: Tuples have one entry per dimension.
-/

namespace WeakForm
namespace Tuple

/-- All tuples whose entries lie below the given dimensions, in row-major order. There is one
    tuple without entries. A range is not run through if there is nothing behind it. -/
def all : List Nat → List (List Nat)
  | [] => [[]]
  | dim :: dims =>
    match all dims with
    | [] => []
    | tuples => (List.range dim).flatMap fun i => tuples.map (i :: ·)

theorem all_cons (dim : Nat) (dims : List Nat) :
    all (dim :: dims) = (List.range dim).flatMap fun i => (all dims).map (i :: ·) := by
  rw [all]
  split
  · next h => simp [h]
  · next h => rfl

theorem mem_all_cons {dim : Nat} {dims tuple : List Nat} :
    tuple ∈ all (dim :: dims) ↔ ∃ i < dim, ∃ rest ∈ all dims, i :: rest = tuple := by
  simp only [all_cons, List.mem_flatMap, List.mem_range, List.mem_map]

theorem length_of_mem_all {dims tuple : List Nat} (h : tuple ∈ all dims) :
    tuple.length = dims.length := by
  induction dims generalizing tuple with
  | nil =>
    rw [all, List.mem_singleton] at h
    rw [h]
  | cons dim dims ih =>
    obtain ⟨i, _, rest, hr, rfl⟩ := mem_all_cons.1 h
    rw [List.length_cons, List.length_cons, ih hr]

/-- The number of tuples below the given dimensions. -/
def count (dims : List Nat) : Checked Nat := Size.product dims

/-- One more digit of a position: `offset * dim + value`. -/
def shift (offset dim value : Nat) : Checked Nat := do
  Size.add (← Size.mul offset dim) value

/-- The position of a tuple in row-major order. The tuple must have one entry per dimension;
    the entries themselves are not compared with the dimensions. -/
def number (dims tuple : List Nat) : Checked Nat :=
  if tuple.length = dims.length then
    (List.zip tuple dims).foldlM (fun offset (value, dim) => shift offset dim value) 0
  else .error .unmet

/-- All ordered tuples of `order` axes below `dim`, in lexicographic order. -/
def axes (dim order : Nat) : List (List Nat) := all (List.replicate order dim)

/-- The position of a tuple of axes among all tuples of its length. -/
def axesNumber (dim : Nat) (tuple : List Nat) : Checked Nat :=
  tuple.foldlM (fun offset axis => shift offset dim axis) 0

/-- The number of tuples of `order` axes. Orders are counted modulo `2 ^ 32`. -/
def axesCount (dim order : Nat) : Checked Nat := Size.pow dim (order % Nat.pow 2 32)

/-- The bound of the number of tuples in a list: three words each must fit the address space. -/
def capacity : Nat := Nat.pow 2 63 / 24 + 1

/-- Requires that all tuples of `order` axes can be listed. -/
def reserve (dim order : Nat) : Checked Unit := do
  Checked.bound (← Size.pow dim order) capacity

end Tuple
end WeakForm
