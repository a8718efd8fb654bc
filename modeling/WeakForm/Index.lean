import WeakForm.Problem
import WeakForm.Tuple

/-!
# Indices of tensors

An element tensor is a contraction over secondary indices that leaves its
primary indices free. An index is fixed to a value, or primary or secondary with
an identifier that tells which entry of a tuple it stands for. Identifiers of
primary and secondary indices are handed out in order by an allocator, which
keeps one counter for each kind.

The secondary indices of one term are numbered on from those of the terms before
it, so they are resolved relative to the first identifier of their own
multi-index.

## Main definitions

* `Index`: A fixed, primary or secondary index.
-/

namespace WeakForm

/-- The kind of an index. -/
inductive IndexKind where
  | fixed
  | primary
  | secondary
  deriving DecidableEq, Repr

namespace IndexKind

def ofName (s : String) : Except Problem IndexKind :=
  match s with
  | "fixed" => .ok fixed
  | "primary" => .ok primary
  | "secondary" => .ok secondary
  | _ => .error (.unknownIndexKind s)

end IndexKind

/-- An index of a tensor. -/
inductive Index where
  | fixed (value : Nat)
  | primary (id : Nat)
  | secondary (id : Nat)
  deriving DecidableEq, Repr

namespace Index

def kind : Index → IndexKind
  | fixed _ => .fixed
  | primary _ => .primary
  | secondary _ => .secondary

/-- The value of an index. Secondary identifiers count from `offset`. -/
def resolve (i : Index) (primaries secondaries : List Nat) (offset : Nat) : Checked Nat :=
  match i with
  | fixed value => .ok value
  | primary id => entryAt primaries id
  | secondary id => do entryAt secondaries (← Size.sub id offset)

/-- Primary indices are written with `i`, secondary ones with `a`. -/
def text : Index → String
  | fixed value => toString value
  | primary id => s!"i{id}"
  | secondary id => s!"a{id}"

end Index

/-- The numbers of primary and secondary indices handed out so far. -/
structure Allocator where
  primaries : Nat := 0
  secondaries : Nat := 0
  deriving DecidableEq, Repr

namespace Allocator

def empty : Allocator := {}

def primary (c : Allocator) : Index × Allocator :=
  (.primary c.primaries, { c with primaries := c.primaries + 1 })

def secondary (c : Allocator) : Index × Allocator :=
  (.secondary c.secondaries, { c with secondaries := c.secondaries + 1 })

/-- A decimal number below the bound of sizes, possibly behind a plus sign. -/
def numeral? (s : String) : Option Nat :=
  let digits :=
    match s.toList with
    | '+' :: cs => cs
    | cs => cs
  if digits.isEmpty || !digits.all Char.isDigit then none
  else
    let n := digits.foldl (fun n c => 10 * n + (c.toNat - '0'.toNat)) 0
    if n < Size.limit then some n else none

/-- Hands out the index that a word asks for: a number stands for a fixed index, the names of
    the free kinds for a fresh index of that kind. -/
def request (c : Allocator) (word : String) : Except Problem (Index × Allocator) :=
  match numeral? word with
  | some value => .ok (.fixed value, c)
  | none => do
    match ← IndexKind.ofName word with
    | .primary => return c.primary
    | .secondary => return c.secondary
    | .fixed => .error (.unknownIndexKind word)

end Allocator

/-- A sequence of indices together with the dimension each of them runs through. -/
structure MultiIndex where
  indices : List Index
  dims : List Nat
  deriving DecidableEq, Repr

namespace MultiIndex

/-- The multi-index of given indices and dimensions, which must be equally many. -/
def of (indices : List Index) (dims : List Nat) : Checked MultiIndex :=
  if indices.length = dims.length then .ok ⟨indices, dims⟩ else .error .unmet

/-- Hands out one primary index per dimension. -/
def primary (c : Allocator) (dims : List Nat) : MultiIndex × Allocator :=
  (⟨(List.range dims.length).map fun k => .primary (c.primaries + k), dims⟩,
    { c with primaries := c.primaries + dims.length })

/-- Hands out one secondary index per dimension. -/
def secondary (c : Allocator) (dims : List Nat) : MultiIndex × Allocator :=
  (⟨(List.range dims.length).map fun k => .secondary (c.secondaries + k), dims⟩,
    { c with secondaries := c.secondaries + dims.length })

def empty : MultiIndex := ⟨[], []⟩

def rank (m : MultiIndex) : Nat := m.indices.length

/-- The number of tuples in range. -/
def count (m : MultiIndex) : Checked Nat := Tuple.count m.dims

/-- Requires that all tuples in range can be listed. -/
def reserve (m : MultiIndex) : Checked Unit := do Checked.bound (← m.count) Tuple.capacity

/-- The tuples in range, in row-major order. -/
def tuples (m : MultiIndex) : List (List Nat) := Tuple.all m.dims

/-- The row-major position of a tuple. -/
def position (m : MultiIndex) (tuple : List Nat) : Checked Nat := Tuple.number m.dims tuple

/-- The smallest secondary identifier, zero if there is none. -/
def offset (m : MultiIndex) : Nat :=
  let ids := m.indices.filterMap fun
    | .secondary id => some id
    | _ => none
  ids.min?.getD 0

end MultiIndex
end WeakForm
