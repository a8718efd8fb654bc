import Mathlib.Data.List.Induction
import WeakForm.Proofs.Drawing

/-!
# Handing out indices

An allocator only has two counters, and every way to ask it for an index reads one of them and
moves it on. What it answers to a request is therefore a block of consecutive identifiers that
starts at the counter and ends where the next one starts (`serve_blocks`), and the blocks of a run
join without gap or overlap. A rejected word moves nothing, and a reset forgets everything, so that
a run behind it repeats the run of a new allocator.

The indices of a multi-index are one block as well. Its smallest identifier is the first one, so
relative to that every index points at its own place in a tuple (`resolve_secondary`), wherever
the counter stood.

## Main definitions

* `Allocator.serve`, `Allocator.serveAll`: The answers to a request and to a run of requests.

## Theorems

* `Allocator.serve_blocks`: An answer is a block of identifiers.
* `Allocator.serveAll_countsUp`: Runs hand out identifiers in order and can be replayed.
-/

namespace WeakForm

open List Success

/-- What an allocator can be asked for: single indices, the index that a word stands for, one
    index per dimension, or to start again. -/
inductive Request where
  | fixed (value : Nat)
  | primary
  | secondary
  | word (s : String)
  | primaries (dims : List Nat)
  | secondaries (dims : List Nat)
  | reset
  deriving DecidableEq

/-- The indices handed out, or why there are none. -/
abbrev Answer := Except Problem (List Index)

namespace Allocator

/-- The answer to a request and the counters after it. -/
def serve (c : Allocator) : Request → Answer × Allocator
  | .fixed value => (.ok [.fixed value], c)
  | .primary => (.ok [c.primary.1], c.primary.2)
  | .secondary => (.ok [c.secondary.1], c.secondary.2)
  | .word s =>
    match c.request s with
    | .ok (i, c') => (.ok [i], c')
    | .error p => (.error p, c)
  | .primaries dims => (.ok (MultiIndex.primary c dims).1.indices, (MultiIndex.primary c dims).2)
  | .secondaries dims =>
    (.ok (MultiIndex.secondary c dims).1.indices, (MultiIndex.secondary c dims).2)
  | .reset => (.ok [], .empty)

/-- The requests of a run with their answers, and the counters after it. -/
def serveAll (c : Allocator) : List Request → List (Request × Answer) × Allocator
  | [] => ([], c)
  | r :: rs =>
    let (log, last) := (c.serve r).2.serveAll rs
    ((r, (c.serve r).1) :: log, last)

theorem serveAll_append (c : Allocator) (rs rs' : List Request) :
    c.serveAll (rs ++ rs') = ((c.serveAll rs).1 ++ ((c.serveAll rs).2.serveAll rs').1,
      ((c.serveAll rs).2.serveAll rs').2) := by
  induction rs generalizing c with
  | nil => rfl
  | cons r rs ih => simp only [cons_append, serveAll, ih]

end Allocator

/-- The indices handed out behind the last reset. -/
def sinceReset (log : List (Request × Answer)) : List Index :=
  (log.reverse.takeWhile fun x => x.1 ≠ .reset).reverse.flatMap fun x => x.2.toOption.getD []

theorem sinceReset_concat {log : List (Request × Answer)} {r : Request} (hr : r ≠ .reset)
    (answer : Answer) :
    sinceReset (log ++ [(r, answer)]) = sinceReset log ++ answer.toOption.getD [] := by
  simp [sinceReset, hr]

theorem sinceReset_reset (log : List (Request × Answer)) (answer : Answer) :
    sinceReset (log ++ [(.reset, answer)]) = [] := by
  simp [sinceReset]

def Index.primaryIds (is : List Index) : List Nat :=
  is.filterMap fun
    | .primary id => some id
    | _ => none

def Index.secondaryIds (is : List Index) : List Nat :=
  is.filterMap fun
    | .secondary id => some id
    | _ => none

open Index

namespace Allocator

variable (c : Allocator) (dims : List Nat)

/-- The indices between two states of the counters: of both kinds, those identifiers that the
    counter has passed. -/
structure Block (c c' : Allocator) (is : List Index) : Prop where
  primary : range c.primaries ++ primaryIds is = range c'.primaries
  secondary : range c.secondaries ++ secondaryIds is = range c'.secondaries

theorem block_fixed (value : Nat) : Block c c [.fixed value] :=
  ⟨append_nil _, append_nil _⟩

theorem block_primary : Block c c.primary.2 [c.primary.1] :=
  ⟨range_succ.symm, append_nil _⟩

theorem block_secondary : Block c c.secondary.2 [c.secondary.1] :=
  ⟨append_nil _, range_succ.symm⟩

theorem block_request {c c' : Allocator} {s : String} {i : Index}
    (h : c.request s = .ok (i, c')) : Block c c' [i] := by
  unfold request at h
  split at h
  · cases h
    exact block_fixed c _
  · rcases bind_eq_ok.1 h with ⟨kind, _, h⟩
    cases kind with
    | fixed => cases h
    | primary =>
      cases h
      exact block_primary c
    | secondary =>
      cases h
      exact block_secondary c

theorem block_primaries :
    Block c (MultiIndex.primary c dims).2 (MultiIndex.primary c dims).1.indices := by
  refine ⟨?_, ?_⟩ <;> simp [MultiIndex.primary, primaryIds, secondaryIds, filterMap_map, range_add]

theorem block_secondaries :
    Block c (MultiIndex.secondary c dims).2 (MultiIndex.secondary c dims).1.indices := by
  refine ⟨?_, ?_⟩ <;> simp [MultiIndex.secondary, primaryIds, secondaryIds, filterMap_map, range_add]

theorem serve_blocks {r : Request} (hr : r ≠ .reset) :
    Block c (c.serve r).2 ((c.serve r).1.toOption.getD []) := by
  cases r with
  | fixed value => exact block_fixed c value
  | primary => exact block_primary c
  | secondary => exact block_secondary c
  | word s =>
    rw [serve]
    split
    · next h => exact block_request h
    · exact ⟨append_nil _, append_nil _⟩
  | primaries dims => exact block_primaries c dims
  | secondaries dims => exact block_secondaries c dims
  | reset => exact absurd rfl hr

/-- The blocks of a run join to everything that the counters have passed since the last reset. -/
theorem serveAll_blocks (rs : List Request) :
    Block .empty (empty.serveAll rs).2 (sinceReset (empty.serveAll rs).1) := by
  induction rs using List.reverseRecOn with
  | nil => exact ⟨rfl, rfl⟩
  | append_singleton rs r ih =>
    rw [serveAll_append]
    change Block .empty ((empty.serveAll rs).2.serve r).2 (sinceReset ((empty.serveAll rs).1 ++
      [(r, ((empty.serveAll rs).2.serve r).1)]))
    by_cases hr : r = .reset
    · rw [hr, sinceReset_reset]
      exact ⟨rfl, rfl⟩
    · have hstep := serve_blocks (empty.serveAll rs).2 hr
      rw [sinceReset_concat hr]
      refine ⟨?_, ?_⟩
      · rw [primaryIds, filterMap_append, ← append_assoc]
        exact (congrArg (· ++ _) ih.primary).trans hstep.primary
      · rw [secondaryIds, filterMap_append, ← append_assoc]
        exact (congrArg (· ++ _) ih.secondary).trans hstep.secondary

theorem serve_rejected {c : Allocator} {r : Request} {p : Problem} (h : (c.serve r).1 = .error p) :
    (c.serve r).2 = c := by
  cases r with
  | word s =>
    rw [serve] at h ⊢
    split at h
    · cases h
    · rfl
  | fixed value | primary | secondary | primaries dims | secondaries dims | reset => cases h

end Allocator

theorem MultiIndex.resolve_secondary (c : Allocator) {dims tuple : List Nat} (primaries : List Nat)
    (htuple : tuple.length = (secondary c dims).1.rank) {k : Nat} {i : Index}
    (hi : (secondary c dims).1.indices[k]? = some i) : ∃ x, tuple[k]? = some x ∧
      i.resolve primaries tuple (secondary c dims).1.offset = .ok x := by
  have hk : k < dims.length := by
    have hk := (List.getElem?_eq_some_iff.1 hi).1
    rwa [secondary, length_map, length_range] at hk
  rw [secondary, getElem?_map, getElem?_range hk] at hi
  cases hi
  have hlength : k < tuple.length := by rwa [htuple, rank, secondary, length_map, length_range]
  refine ⟨tuple[k], getElem?_eq_getElem hlength, ?_⟩
  rw [Index.resolve_drawn c hk]
  exact entryAt_eq_ok.2 (getElem?_eq_getElem hlength)

/-- From a new allocator on, the identifiers of each kind that were handed out since the last reset
    are zero, one, two and so on, as many as the counter says. Rejected words change nothing, what
    follows a reset is answered as by a new allocator, and the secondary indices of a multi-index
    resolve to the entries of a tuple at their own places. -/
theorem Allocator.serveAll_countsUp (rs : List Request) :
    let log := (empty.serveAll rs).1
    let c := (empty.serveAll rs).2
    primaryIds (sinceReset log) = range c.primaries ∧
      secondaryIds (sinceReset log) = range c.secondaries ∧
      (primaryIds (sinceReset log)).Nodup ∧ (secondaryIds (sinceReset log)).Nodup ∧
      (∀ s p, (c.serve (.word s)).1 = .error p → (c.serve (.word s)).2 = c) ∧
      (∀ next, empty.serveAll (rs ++ .reset :: next) =
        (log ++ (.reset, .ok []) :: (empty.serveAll next).1, (empty.serveAll next).2)) ∧
      ∀ dims tuple primaries : List Nat, tuple.length = (MultiIndex.secondary c dims).1.rank →
        ∀ (k : Nat) (i : Index), (MultiIndex.secondary c dims).1.indices[k]? = some i →
          ∃ x, tuple[k]? = some x ∧
            i.resolve primaries tuple (MultiIndex.secondary c dims).1.offset = .ok x := by
  intro log c
  rcases serveAll_blocks rs with ⟨hprimary, hsecondary⟩
  change primaryIds (sinceReset log) = range c.primaries at hprimary
  change secondaryIds (sinceReset log) = range c.secondaries at hsecondary
  refine ⟨hprimary, hsecondary, hprimary ▸ nodup_range, hsecondary ▸ nodup_range,
    fun s p => serve_rejected, fun next => serveAll_append empty rs _, ?_⟩
  intro dims tuple primaries htuple k i
  exact MultiIndex.resolve_secondary c primaries htuple

/-- A word that is not an index, a reset in between, and a multi-index behind another index. -/
theorem Allocator.serveAll_countsUp_interleaved :
    let rs : List Request := [.secondaries [2, 2], .reset, .word "auxiliary", .secondary,
      .word "primary"]
    secondaryIds (sinceReset (empty.serveAll rs).1) = [0] ∧
      (MultiIndex.secondary (empty.serveAll rs).2 [3, 3]).1.indices = [.secondary 1, .secondary 2] ∧
      (Index.secondary 2).resolve [] [7, 8]
        (MultiIndex.secondary (empty.serveAll rs).2 [3, 3]).1.offset = .ok 8 := by
  intro rs
  rcases serveAll_countsUp rs with ⟨_, hids, _, _, _, _, hresolve⟩
  refine ⟨hids, by decide, ?_⟩
  rcases hresolve [3, 3] [7, 8] [] (by decide) 1 (.secondary 2) (by decide) with ⟨x, hx, h⟩
  cases hx
  exact h

end WeakForm
