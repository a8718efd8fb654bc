import Mathlib.Data.List.Dedup
import Mathlib.Data.List.Sort
import Mathlib.Logic.Relation
import WeakForm.Passage.Basic

/-!
# The order of passages

Geometry code is put together from passages, and a passage may only read what is declared
above it. A list of passages is therefore completed by a depth-first visit: a passage is
appended behind all that it reads, and one that is there already is not visited again. The
visit keeps no record of what it is in the middle of. That it ends, and that no passage is
appended while a visit further out is still waiting to append it, both rest on the same
fact: what a passage reads has a lower rank.

`Visits` describes the runs of the visit as a relation. Its derivations are finite, so that
a run exists says that the visit ends, and an induction over a run has nested visits as
premises. All that is said about completed lists is what one run preserves.

The list is sorted before it is visited. Passages that occur twice are then visited twice in
a row, and the second visit does nothing, which is why only the members of the list matter.

## Theorems

* `Passage.visits_iff`: The visit has one run, and its result is what is computed.
* `Passage.Visits.ordered`: A run keeps a list in order.
* `Passage.Visits.mem_iff`: A run adds what is needed, and nothing else.
* `Passage.complete_closed_ordered`: Completed lists are closed, ordered and without
  repetitions, and depend on the members of a list only.
-/

namespace WeakForm

namespace Passage

open List Relation

/-- A passage needs itself, what it reads, what that reads, and so on. -/
def Needs : Passage → Passage → Prop := ReflTransGen fun p q => q ∈ p.required

/-- Visiting passages one after the other takes one list of passages to another. A passage that
    is in the list is passed over. Any other one is appended after those it reads have been
    visited. -/
inductive Visits : List Passage → List Passage → List Passage → Prop
  | nil (done : List Passage) : Visits [] done done
  | skip {p : Passage} {ps done out : List Passage} (h : p ∈ done) (rest : Visits ps done out) :
    Visits (p :: ps) done out
  | enter {p : Passage} {ps done inner out : List Passage} (h : p ∉ done)
    (first : Visits p.required done inner) (rest : Visits ps (inner ++ [p]) out) :
    Visits (p :: ps) done out

/-- Every passage stands once, and behind all it reads. -/
structure Ordered (ps : List Passage) : Prop where
  nodup : ps.Nodup
  behind : ∀ front p back, ps = front ++ p :: back → ∀ q ∈ p.required, q ∈ front

variable {p q : Passage} {ps qs done out : List Passage}

theorem Needs.rank_le (h : Needs p q) : q.rank ≤ p.rank := by
  induction h with
  | refl => exact Nat.le_refl _
  | tail _ hread ih =>
    have hlt := rank_required hread
    omega

theorem rank_injective (h : p.rank = q.rank) : p = q := by
  cases p <;> cases q <;> first | rfl | cases h

/-! ## Runs of the visit -/

theorem Visits.cons {inner : List Passage} (h : Visits [p] done inner) (hrest : Visits ps inner out) :
    Visits (p :: ps) done out := by
  cases h with
  | skip hp hnil =>
    cases hnil
    exact .skip hp hrest
  | enter hp first hnil =>
    cases hnil
    exact .enter hp first hrest

theorem visits_foldl_of_forall (h : ∀ p ∈ ps, ∀ done, Visits [p] done (visit done p))
    (done : List Passage) : Visits ps done (ps.foldl visit done) := by
  induction ps generalizing done with
  | nil => exact .nil done
  | cons p ps ih =>
    rw [forall_mem_cons] at h
    exact (h.1 done).cons (ih h.2 _)

/-- The visit of a passage ends. The induction is the recursion of the visit, with a hypothesis
    about each passage that is read. -/
theorem visits_visit (done : List Passage) (p : Passage) : Visits [p] done (visit done p) := by
  induction done, p using visit.induct with
  | case1 done p hp =>
    rw [visit_eq, if_pos hp]
    exact .skip hp (.nil done)
  | case2 done p hp ih =>
    rw [visit_eq, if_neg hp]
    exact .enter hp (visits_foldl_of_forall (fun q hq done => ih done ⟨q, hq⟩) done) (.nil _)

theorem visits_foldl (ps done : List Passage) : Visits ps done (ps.foldl visit done) :=
  visits_foldl_of_forall (fun p _ done => visits_visit done p) done

theorem Visits.eq_foldl (h : Visits ps done out) : out = ps.foldl visit done := by
  induction h with
  | nil done => rfl
  | skip hp _ ih => rw [ih, foldl_cons, visit_eq, if_pos hp]
  | enter hp _ _ ihfirst ihrest => rw [ihrest, ihfirst, foldl_cons, visit_eq, if_neg hp]

theorem visits_iff : Visits ps done out ↔ out = ps.foldl visit done := by
  constructor
  · exact Visits.eq_foldl
  · rintro rfl
    exact visits_foldl ps done

/-! ## What a run preserves -/

/-- Nothing is taken from the list, and it is only changed behind its end. -/
theorem Visits.prefixes (h : Visits ps done out) : done <+: out := by
  induction h with
  | nil done => exact prefix_rfl
  | skip _ _ ih => exact ih
  | enter _ _ _ ihfirst ihrest => exact ihfirst.trans ((prefix_append _ _).trans ihrest)

theorem Visits.visited (h : Visits ps done out) : ps ⊆ out := by
  induction h with
  | nil done => exact nil_subset _
  | skip hp rest ih => exact cons_subset.2 ⟨rest.prefixes.subset hp, ih⟩
  | enter _ _ rest _ ihrest =>
    exact cons_subset.2 ⟨rest.prefixes.subset (mem_append_right _ mem_cons_self), ihrest⟩

theorem Visits.needed (h : Visits ps done out) (hq : q ∈ out) :
    q ∈ done ∨ ∃ p ∈ ps, Needs p q := by
  induction h with
  | nil done => exact .inl hq
  | @skip p ps _ _ _ _ ih =>
    rcases ih hq with hdone | ⟨p', hp', hneeds⟩
    · exact .inl hdone
    · exact .inr ⟨p', mem_cons_of_mem p hp', hneeds⟩
  | @enter p ps _ _ _ _ _ _ ihfirst ihrest =>
    rcases ihrest hq with hinner | ⟨p', hp', hneeds⟩
    · rcases mem_append.1 hinner with hinner | hlast
      · rcases ihfirst hinner with hdone | ⟨p', hread, hneeds⟩
        · exact .inl hdone
        · exact .inr ⟨p, mem_cons_self, .head hread hneeds⟩
      · rw [mem_singleton.1 hlast]
        exact .inr ⟨p, mem_cons_self, .refl⟩
    · exact .inr ⟨p', mem_cons_of_mem p hp', hneeds⟩

theorem Ordered.nil : Ordered [] := by
  refine ⟨nodup_nil, fun front p back h => ?_⟩
  exact absurd h (by simp)

theorem Ordered.append (h : Ordered ps) (hp : p ∉ ps) (hread : ∀ q ∈ p.required, q ∈ ps) :
    Ordered (ps ++ [p]) := by
  refine ⟨h.nodup.append (nodup_singleton p) (disjoint_singleton.2 hp), ?_⟩
  intro front p' back heq q hq
  -- The passage in question is the new one, or it has the new one behind it.
  rcases eq_nil_or_concat back with rfl | ⟨back', last, rfl⟩
  · rcases append_inj' heq rfl with ⟨rfl, hlast⟩
    rw [← (cons.inj hlast).1] at hq
    exact hread q hq
  · rw [concat_eq_append, ← cons_append, ← append_assoc] at heq
    exact h.behind front p' back' (append_inj' heq rfl).1 q hq

/-- A run keeps a list in order. While the passages that one reads are visited, that one is not
    appended: it would need itself, and need something of lower rank for that. -/
theorem Visits.ordered (h : Visits ps done out) (hdone : Ordered done) : Ordered out := by
  induction h with
  | nil done => exact hdone
  | skip _ _ ih => exact ih hdone
  | @enter p _ _ _ _ hp first _ ihfirst ihrest =>
    refine ihrest ((ihfirst hdone).append (fun hmem => ?_) first.visited)
    rcases first.needed hmem with hmem | ⟨q, hq, hneeds⟩
    · exact hp hmem
    · have hlt := rank_required hq
      have hle := hneeds.rank_le
      omega

theorem Ordered.closed (h : Ordered ps) (hp : p ∈ ps) (hneeds : Needs p q) : q ∈ ps := by
  induction hneeds with
  | refl => exact hp
  | tail _ hread ih =>
    rcases append_of_mem ih with ⟨front, back, rfl⟩
    exact mem_append_left _ (h.behind front _ back rfl _ hread)

theorem Visits.mem_iff (h : Visits ps [] out) : q ∈ out ↔ ∃ p ∈ ps, Needs p q := by
  constructor
  · intro hq
    exact (h.needed hq).resolve_left not_mem_nil
  · rintro ⟨p, hp, hneeds⟩
    exact (h.ordered .nil).closed (h.visited hp) hneeds

/-! ## Repetitions -/

/-- Passages in the order of their ranks. -/
def Sorted (ps : List Passage) : Prop := ps.Pairwise fun p q => p.rank ≤ q.rank

theorem sorted_mergeSort (ps : List Passage) :
    Sorted (ps.mergeSort fun p q => p.rank ≤ q.rank) := by
  have hsorted : (ps.mergeSort fun p q => p.rank ≤ q.rank).Pairwise fun p q =>
      decide (p.rank ≤ q.rank) = true := by
    refine pairwise_mergeSort (fun p q r hpq hqr => ?_) (fun p q => ?_) ps
    · simp only [decide_eq_true_eq] at hpq hqr ⊢
      omega
    · simp only [Bool.or_eq_true, decide_eq_true_eq]
      omega
  exact hsorted.imp fun h => of_decide_eq_true h

theorem visit_visit (done : List Passage) (p : Passage) :
    visit (visit done p) p = visit done p := by
  have hmem : p ∈ visit done p := (visits_visit done p).visited mem_cons_self
  rw [visit_eq (visit done p), if_pos hmem]

/-- Passages that occur again in a sorted list are passed over. -/
theorem foldl_visit_dedup (h : Sorted ps) (done : List Passage) :
    ps.dedup.foldl visit done = ps.foldl visit done := by
  induction ps generalizing done with
  | nil => rfl
  | cons p ps ih =>
    rcases pairwise_cons.1 h with ⟨hfirst, hps⟩
    by_cases hp : p ∈ ps
    · rw [dedup_cons_of_mem hp, ih hps]
      cases ps with
      | nil => exact absurd hp not_mem_nil
      | cons q ps =>
        -- In a sorted list equal passages are neighbours.
        have hle : q.rank ≤ p.rank := by
          rcases mem_cons.1 hp with rfl | hp
          · exact Nat.le_refl _
          · exact (pairwise_cons.1 hps).1 p hp
        have heq : p = q := rank_injective (Nat.le_antisymm (hfirst q mem_cons_self) hle)
        rw [heq, foldl_cons, foldl_cons, foldl_cons, visit_visit]
    · rw [dedup_cons_of_notMem hp, foldl_cons, foldl_cons, ih hps]

/-- Sorted lists with the same members are visited alike. -/
theorem foldl_visit_congr (hps : Sorted ps) (hqs : Sorted qs) (h : ∀ p, p ∈ ps ↔ p ∈ qs)
    (done : List Passage) : ps.foldl visit done = qs.foldl visit done := by
  have hperm : ps.dedup ~ qs.dedup := by
    refine (perm_ext_iff_of_nodup (nodup_dedup ps) (nodup_dedup qs)).2 fun p => ?_
    rw [mem_dedup, mem_dedup, h]
  have heq : ps.dedup = qs.dedup := by
    refine hperm.eq_of_pairwise (fun p q _ _ hpq hqp => ?_) (hps.sublist (dedup_sublist ps))
      (hqs.sublist (dedup_sublist qs))
    exact rank_injective (Nat.le_antisymm hpq hqp)
  rw [← foldl_visit_dedup hps, heq, foldl_visit_dedup hqs]

/-- Completing a list of passages is one finite run of the visit. It leads to the passages that
    those of the list need, without repetitions and each behind all it reads, and it leads there
    from every list with the same members. -/
theorem complete_closed_ordered (ps : List Passage) :
    (∀ out, Visits (ps.mergeSort fun p q => p.rank ≤ q.rank) [] out ↔ out = complete ps) ∧
      (complete ps).Nodup ∧
      (∀ q, q ∈ complete ps ↔ ∃ p ∈ ps, Needs p q) ∧
      (∀ front p back, complete ps = front ++ p :: back → ∀ q ∈ p.required, q ∈ front) ∧
      ∀ qs : List Passage, (∀ p, p ∈ qs ↔ p ∈ ps) → complete qs = complete ps := by
  have hrun : Visits (ps.mergeSort fun p q => p.rank ≤ q.rank) [] (complete ps) :=
    visits_foldl _ []
  have hordered := hrun.ordered .nil
  refine ⟨fun out => visits_iff, hordered.nodup, fun q => ?_, hordered.behind, fun qs hqs => ?_⟩
  · rw [hrun.mem_iff]
    simp only [mem_mergeSort]
  · refine foldl_visit_congr (sorted_mergeSort qs) (sorted_mergeSort ps) (fun p => ?_) []
    rw [mem_mergeSort, mem_mergeSort, hqs]

/-- A normal that is asked for twice needs three passages, in one order. -/
theorem complete_closed_ordered_normal :
    (∀ p, p ∈ [facetNormal, jacobian, facetNormal] ↔ p ∈ [jacobian, facetNormal]) ∧
      complete [facetNormal, jacobian, facetNormal] = complete [jacobian, facetNormal] ∧
      Needs facetNormal facetDeterminant ∧
      facetDeterminant ∈ complete [jacobian, facetNormal] := by
  have hsame : ∀ p, p ∈ [facetNormal, jacobian, facetNormal] ↔ p ∈ [jacobian, facetNormal] := by
    intro p
    cases p <;> decide
  have hneeds : Needs facetNormal facetDeterminant := .single mem_cons_self
  rcases complete_closed_ordered [jacobian, facetNormal] with ⟨_, _, hmem, _, hcongr⟩
  exact ⟨hsame, hcongr _ hsame, hneeds, (hmem _).2 ⟨facetNormal, by decide, hneeds⟩⟩

end Passage
end WeakForm
