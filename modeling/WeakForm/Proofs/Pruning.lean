import WeakForm.Listing

/-!
# Pruned listings

Pruning walks a listing from its last line upwards and collects the words of what
it keeps. Read from the top it is a fold from the right: whether a line is kept
depends on the lines kept below it and on the readers, and on nothing above it. In
this form a fact about pruned lines is an induction over the lines, and the two
lists that the walk carries along are one, since the words read so far are those of
the lines kept so far.

A line is kept or dropped as a whole, so the pruned lines are a sublist. Which of the
two happens is said once for each kind of line: a declaration is kept if its name is
read below, a statement always, and a comment if a line that is not blank follows.

## Theorems

* `Listing.lines_prune`: The lines of a pruned listing.
* `Listing.kept_sublist`: Kept lines are a sublist.
* `Listing.kept_declaration`, `Listing.kept_statement`, `Listing.kept_comment`: Lines that
  are kept.
* `Listing.kept_segment`: Statements with their comments are kept together.
-/

namespace WeakForm

open List
namespace Listing

def lineWords (lines : List Line) : List String := lines.flatMap fun line => Text.words line.text

/-- One line in front of kept lines, unless it is unused. -/
def keepLine (readers : List String) (line : Line) (kept : List Line) : List Line :=
  if isUnused (lineWords kept ++ readers) kept.head? line.text then kept else line :: kept

/-- The kept lines of a list: whether a line is kept depends on those kept below it. -/
def kept (readers : List String) (lines : List Line) : List Line :=
  lines.foldr (keepLine readers) []

variable {readers : List String} {line : Line} {above below lines : List Line}

theorem kept_cons : kept readers (line :: below) = keepLine readers line (kept readers below) := rfl

/-- The walk upwards is a fold, as the words it carries along are those of the kept lines. -/
theorem keep_eq_foldl (readers : List String) (above below : List Line) :
    keep above (lineWords below ++ readers) below =
      above.foldl (fun kept line => keepLine readers line kept) below := by
  induction above generalizing below with
  | nil => rfl
  | cons line above ih =>
    rw [keep, foldl_cons, keepLine]
    split
    · exact ih below
    · rw [← append_assoc]
      exact ih (line :: below)

theorem lines_prune (l r : Listing) : (l.prune r).lines.toList =
    (kept r.words l.lines.toList).dropWhile fun line => line.text.isEmpty := by
  have hkeep := keep_eq_foldl r.words l.lines.toList.reverse []
  rw [foldl_reverse] at hkeep
  exact congrArg (List.dropWhile fun line => line.text.isEmpty) hkeep

theorem kept_cons_cases (readers : List String) (line : Line) (below : List Line) :
    kept readers (line :: below) = line :: kept readers below ∨
      kept readers (line :: below) = kept readers below := by
  rw [kept_cons, keepLine]
  split
  · exact Or.inr rfl
  · exact Or.inl rfl

theorem kept_sublist (readers : List String) (lines : List Line) :
    (kept readers lines).Sublist lines := by
  induction lines with
  | nil => exact Sublist.slnil
  | cons line below ih =>
    rcases kept_cons_cases readers line below with h | h
    · exact h ▸ ih.cons_cons line
    · exact h ▸ ih.cons line

theorem kept_append (readers : List String) (above below : List Line) :
    ∃ front, kept readers (above ++ below) = front ++ kept readers below := by
  induction above with
  | nil => exact ⟨[], rfl⟩
  | cons line above ih =>
    rcases ih with ⟨front, hfront⟩
    rw [cons_append]
    rcases kept_cons_cases readers line (above ++ below) with h | h
    · exact ⟨line :: front, by rw [h, hfront, cons_append]⟩
    · exact ⟨front, by rw [h, hfront]⟩

theorem kept_declaration {x : String} (h : Cpp.declaredName? line.text = some x)
    (hx : x ∈ lineWords (kept readers below) ++ readers) :
    kept readers (line :: below) = line :: kept readers below := by
  rw [kept_cons, keepLine, isUnused, h]
  simp only [contains_iff_mem.2 hx, Bool.not_true, Bool.false_eq_true, if_false]

theorem kept_statement (h : Cpp.declaredName? line.text = none) (hblank : line.text.isEmpty = false)
    (hcomment : Cpp.isComment line.text = false) :
    kept readers (line :: below) = line :: kept readers below := by
  rw [kept_cons, keepLine, isUnused, h]
  simp only [hblank, hcomment, Bool.or_self, Bool.and_false, Bool.false_eq_true, if_false]

theorem kept_comment {next : Line} (h : Cpp.declaredName? line.text = none)
    (hnext : (kept readers below).head? = some next) (hblank : next.text.isEmpty = false) :
    kept readers (line :: below) = line :: kept readers below := by
  rw [kept_cons, keepLine, isUnused, h, hnext]
  simp only [Option.all_some, hblank, Bool.false_and, Bool.false_eq_true, if_false]

theorem not_mem_words_of_dropped {x : String} (h : Cpp.declaredName? line.text = some x)
    (hdropped : kept readers (line :: below) = kept readers below) :
    x ∉ lineWords (kept readers below) ++ readers := by
  intro hx
  rw [kept_declaration h hx] at hdropped
  exact cons_ne_self line (kept readers below) hdropped

theorem kept_segment {segment : List Line} {last : Line}
    (hsegment : ∀ line ∈ segment ++ [last], Cpp.declaredName? line.text = none ∧
      line.text.isEmpty = false) (hlast : Cpp.isComment last.text = false) (below : List Line) :
    kept readers (segment ++ last :: below) = segment ++ last :: kept readers below := by
  induction segment with
  | nil =>
    rcases hsegment last mem_cons_self with ⟨hdeclared, hblank⟩
    exact kept_statement hdeclared hblank hlast
  | cons line segment ih =>
    have ih := ih fun line' hline' => hsegment line' (mem_cons_of_mem line hline')
    have hhead : ∃ next, (segment ++ last :: kept readers below).head? = some next ∧
        next.text.isEmpty = false := by
      cases segment with
      | nil => exact ⟨last, rfl, (hsegment last (by simp)).2⟩
      | cons next segment => exact ⟨next, rfl, (hsegment next (by simp)).2⟩
    rcases hhead with ⟨next, hnext, hblank⟩
    rw [← ih] at hnext
    rw [cons_append, cons_append, kept_comment (hsegment line mem_cons_self).1 hnext hblank, ih]

end Listing
end WeakForm
