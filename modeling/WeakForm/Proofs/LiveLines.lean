import Mathlib.Data.List.Chain
import Mathlib.Data.List.DropRight
import WeakForm.Proofs.Scope

/-!
# The lines that survive pruning

Pruning decides line by line, from the last line upwards, and each decision changes what
the lines above it see: a kept line reads more names, and it ends the gap that comments
and blank lines are measured by. What comes out is said here without the walk. Some lines
are alive, and which ones they are is a condition that relates each line to the living
lines below it and to the readers.

A declaration is alive if its name is read, by a reader or by a living line further down.
So a name that is read only through another declaration counts exactly if that declaration
is alive itself. Statements are always alive. Comments and blank lines are alive only if
the next living line is there and is not blank.

Lines are told apart by their positions, since the same text may stand in a listing twice
with different fates. A name is read where it stands as a whole word, and `mem_words_iff`
says what that means for the characters around it.

## Theorems

* `Listing.alive_living`, `Listing.Alive.trim`: The lines that pruning keeps are alive.
* `Listing.kept_kept`: Kept lines are kept again.
* `Listing.prune_keeps_alive`: Pruning keeps the living lines.
-/

namespace WeakForm

open List

theorem Cpp.of_declaredName? {line x : String} (h : declaredName? line = some x) :
    line.isEmpty = false ∧ isComment line = false := by
  have hhead : ∃ c cs, line.toList = c :: cs ∧ Text.isBlank c = false ∧ c ≠ '/' := by
    unfold declaredName? at h
    simp only at h
    cases hcs : line.toList with
    | nil => simp [hcs, Text.behind?] at h
    | cons c cs =>
      refine ⟨c, cs, rfl, ?_⟩
      by_cases hconst : c = 'c'
      · subst hconst
        decide
      · by_cases hdouble : c = 'd'
        · subst hdouble
          decide
        · simp [hcs, Text.behind?, Ne.symm hconst, Ne.symm hdouble] at h
  rcases hhead with ⟨c, cs, hcs, hblank, hslash⟩
  constructor
  · rw [Bool.eq_false_iff]
    intro hempty
    rw [String.isEmpty_iff] at hempty
    subst hempty
    simp at hcs
  · rw [isComment, hcs, dropWhile_cons_of_neg (by rw [hblank]; exact Bool.false_ne_true),
      Text.behind?, if_neg (Ne.symm hslash)]
    rfl

/-- A name stands in a line as a whole word. -/
def Line.Mentions (line : Line) (x : String) : Prop :=
  Text.oneWord x = true ∧ ∃ front back, line.text = front ++ x ++ back ∧
    Text.closes front = true ∧ Text.opens back = true

theorem Line.mentions_iff {line : Line} {x : String} :
    line.Mentions x ↔ x ∈ Text.words line.text := Text.mem_words_iff.symm

theorem Line.Mentions.not_blank {line : Line} {x : String} (h : line.Mentions x) :
    line.text.isEmpty = false := by
  rw [Line.mentions_iff] at h
  rw [Bool.eq_false_iff]
  intro hblank
  rw [String.isEmpty_iff.1 hblank] at h
  exact not_mem_nil h

namespace Listing

/-- The lines at the marked positions. -/
def marked : (Nat → Bool) → List Line → List Line
  | _, [] => []
  | alive, line :: below =>
    if alive 0 then line :: marked (fun n => alive (n + 1)) below
    else marked (fun n => alive (n + 1)) below

/-- The positions of living lines among the given lines. -/
structure Alive (readers lines : List Line) (alive : Nat → Bool) : Prop where
  /-- A declaration is alive if a reader or a living line below it mentions its name. -/
  declaration : ∀ n line x, lines[n]? = some line → Cpp.declaredName? line.text = some x →
    (alive n = true ↔ (∃ reader ∈ readers, reader.Mentions x) ∨
      ∃ k reader, n < k ∧ lines[k]? = some reader ∧ alive k = true ∧ reader.Mentions x)
  /-- All lines are alive that are neither declarations nor comments nor blank. -/
  statement : ∀ n line, lines[n]? = some line → Cpp.declaredName? line.text = none →
    Cpp.isComment line.text = false → line.text.isEmpty = false → alive n = true
  /-- The next living line below a living comment or blank line is not blank. -/
  comment : ∀ n line, lines[n]? = some line →
    Cpp.isComment line.text = true ∨ line.text.isEmpty = true → alive n = true →
    ∃ k next, n < k ∧ lines[k]? = some next ∧ alive k = true ∧
      (∀ j, n < j → j < k → alive j = false) ∧ next.text.isEmpty = false

/-- Lines that do not start with a blank line, do not end with a blank line or a comment, and do
    not have two blank lines in a row. -/
structure Tidy (lines : List Line) : Prop where
  first : ∀ line ∈ lines.head?, line.text.isEmpty = false
  last : ∀ line ∈ lines.getLast?, line.text.isEmpty = false ∧ Cpp.isComment line.text = false
  apart : lines.IsChain fun a b => a.text.isEmpty = false ∨ b.text.isEmpty = false

theorem marked_sublist (alive : Nat → Bool) (lines : List Line) :
    (marked alive lines).Sublist lines := by
  induction lines generalizing alive with
  | nil => exact Sublist.slnil
  | cons line below ih =>
    rw [marked]
    split
    · exact (ih _).cons_cons line
    · exact (ih _).cons line

variable {alive : Nat → Bool} {lines : List Line} {line : Line} {readers : List String} {x : String}
  {n : Nat}

theorem mem_marked : line ∈ marked alive lines ↔ ∃ n, lines[n]? = some line ∧ alive n = true := by
  induction lines generalizing alive with
  | nil => simp [marked]
  | cons top below ih =>
    -- The first position is the line itself, the others are those of the lines below it.
    have hsplit : (∃ n, (top :: below)[n]? = some line ∧ alive n = true) ↔
        (top = line ∧ alive 0 = true) ∨
          ∃ n, below[n]? = some line ∧ alive (n + 1) = true := by
      constructor
      · rintro ⟨n, hn, halive⟩
        cases n with
        | zero => exact Or.inl ⟨Option.some.inj hn, halive⟩
        | succ n => exact Or.inr ⟨n, hn, halive⟩
      · rintro (⟨rfl, halive⟩ | ⟨n, hn, halive⟩)
        · exact ⟨0, rfl, halive⟩
        · exact ⟨n + 1, hn, halive⟩
    rw [hsplit, marked]
    split
    · next htop => rw [mem_cons, ih, htop, eq_comm (a := line), and_iff_left rfl]
    · next htop => rw [ih, Bool.eq_false_iff.2 htop]; simp

theorem head?_marked (h : (marked alive lines).head? = some line) :
    ∃ n, lines[n]? = some line ∧ alive n = true ∧ ∀ j < n, alive j = false := by
  induction lines generalizing alive with
  | nil => exact absurd h (by simp [marked])
  | cons top below ih =>
    rw [marked] at h
    split at h
    · next htop => exact ⟨0, h, htop, fun _ hj => absurd hj (Nat.not_lt_zero _)⟩
    · next htop =>
      rcases ih h with ⟨n, hn, halive, hfirst⟩
      refine ⟨n + 1, hn, halive, fun j hj => ?_⟩
      cases j with
      | zero => exact Bool.eq_false_iff.2 htop
      | succ j => exact hfirst j (Nat.lt_of_succ_lt_succ hj)

/-- The positions of the kept lines. -/
def living (readers : List String) : List Line → Nat → Bool
  | [], _ => false
  | line :: below, 0 =>
    !isUnused (lineWords (kept readers below) ++ readers) (kept readers below).head? line.text
  | _ :: below, n + 1 => living readers below n

theorem marked_living (readers : List String) (lines : List Line) :
    marked (living readers lines) lines = kept readers lines := by
  induction lines with
  | nil => rfl
  | cons line below ih =>
    have hrest : (fun n => living readers (line :: below) (n + 1)) = living readers below := rfl
    rw [marked, hrest, ih, kept_cons, keepLine, living]
    cases isUnused (lineWords (kept readers below) ++ readers) (kept readers below).head?
      line.text <;> rfl

theorem mem_lineWords_kept :
    x ∈ lineWords (kept readers lines) ↔ ∃ n reader, lines[n]? = some reader ∧
      living readers lines n = true ∧ reader.Mentions x := by
  rw [← marked_living, lineWords, mem_flatMap]
  simp only [mem_marked, Line.mentions_iff]
  constructor
  · rintro ⟨reader, ⟨n, hn, halive⟩, hx⟩
    exact ⟨n, reader, hn, halive, hx⟩
  · rintro ⟨n, reader, hn, halive, hx⟩
    exact ⟨reader, ⟨n, hn, halive⟩, hx⟩

theorem mem_words_iff {l : Listing} :
    x ∈ l.words ↔ ∃ reader ∈ l.lines.toList, reader.Mentions x := by
  simp only [words, mem_flatMap, Line.mentions_iff]

/-- One more line at the top. Its fate depends on the living lines below it, and theirs does not
    depend on it. -/
theorem Alive.cons {readers below : List Line} {top : Line}
    (h : Alive readers below fun n => alive (n + 1))
    (hdeclaration : ∀ x, Cpp.declaredName? top.text = some x → (alive 0 = true ↔
      (∃ reader ∈ readers, reader.Mentions x) ∨
        ∃ k reader, below[k]? = some reader ∧ alive (k + 1) = true ∧ reader.Mentions x))
    (hstatement : Cpp.declaredName? top.text = none → Cpp.isComment top.text = false →
      top.text.isEmpty = false → alive 0 = true)
    (hcomment : Cpp.isComment top.text = true ∨ top.text.isEmpty = true → alive 0 = true →
      ∃ k next, below[k]? = some next ∧ alive (k + 1) = true ∧
        (∀ j < k, alive (j + 1) = false) ∧ next.text.isEmpty = false) :
    Alive readers (top :: below) alive := by
  refine ⟨fun n line x hn hx => ?_, fun n line hn => ?_, fun n line hn hgap halive => ?_⟩
  · cases n with
    | zero =>
      obtain rfl := Option.some.inj hn
      refine (hdeclaration x hx).trans (or_congr_right ⟨?_, ?_⟩)
      · rintro ⟨k, reader, hk⟩
        exact ⟨k + 1, reader, Nat.succ_pos k, hk⟩
      · rintro ⟨_ | k, reader, hpos, hk⟩
        · exact absurd hpos (Nat.lt_irrefl 0)
        · exact ⟨k, reader, hk⟩
    | succ n =>
      refine (h.declaration n line x hn hx).trans (or_congr_right ⟨?_, ?_⟩)
      · rintro ⟨k, reader, hlt, hk⟩
        exact ⟨k + 1, reader, Nat.succ_lt_succ hlt, hk⟩
      · rintro ⟨_ | k, reader, hlt, hk⟩
        · exact absurd hlt (Nat.not_lt_zero _)
        · exact ⟨k, reader, Nat.lt_of_succ_lt_succ hlt, hk⟩
  · cases n with
    | zero =>
      obtain rfl := Option.some.inj hn
      exact hstatement
    | succ n => exact h.statement n line hn
  · cases n with
    | zero =>
      obtain rfl := Option.some.inj hn
      rcases hcomment hgap halive with ⟨k, next, hk, hlive, hfirst, hblank⟩
      refine ⟨k + 1, next, Nat.succ_pos k, hk, hlive, fun j hj hjk => ?_, hblank⟩
      obtain ⟨j, rfl⟩ := Nat.exists_eq_succ_of_ne_zero (Nat.ne_of_gt hj)
      exact hfirst j (Nat.lt_of_succ_lt_succ hjk)
    | succ n =>
      rcases h.comment n line hn hgap halive with ⟨k, next, hlt, hk, hlive, hfirst, hblank⟩
      refine ⟨k + 1, next, Nat.succ_lt_succ hlt, hk, hlive, fun j hj hjk => ?_, hblank⟩
      obtain ⟨j, rfl⟩ := Nat.exists_eq_succ_of_ne_zero (Nat.ne_of_gt (Nat.zero_lt_of_lt hj))
      exact hfirst j (Nat.lt_of_succ_lt_succ hj) (Nat.lt_of_succ_lt_succ hjk)

/-- The next kept line below a comment or blank line that is kept is not blank. -/
theorem exists_next {used : List String} {next : Option Line} {line : String}
    (hgap : Cpp.isComment line = true ∨ line.isEmpty = true) (h : isUnused used next line = false) :
    ∃ below, next = some below ∧ below.text.isEmpty = false := by
  have hdeclared : Cpp.declaredName? line = none := by
    cases hname : Cpp.declaredName? line with
    | none => rfl
    | some x =>
      rcases Cpp.of_declaredName? hname with ⟨hblank, hcomment⟩
      rw [hblank, hcomment] at hgap
      exact absurd hgap (by decide)
  have hunused : (line.isEmpty || Cpp.isComment line) = true := by
    rw [Bool.or_eq_true, or_comm]
    exact hgap
  rw [isUnused, hdeclared, hunused] at h
  cases next with
  | none => cases h
  | some below => exact ⟨below, rfl, by simpa using h⟩

theorem alive_living (r : Listing) (lines : List Line) :
    Alive r.lines.toList lines (living r.words lines) := by
  induction lines with
  | nil => exact ⟨fun _ _ _ h => by simp at h, fun _ _ h => by simp at h, fun _ _ h => by simp at h⟩
  | cons top below ih =>
    refine Alive.cons ih (fun x hx => ?_) (fun hdeclared hcomment hblank => ?_)
      fun hgap halive => ?_
    · have hused : living r.words (top :: below) 0 = true ↔
          x ∈ lineWords (kept r.words below) ++ r.words := by
        rw [living, isUnused, hx, Bool.not_not, contains_iff_mem]
      rw [hused, mem_append, mem_lineWords_kept, mem_words_iff, or_comm]
      rfl
    · rw [living, isUnused, hdeclared, hcomment, hblank]
      simp only [Bool.or_self, Bool.and_false, Bool.not_false]
    · rw [living, Bool.not_eq_true'] at halive
      rcases exists_next hgap halive with ⟨next, hnext, hblank⟩
      rw [← marked_living] at hnext
      rcases head?_marked hnext with ⟨k, hk, hlive, hfirst⟩
      exact ⟨k, next, hk, hlive, hfirst, hblank⟩

/-- The marked positions without those of blank lines above all other marked lines. -/
def trimmed : (Nat → Bool) → List Line → Nat → Bool
  | _, [], _ => false
  | alive, line :: below, n =>
    if alive 0 && !line.text.isEmpty then alive n
    else n ≠ 0 && trimmed (fun n => alive (n + 1)) below (n - 1)

theorem marked_trimmed (alive : Nat → Bool) (lines : List Line) :
    marked (trimmed alive lines) lines =
      (marked alive lines).dropWhile fun line => line.text.isEmpty := by
  induction lines generalizing alive with
  | nil => rfl
  | cons line below ih =>
    by_cases hfirst : (alive 0 && !line.text.isEmpty) = true
    · have hsame : trimmed alive (line :: below) = alive := by
        funext n
        rw [trimmed, if_pos hfirst]
      rw [Bool.and_eq_true, Bool.not_eq_true'] at hfirst
      rw [hsame, marked, if_pos hfirst.1,
        dropWhile_cons_of_neg (by rw [hfirst.2]; exact Bool.false_ne_true)]
    · have hsucc : (fun n => trimmed alive (line :: below) (n + 1)) =
          trimmed (fun n => alive (n + 1)) below := by
        funext n
        rw [trimmed, if_neg hfirst]
        simp
      have hzero : trimmed alive (line :: below) 0 = false := by
        rw [trimmed, if_neg hfirst]
        rfl
      rw [marked, hzero, if_neg Bool.false_ne_true, hsucc, ih, marked]
      split
      · next halive =>
        rw [halive, Bool.true_and, Bool.not_eq_true, Bool.not_eq_false'] at hfirst
        exact (dropWhile_cons_of_pos (p := fun line : Line => line.text.isEmpty) hfirst).symm
      · rfl

theorem of_trimmed (h : trimmed alive lines n = true) : alive n = true := by
  induction lines generalizing alive n with
  | nil => cases h
  | cons line below ih =>
    rw [trimmed] at h
    split at h
    · exact h
    · rw [Bool.and_eq_true, decide_eq_true_iff] at h
      obtain ⟨n, rfl⟩ := Nat.exists_eq_succ_of_ne_zero h.1
      exact @ih (fun n => alive (n + 1)) n h.2

theorem trimmed_of_not_blank (hn : lines[n]? = some line) (halive : alive n = true)
    (hblank : line.text.isEmpty = false) : trimmed alive lines n = true := by
  induction lines generalizing alive n with
  | nil => cases hn
  | cons top below ih =>
    rw [trimmed]
    split
    · exact halive
    · next hfirst =>
      cases n with
      | zero =>
        obtain rfl := Option.some.inj hn
        rw [halive, hblank] at hfirst
        exact absurd rfl hfirst
      | succ n =>
        rw [Bool.and_eq_true, decide_eq_true_iff]
        exact ⟨Nat.succ_ne_zero n, ih hn halive⟩

/-- Blank lines at the start may be taken away: no other line depends on them. -/
theorem Alive.trim {readers : List Line} (h : Alive readers lines alive) :
    Alive readers lines (trimmed alive lines) := by
  have hiff : ∀ n line, lines[n]? = some line → line.text.isEmpty = false →
      (trimmed alive lines n = true ↔ alive n = true) :=
    fun n line hn hblank => ⟨of_trimmed, fun halive => trimmed_of_not_blank hn halive hblank⟩
  refine ⟨fun n line x hn hx => ?_, fun n line hn hdeclared hcomment hblank => ?_,
    fun n line hn hgap halive => ?_⟩
  · rw [hiff n line hn (Cpp.of_declaredName? hx).1, h.declaration n line x hn hx]
    -- Only lines that mention a name are asked for, and these are not blank.
    refine or_congr_right (exists_congr fun k => exists_congr fun reader => ?_)
    constructor
    · rintro ⟨hlt, hk, hlive, hreads⟩
      exact ⟨hlt, hk, trimmed_of_not_blank hk hlive hreads.not_blank, hreads⟩
    · rintro ⟨hlt, hk, hlive, hreads⟩
      exact ⟨hlt, hk, of_trimmed hlive, hreads⟩
  · exact (hiff n line hn hblank).2 (h.statement n line hn hdeclared hcomment hblank)
  · rcases h.comment n line hn hgap (of_trimmed halive) with
      ⟨k, next, hlt, hk, hlive, hfirst, hblank⟩
    refine ⟨k, next, hlt, hk, trimmed_of_not_blank hk hlive hblank, fun j hj hjk => ?_, hblank⟩
    rw [Bool.eq_false_iff]
    exact fun hj' => Bool.eq_false_iff.1 (hfirst j hj hjk) (of_trimmed hj')

theorem getLast?_kept (readers : List String) (lines : List Line) :
    ∀ line ∈ (kept readers lines).getLast?,
      line.text.isEmpty = false ∧ Cpp.isComment line.text = false := by
  induction lines with
  | nil => exact nofun
  | cons top below ih =>
    rw [kept_cons, keepLine]
    split
    · exact ih
    · next hused =>
      rw [Bool.not_eq_true] at hused
      cases hkept : kept readers below with
      | cons next rest =>
        rw [hkept] at ih
        rwa [getLast?_cons_cons]
      | nil =>
        intro line hline
        rw [getLast?_singleton, Option.mem_some_iff] at hline
        subst hline
        -- A comment or blank line would need a line below it.
        have hneeds := fun hgap => exists_next hgap hused
        rw [hkept, head?_nil] at hneeds
        simp only [reduceCtorEq, false_and, exists_false, imp_false, not_or,
          Bool.not_eq_true] at hneeds
        exact hneeds.symm

theorem isChain_kept (readers : List String) (lines : List Line) :
    (kept readers lines).IsChain fun a b => a.text.isEmpty = false ∨ b.text.isEmpty = false := by
  induction lines with
  | nil => exact IsChain.nil
  | cons top below ih =>
    rw [kept_cons, keepLine]
    split
    · exact ih
    · next hused =>
      rw [Bool.not_eq_true] at hused
      refine isChain_cons.2 ⟨fun next hnext => ?_, ih⟩
      by_cases hblank : top.text.isEmpty = true
      · rcases exists_next (Or.inr hblank) hused with ⟨below', hbelow, hfilled⟩
        rw [hbelow, Option.mem_some_iff] at hnext
        exact Or.inr (hnext ▸ hfilled)
      · exact Or.inl (Bool.eq_false_iff.2 hblank)

/-- Pruned lines have no gaps at their ends, and none that is wider than a line. -/
theorem tidy_prune (l r : Listing) : Tidy (l.prune r).lines.toList := by
  rw [lines_prune]
  refine ⟨fun line hline => ?_, fun line hline => ?_, ?_⟩
  · have hnot := head?_dropWhile_not (fun line : Line => line.text.isEmpty)
      (kept r.words l.lines.toList)
    rw [Option.mem_def] at hline
    rw [hline] at hnot
    simpa using hnot
  · refine getLast?_kept r.words l.lines.toList line ?_
    have hsplit := takeWhile_append_dropWhile (p := fun line : Line => line.text.isEmpty)
      (l := kept r.words l.lines.toList)
    rw [Option.mem_def] at hline
    rw [← hsplit, Option.mem_def, getLast?_append, hline, Option.some_or]
  · exact (isChain_kept r.words l.lines.toList).suffix (dropWhile_suffix _)

theorem kept_kept (readers : List String) (lines : List Line) :
    kept readers (kept readers lines) = kept readers lines := by
  induction lines with
  | nil => rfl
  | cons line below ih =>
    rcases kept_cons_cases readers line below with h | h
    -- The lines below are the same the second time, and so is the decision.
    · rw [h, kept_cons, ih, ← kept_cons, h]
    · rw [h, ih]

theorem kept_dropWhile (h : kept readers lines = lines) (p : Line → Bool) :
    kept readers (lines.dropWhile p) = lines.dropWhile p := by
  induction lines with
  | nil => rfl
  | cons line below ih =>
    have hbelow : kept readers below = below := by
      rcases kept_cons_cases readers line below with h' | h'
      · exact tail_eq_of_cons_eq (h'.symm.trans h)
      · have hlength := (kept_sublist readers below).length_le
        rw [← h', h, length_cons] at hlength
        exact absurd hlength (Nat.not_succ_le_self _)
    rw [dropWhile_cons]
    split
    · exact ih hbelow
    · exact h

/-- Pruning with the same readers again changes nothing. -/
theorem prune_prune (l r : Listing) : (l.prune r).prune r = l.prune r := by
  have hlines : ((l.prune r).prune r).lines.toList = (l.prune r).lines.toList := by
    rw [lines_prune, lines_prune, kept_dropWhile (kept_kept _ _)]
    exact dropWhile_idempotent _ _
  have hlevel : ((l.prune r).prune r).level = (l.prune r).level := rfl
  cases h : (l.prune r).prune r with
  | mk lines level =>
    cases h' : l.prune r with
    | mk lines' level' =>
      rw [h, h'] at hlines hlevel
      rw [Listing.mk.injEq]
      exact ⟨Array.toList_inj.1 hlines, hlevel⟩

/-- Pruning keeps the living lines of a listing, in their order. They have no gaps at their ends, and
    pruning them again changes nothing. A name that a reader mentions is declared by all lines that
    declared it before, and one that a kept line mentions by all of them above that line. -/
theorem prune_keeps_alive (l r : Listing) :
    (l.prune r).lines.toList.Sublist l.lines.toList ∧
    Tidy (l.prune r).lines.toList ∧ (l.prune r).prune r = l.prune r ∧
    ∃ alive : Nat → Bool, (l.prune r).lines.toList = marked alive l.lines.toList ∧
      Alive r.lines.toList l.lines.toList alive ∧
      ∀ n line x, l.lines.toList[n]? = some line → Cpp.declaredName? line.text = some x →
        ((∃ reader ∈ r.lines.toList, reader.Mentions x) → alive n = true) ∧
        ∀ k reader, n < k → l.lines.toList[k]? = some reader → alive k = true →
          reader.Mentions x → alive n = true := by
  have hmarked : (l.prune r).lines.toList =
      marked (trimmed (living r.words l.lines.toList) l.lines.toList) l.lines.toList := by
    rw [lines_prune, marked_trimmed, marked_living]
  have halive := (alive_living r l.lines.toList).trim
  refine ⟨?_, tidy_prune l r, prune_prune l r, _, hmarked, halive, fun n line x hn hx => ?_⟩
  · rw [hmarked]
    exact marked_sublist _ _
  · have hread := halive.declaration n line x hn hx
    exact ⟨fun h => hread.2 (Or.inl h),
      fun k reader hlt hk hlive hreads => hread.2 (Or.inr ⟨k, reader, hlt, hk, hlive, hreads⟩)⟩

end Listing
end WeakForm
