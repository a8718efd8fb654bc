import WeakForm.Proofs.Reading
import WeakForm.Code.Routine

/-!
# Words of texts and listings

The words of generated code are compared with names: a declaration is kept if its
name is a word further down. Texts are put together from pieces, and the words of
the pieces are the words of the whole as long as no two pieces grow together. They
do not if one of the two has a character outside of words at the seam, which is
what `opens` and `closes` say of a text.

Lines end at characters outside of words, so cutting a statement into lines leaves
its words alone, and the words of a listing are those of the statements it was
made of, in order. The same holds for expressions, whose operators all separate.

## Main definitions

* `Text.opens`, `Text.closes`: Texts that do not grow together with a neighbour.

## Theorems

* `Text.words_append_of_opens`, `Text.words_append_of_closes`: Words of two pieces.
* `Text.flatMap_words_lines`: Cutting into lines keeps the words.
* `Listing.words_push`, `Listing.words_append`, `Listing.words_nest`: Words of listings.
* `Expr.words_text`: The words of the text of an expression.
* `Expr.forall_mem_words`: Where the words of an expression come from.
-/

namespace WeakForm

open List
namespace Text

/-- A text that does not continue a word in front of it. -/
def opens (s : String) : Bool := s.toList.head?.all fun c => !isWordChar c

/-- A text that is not continued by a word behind it. -/
def closes (s : String) : Bool := s.toList.getLast?.all fun c => !isWordChar c

section

variable {c : Char} {cs ds current : List Char}

theorem wordsLoop_cons_of_not (h : isWordChar c = false) :
    wordsLoop current (c :: cs) = wordsLoop current [] ++ wordsLoop [] cs := by
  cases current with
  | nil | cons _ _ => simp [wordsLoop, h]

theorem wordsLoop_append_cons (h : isWordChar c = false) :
    wordsLoop current (cs ++ c :: ds) = wordsLoop current cs ++ wordsLoop [] ds := by
  induction cs generalizing current with
  | nil => exact wordsLoop_cons_of_not h
  | cons b bs ih =>
    rw [cons_append]
    by_cases hb : isWordChar b = true
    · simp only [wordsLoop, hb, if_true]
      exact ih
    · rw [Bool.not_eq_true] at hb
      rw [wordsLoop_cons_of_not hb, wordsLoop_cons_of_not hb, ih, append_assoc]

theorem wordsLoop_of_all (h : ∀ c ∈ cs, isWordChar c = true) :
    wordsLoop current cs = wordsLoop (cs.reverse ++ current) [] := by
  induction cs generalizing current with
  | nil => rfl
  | cons b bs ih =>
    have hcons : wordsLoop current (b :: bs) = wordsLoop (b :: current) bs := by
      simp only [wordsLoop, h b mem_cons_self, if_true]
    rw [hcons, ih fun c hc => h c (mem_cons_of_mem b hc), reverse_cons,
      append_assoc, singleton_append]

end

variable {s t : String}

theorem words_append_of_opens (h : opens t = true) : words (s ++ t) = words s ++ words t := by
  rw [words, words, words, String.toList_append]
  unfold opens at h
  cases ht : t.toList with
  | nil => rw [append_nil, wordsLoop, isEmpty_nil, if_pos rfl, append_nil]
  | cons c cs =>
    rw [ht, head?_cons, Option.all_some, Bool.not_eq_true'] at h
    rw [wordsLoop_append_cons h, wordsLoop_cons_of_not h]
    rfl

theorem words_append_of_closes (h : closes s = true) : words (s ++ t) = words s ++ words t := by
  rw [words, words, words, String.toList_append]
  unfold closes at h
  rcases eq_nil_or_concat s.toList with hs | ⟨cs, c, hs⟩
  · rw [hs, nil_append]
    rfl
  · rw [hs, concat_eq_append, getLast?_concat, Option.all_some, Bool.not_eq_true'] at h
    rw [hs, concat_eq_append, append_assoc, singleton_append, wordsLoop_append_cons h,
      wordsLoop_append_cons h]
    exact congrArg (· ++ _) (append_nil _).symm

theorem opens_append (hs : s ≠ "") : opens (s ++ t) = opens s := by
  have hne : s.toList ≠ [] := fun h => hs (String.toList_eq_nil_iff.1 h)
  rcases exists_cons_of_ne_nil hne with ⟨c, cs, hcs⟩
  rw [opens, opens, String.toList_append, hcs, cons_append, head?_cons, head?_cons]

theorem closes_append (ht : t ≠ "") : closes (s ++ t) = closes t := by
  have hne : t.toList ≠ [] := fun h => ht (String.toList_eq_nil_iff.1 h)
  rw [closes, closes, String.toList_append, getLast?_append, getLast?_eq_some_getLast hne,
    Option.some_or]

theorem words_of_oneWord (h : oneWord s = true) : words s = [s] := by
  rw [oneWord, Bool.and_eq_true, Bool.not_eq_true', isEmpty_eq_false_iff, all_eq_true] at h
  rw [words, wordsLoop_of_all h.2, append_nil, wordsLoop, reverse_reverse, String.ofList_toList,
    if_neg]
  rw [List.isEmpty_iff, reverse_eq_nil_iff]
  exact h.1

theorem split_of_mem_wordsLoop {x : String} {cs current : List Char}
    (hcurrent : ∀ c ∈ current, isWordChar c = true) (h : x ∈ wordsLoop current cs) :
    oneWord x = true ∧ ∃ front back, current.reverse ++ cs = front ++ x.toList ++ back ∧
      (front.getLast?.all fun c => !isWordChar c) = true ∧
      (back.head?.all fun c => !isWordChar c) = true := by
  have hend : ∀ current : List Char, (∀ c ∈ current, isWordChar c = true) →
      x ∈ wordsLoop current [] → oneWord x = true ∧ x.toList = current.reverse := by
    intro current hcurrent hx
    rw [wordsLoop] at hx
    split at hx
    · cases hx
    · next hne =>
      rw [mem_singleton] at hx
      subst hx
      rw [oneWord, String.toList_ofList, isEmpty_reverse, Bool.eq_false_iff.2 hne, all_reverse,
        all_eq_true.2 hcurrent]
      exact ⟨rfl, rfl⟩
  induction cs generalizing current with
  | nil =>
    rcases hend current hcurrent h with ⟨hword, hx⟩
    exact ⟨hword, [], [], by rw [hx, append_nil, append_nil, nil_append], rfl, rfl⟩
  | cons c cs ih =>
    by_cases hc : isWordChar c = true
    · simp only [wordsLoop, hc, if_true] at h
      have hsplit := ih (forall_mem_cons.2 ⟨hc, hcurrent⟩) h
      rwa [reverse_cons, append_assoc, singleton_append] at hsplit
    · rw [Bool.not_eq_true] at hc
      rw [wordsLoop_cons_of_not hc] at h
      rcases mem_append.1 h with h | h
      · rcases hend current hcurrent h with ⟨hword, hx⟩
        refine ⟨hword, [], c :: cs, by rw [hx, nil_append], rfl, ?_⟩
        rw [head?_cons, Option.all_some, hc]
        rfl
      · rcases ih (forall_mem_nil _) h with
          ⟨hword, front, back, hsplit, hfront, hback⟩
        refine ⟨hword, current.reverse ++ c :: front, back, ?_, ?_, hback⟩
        · rw [reverse_nil, nil_append] at hsplit
          rw [hsplit]
          simp only [append_assoc, cons_append]
        · rw [getLast?_append_cons, getLast?_cons]
          cases hlast : front.getLast? with
          | none => rw [Option.getD_none, Option.all_some, hc]; rfl
          | some d =>
            rw [hlast] at hfront
            exact hfront

/-- The words of a text are the names that stand in it between characters outside of words. -/
theorem mem_words_iff {x s : String} : x ∈ words s ↔ oneWord x = true ∧
    ∃ front back, s = front ++ x ++ back ∧ closes front = true ∧ opens back = true := by
  constructor
  · intro h
    rcases split_of_mem_wordsLoop (forall_mem_nil _) h with
      ⟨hword, front, back, hsplit, hfront, hback⟩
    refine ⟨hword, String.ofList front, String.ofList back, ?_, ?_, ?_⟩
    · rw [reverse_nil, nil_append] at hsplit
      rw [← String.toList_inj, String.toList_append, String.toList_append, String.toList_ofList,
        String.toList_ofList, hsplit]
    · rwa [closes, String.toList_ofList]
    · rwa [opens, String.toList_ofList]
  · rintro ⟨hword, front, back, rfl, hfront, hback⟩
    rw [words_append_of_opens hback, words_append_of_closes hfront, words_of_oneWord hword]
    simp

/-- The words of a line that was read in reverse are not changed by its end. -/
theorem words_endLine (current : List Char) :
    words (endLine current) = wordsLoop [] current.reverse := by
  unfold endLine
  split
  · next cs =>
    rw [words, String.toList_ofList, reverse_cons, wordsLoop_append_cons (by decide)]
    exact (append_nil _).symm
  · rw [words, String.toList_ofList]

theorem flatMap_words_lines (s : String) : (lines s).flatMap words = words s := by
  have hloop : ∀ cs current, (linesLoop current cs).flatMap words =
      wordsLoop [] (current.reverse ++ cs) := by
    intro cs
    induction cs with
    | nil =>
      intro current
      cases current with
      | nil => rfl
      | cons c current =>
        rw [linesLoop, flatMap_cons, flatMap_nil, append_nil, append_nil, words,
          String.toList_ofList]
        exact cons_ne_nil c current
    | cons c cs ih =>
      intro current
      by_cases hc : c = '\n'
      · rw [hc, linesLoop, flatMap_cons, ih, words_endLine, wordsLoop_append_cons (by decide)]
        rfl
      · rw [linesLoop, ih, reverse_cons, append_assoc, singleton_append]
        exact hc
  exact hloop s.toList []

end Text

namespace Listing

open Text

variable (l other : Listing) (s : String)

theorem words_push : (l.push s).words = l.words ++ Text.words s := by
  rw [words, words, push, Array.toList_append, flatMap_append, toList_toArray, flatMap_map,
    flatMap_words_lines]

theorem blank_cases : l.blank = l ∨ l.blank = ⟨l.lines.push ⟨0, ""⟩, l.level⟩ := by
  unfold blank
  split
  · split
    · exact .inl rfl
    · exact .inr rfl
  · exact .inr rfl

theorem words_blank : l.blank.words = l.words := by
  rcases l.blank_cases with h | h
  · rw [h]
  · rw [h, words, words, Array.toList_push, flatMap_append]
    exact append_nil _

theorem text_moved (level : Nat) (line : Line) : (moved level line).text = line.text := by
  unfold moved
  split
  · rfl
  · rfl

theorem words_append : (l.append other).words = l.words ++ other.words := by
  rw [words, words, words, append, Array.toList_append, flatMap_append, Array.toList_map,
    flatMap_map]
  simp only [text_moved]

theorem words_nest : (l.nest other).words = l.words ++ other.words := by
  rw [words, words, words, nest, Array.toList_append, flatMap_append, Array.toList_map, flatMap_map]
  simp only [text_moved]

end Listing

/-- Quotients keep the words of both sides apart. -/
def Operators.Separates (op : Operators) : Prop :=
  op.times = "*" ∧ ∀ a b, Text.words (op.quotient a b) = Text.words a ++ Text.words b

namespace Expr

open Text

variable {ν α : Type}

/-- The words of an expression, read off its tree. -/
def words (nameText : ν → String) (number : α → String) : Expr ν α → List String
  | literal value => Text.words (number value)
  | name n => Text.words (nameText n)
  | neg a => a.words nameText number
  | add a b => a.words nameText number ++ b.words nameText number
  | sub a b => a.words nameText number ++ b.words nameText number
  | mul a b => a.words nameText number ++ b.words nameText number
  | div a b => a.words nameText number ++ b.words nameText number
  | sqrt a => "std" :: "sqrt" :: a.words nameText number
  | abs a => "std" :: "abs" :: a.words nameText number
  | group a => a.words nameText number

theorem words_grouped (s : String) : Text.words (grouped s) = Text.words s := by
  rw [grouped, words_append_of_opens (by decide), words_append_of_closes (by decide)]
  exact append_nil _

/-- A text that keeps the words on its two sides apart and has none of its own. -/
def isSeparator (s : String) : Bool := opens s && closes s && !s.isEmpty && (Text.words s).isEmpty

theorem words_between {s t : String} (separator : String) (h : isSeparator separator = true) :
    Text.words (s ++ separator ++ t) = Text.words s ++ Text.words t := by
  rw [isSeparator, Bool.and_eq_true, Bool.and_eq_true, Bool.and_eq_true, Bool.not_eq_true',
    List.isEmpty_iff] at h
  rcases h with ⟨⟨⟨hopens, hcloses⟩, hne⟩, hwords⟩
  have hne : separator ≠ "" := by
    rintro rfl
    cases hne
  rw [words_append_of_closes (by rw [closes_append hne, hcloses]), words_append_of_opens hopens,
    hwords, append_nil]

theorem words_text {op : Operators} (hop : op.Separates) (nameText : ν → String)
    (number : α → String) (e : Expr ν α) :
    Text.words (e.text op nameText number) = e.words nameText number := by
  induction e with
  | literal value => rfl
  | name n => rfl
  | neg a ih =>
    rw [text, words_append_of_closes (by decide), ih]
    rfl
  | add a b iha ihb | sub a b iha ihb =>
    rw [text, words_between _ (by decide), iha, ihb]
    rfl
  | mul a b iha ihb =>
    rw [text, hop.1, words_between _ (by decide), iha, ihb]
    rfl
  | div a b iha ihb =>
    rw [text, hop.2, iha, ihb]
    rfl
  | sqrt a ih | abs a ih =>
    rw [text, words_append_of_opens (by rw [grouped, String.append_assoc, opens_append] <;> decide),
      words_grouped, ih]
    rfl
  | group a ih =>
    rw [text, words_grouped, ih]
    rfl

def functionWords : List String := ["std", "sqrt", "abs"]

theorem forall_mem_words {nameText : ν → String} {number : α → String} {P : String → Prop}
    {e : Expr ν α} (hnames : ∀ n ∈ e.names, ∀ w ∈ Text.words (nameText n), P w)
    (hliterals : ∀ x ∈ e.literals, ∀ w ∈ Text.words (number x), P w)
    (hfunctions : ∀ w ∈ functionWords, P w) : ∀ w ∈ e.words nameText number, P w := by
  induction e with
  | literal x => exact hliterals x mem_cons_self
  | name n => exact hnames n mem_cons_self
  | neg a ih | group a ih => exact ih hnames hliterals
  | add a b iha ihb | sub a b iha ihb | mul a b iha ihb | div a b iha ihb =>
    rcases forall_mem_append.1 hnames with ⟨hna, hnb⟩
    rcases forall_mem_append.1 hliterals with ⟨hla, hlb⟩
    exact forall_mem_append.2 ⟨iha hna hla, ihb hnb hlb⟩
  | sqrt a ih | abs a ih =>
    refine forall_mem_cons.2 ⟨hfunctions _ (by decide), forall_mem_cons.2 ⟨?_, ih hnames hliterals⟩⟩
    exact hfunctions _ (by decide)

end Expr
end WeakForm
