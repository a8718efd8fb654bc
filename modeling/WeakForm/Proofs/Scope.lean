import WeakForm.Proofs.Words
import WeakForm.Proofs.Pruning

/-!
# Names in scope

A line of geometry code declares a name, reads names, or does neither. The lines in
front of the body of a routine are in scope if every line reads only what is known
without a declaration and what lines above it declare.

All of this is read off the text. A scalar is declared as `Cpp.declaredName?` says; any
other declaration starts with the words of a type, and the name follows them. The
names that a line reads are its words, without comments and messages, without numbers
and words of the language, and without the name it declares.

Pruning keeps lines in scope. A dropped line declares a scalar that no kept line
reads, or it declares nothing, so what remains reads nothing that is lost
(`Scoped.kept`).

## Main definitions

* `Cpp.declares`, `Cpp.reads`: The names that a line declares and reads.

## Theorems

* `Cpp.Scoped.mono`, `Cpp.Scoped.append`: More known names, and lines behind each other.
* `Cpp.Scoped.kept`: Pruned lines are in scope.
-/

namespace WeakForm

open List

namespace Text

/-- The characters outside of quotes, with the quotes themselves. -/
def unquoted : Bool → List Char → List Char
  | _, [] => []
  | inside, c :: cs =>
    if c = '"' then c :: unquoted (!inside) cs
    else if inside then unquoted inside cs
    else c :: unquoted inside cs

theorem unquoted_append {front : List Char} (h : '"' ∉ front) (cs : List Char) :
    unquoted false (front ++ cs) = front ++ unquoted false cs := by
  induction front with
  | nil => rfl
  | cons c front ih =>
    rw [mem_cons, not_or] at h
    rw [cons_append, unquoted, if_neg fun hc => h.1 hc.symm, ih h.2]
    rfl

theorem mem_words_of_unquoted {w : String} (cs current : List Char) :
    (w ∈ wordsLoop current (unquoted false cs) → w ∈ wordsLoop current cs) ∧
      (w ∈ wordsLoop [] (unquoted true cs) → w ∈ wordsLoop current cs) := by
  induction cs generalizing current with
  | nil => exact ⟨id, fun h => absurd h not_mem_nil⟩
  | cons c cs ih =>
    by_cases hc : c = '"'
    · -- A quote ends the word in front of it, on either side.
      have hquote : isWordChar c = false := by
        rw [hc]
        decide
      rw [unquoted, if_pos hc, unquoted, if_pos hc, wordsLoop_cons_of_not hquote,
        wordsLoop_cons_of_not hquote, wordsLoop_cons_of_not hquote]
      refine ⟨fun h => ?_, fun h => ?_⟩
      · exact mem_append.2 ((mem_append.1 h).imp id (ih []).2)
      · exact mem_append_right _ ((ih []).1 ((mem_append.1 h).resolve_left
          not_mem_nil))
    · rw [unquoted, if_neg hc, unquoted, if_neg hc, if_pos rfl, if_neg Bool.false_ne_true]
      by_cases hword : isWordChar c = true
      · simp only [wordsLoop, hword, if_true]
        exact ⟨(ih _).1, (ih _).2⟩
      · rw [Bool.not_eq_true] at hword
        rw [wordsLoop_cons_of_not hword, wordsLoop_cons_of_not hword]
        refine ⟨fun h => ?_, fun h => ?_⟩
        · exact mem_append.2 ((mem_append.1 h).imp id (ih []).1)
        · exact mem_append_right _ ((ih []).2 h)

end Text

namespace Cpp

/-- The words that types are made of. -/
def typeWords : List String := ["static", "const", "unsigned", "int", "double", "bool"]

def keywords : List String := typeWords ++ ["if", "else", "throw"]

/-- Whether a word is a name: neither a number nor a word of the language. -/
def isIdentifier (w : String) : Bool := !(w.toList.head?.any Char.isDigit) && !keywords.contains w

/-- The name that a line declares: that of a scalar, or the first word behind those of a type. -/
def declares (line : String) : Option String :=
  (declaredName? line).or (if isComment line then none else
    match Text.words line with
    | [] => none
    | w :: ws => if typeWords.contains w then ws.find? fun w => !typeWords.contains w else none)

/-- The names that a line reads, apart from the one that it declares. -/
def reads (line : String) : List String :=
  if isComment line then []
  else
    let names := (Text.words (String.ofList (Text.unquoted false line.toList))).filter isIdentifier
    match declares line with
    | some x => names.erase x
    | none => names

/-- The names of the parameters of a routine. -/
def parameterNames : Integral → List String
  | .cell => ["A", "c"]
  | .exteriorFacet => ["A", "c", "facet"]
  | .interiorFacet => ["A", "c0", "c1", "facet0", "facet1"]

/-- Names of the standard library. -/
def standardNames : List String := ["std", "sqrt", "abs", "runtime_error"]

/-- What a line can read of a cell. -/
def cellMembers : List String := ["coordinates", "orientation"]

/-- The names that a routine knows without a declaration. -/
def ambient (kind : Integral) : List String := parameterNames kind ++ standardNames ++ cellMembers

/-- Every line reads names that are known, or that lines above it declare. -/
def Scoped : List String → List String → Prop
  | _, [] => True
  | known, line :: below =>
    (∀ x ∈ reads line, x ∈ known) ∧ Scoped ((declares line).toList ++ known) below

variable {line x : String}

theorem mem_words_of_reads (h : x ∈ reads line) : x ∈ Text.words line := by
  unfold reads at h
  split at h
  · cases h
  · have hnames : x ∈ (Text.words (String.ofList (Text.unquoted false line.toList))).filter
        isIdentifier := by
      simp only at h
      split at h
      · exact mem_of_mem_erase h
      · exact h
    have hwords := (mem_filter.1 hnames).1
    rw [Text.words, String.toList_ofList] at hwords
    exact (Text.mem_words_of_unquoted line.toList []).1 hwords

theorem declares_of_declaredName? (h : declaredName? line = some x) : declares line = some x := by
  rw [declares, h, Option.some_or]

theorem declares_eq_none_of_blank (line : String) (h : line.isEmpty = true) :
    declares line = none ∧ reads line = [] := by
  rw [String.isEmpty_iff.1 h]
  decide

theorem statement_of_declares (hscalar : declaredName? line = none) (h : declares line = some x) :
    line.isEmpty = false ∧ isComment line = false := by
  constructor
  · rw [Bool.eq_false_iff]
    intro hblank
    rw [(declares_eq_none_of_blank _ hblank).1] at h
    cases h
  · rw [Bool.eq_false_iff]
    intro hcomment
    rw [declares, hscalar, if_pos hcomment] at h
    exact absurd h (by simp only [Option.or_none, reduceCtorEq, not_false_eq_true])

namespace Scoped

variable {known known' : List String} {lines : List String}

theorem mono (h : Scoped known lines) (hknown : ∀ x ∈ known, x ∈ known') : Scoped known' lines := by
  induction lines generalizing known known' with
  | nil => trivial
  | cons line below ih =>
    refine ⟨fun x hx => hknown x (h.1 x hx), ih h.2 fun x hx => ?_⟩
    exact mem_append.2 ((mem_append.1 hx).imp id (hknown x))

theorem append {lines' : List String} (h : Scoped known lines)
    (h' : Scoped (known ++ lines.filterMap declares) lines') : Scoped known (lines ++ lines') := by
  induction lines generalizing known with
  | nil => exact h'.mono fun x hx => (mem_append.1 hx).resolve_right not_mem_nil
  | cons line below ih =>
    refine ⟨h.1, ih h.2 (h'.mono fun x hx => ?_)⟩
    -- The name of the first line moves from the declared names to the known ones.
    rw [filterMap_cons] at hx
    cases hline : declares line with
    | none =>
      rw [hline] at hx
      exact hx
    | some y =>
      rw [hline] at hx
      simp only [mem_append, mem_cons, Option.toList_some, not_mem_nil, or_false] at hx ⊢
      rcases hx with hx | rfl | hx
      · exact Or.inl (Or.inr hx)
      · exact Or.inl (Or.inl rfl)
      · exact Or.inr hx

theorem dropWhile_blank (h : Scoped known lines) :
    Scoped known (lines.dropWhile fun line => line.isEmpty) := by
  induction lines generalizing known with
  | nil => exact h
  | cons line below ih =>
    rw [dropWhile_cons]
    split
    · next hblank =>
      have hbelow := h.2
      rw [(declares_eq_none_of_blank _ hblank).1] at hbelow
      exact ih hbelow
    · exact h

theorem kept {readers : List String} {lines : List Line} (h : Scoped known (lines.map Line.text))
    (hknown : ∀ x ∈ known, x ∈ Listing.lineWords (Listing.kept readers lines) → x ∈ known') :
    Scoped known' ((Listing.kept readers lines).map Line.text) := by
  induction lines generalizing known known' with
  | nil => trivial
  | cons line below ih =>
    rcases Listing.kept_cons_cases readers line below with hkept | hdropped
    · rw [hkept] at hknown ⊢
      have hword : ∀ x ∈ Text.words line.text,
          x ∈ Listing.lineWords (line :: Listing.kept readers below) :=
        fun x hx => mem_append_left _ hx
      refine ⟨fun x hx => hknown x (h.1 x hx) (hword x (mem_words_of_reads hx)),
        ih h.2 fun x hx hread => ?_⟩
      rcases mem_append.1 hx with hx | hx
      · exact mem_append_left _ hx
      · exact mem_append_right _ (hknown x hx (mem_append_right _ hread))
    · rw [hdropped] at hknown ⊢
      refine ih h.2 fun x hx hread => ?_
      rcases mem_append.1 hx with hx | hx
      · -- What the dropped line declares is a scalar, and nobody reads it.
        exfalso
        have hx : declares line.text = some x := Option.mem_toList.1 hx
        cases hscalar : declaredName? line.text with
        | some y =>
          have hxy : y = x := Option.some.inj ((declares_of_declaredName? hscalar).symm.trans hx)
          rw [hxy] at hscalar
          exact Listing.not_mem_words_of_dropped hscalar hdropped (mem_append_left _ hread)
        | none =>
          rcases statement_of_declares hscalar hx with ⟨hblank, hcomment⟩
          rw [Listing.kept_statement hscalar hblank hcomment] at hdropped
          exact cons_ne_self _ _ hdropped
      · exact hknown x hx hread

end Scoped
end Cpp
end WeakForm
