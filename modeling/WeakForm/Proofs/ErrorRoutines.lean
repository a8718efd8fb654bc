import WeakForm.Proofs.GeometryLines

/-!
# Routines that report a problem

An integral that could not be compiled is replaced by a routine that throws the wording
of its problem. The wording is written twice, into a comment and into a string literal,
and both places have characters that do not stand for themselves: a backslash begins an
escape in the literal and joins the comment with the line below it if it comes last, and
the end of a line ends the comment and tears the literal apart. Quotes are escaped, the
other characters are not.

So problems are reported faithfully if the texts that they quote can be quoted as they
are. Such texts come from outside: a tabulator may name an element that it does not
support in any way it likes. The wording around them is harmless.

## Theorems

* `Problem.quotable_message`: The wording of a problem can be quoted if the text in it can.
* `errorRoutine_faithful`: The routine throws the wording of the problem.
-/

namespace WeakForm

open List Text

variable {s : String}

namespace Cpp

/-- A text without the characters that mean something else in literals and comments, quotes
    apart. -/
def quotable (s : String) : Bool := s.toList.all fun c => c != '\\' && c != '\n' && c != '\r'

theorem quotable_append (s t : String) : quotable (s ++ t) = (quotable s && quotable t) := by
  rw [quotable, String.toList_append, List.all_append]
  rfl

theorem quotable_toString (n : Nat) : quotable (toString n) = true := by
  refine all_eq_true.2 fun c hc => ?_
  rw [Bool.and_assoc, Bool.and_eq_true, bne_iff_ne]
  refine ⟨?_, all_eq_true.1 (isLine_toString n) c hc⟩
  rintro rfl
  exact absurd (all_eq_true.1 (all_isWordChar_toString n) _ hc) (by decide)

theorem isLine_of_quotable (h : quotable s = true) : isLine s = true := by
  refine all_eq_true.2 fun c hc => ?_
  have hplain := all_eq_true.1 h c hc
  rw [Bool.and_assoc, Bool.and_eq_true] at hplain
  exact hplain.2

/-- The characters that simple escapes stand for. -/
def escape? (c : Char) : Option Char :=
  if "'\"?\\".toList.contains c then some c else
    match c with
    | 'a' => some '\x07'
    | 'b' => some '\x08'
    | 't' => some '\t'
    | 'n' => some '\n'
    | 'v' => some '\x0b'
    | 'f' => some '\x0c'
    | 'r' => some '\r'
    | _ => none

/-- The text that a string literal stands for, read from behind its opening quote, and what
    follows the closing one. A literal does not go beyond its line. -/
def literal? : List Char → Option (List Char × List Char)
  | [] => none
  | '"' :: cs => some ([], cs)
  | '\\' :: c :: cs => do
    let (text, rest) ← literal? cs
    return ((← escape? c) :: text, rest)
  | c :: cs => do
    if c = '\\' || c = '\n' || c = '\r' then none
    let (text, rest) ← literal? cs
    return (c :: text, rest)

/-- The text that a statement throws, if it does nothing else. -/
def thrown? (statement : String) : Option String := do
  let cs ← behind? "throw std::runtime_error(\"".toList (statement.toList.dropWhile isBlank)
  let (text, rest) ← literal? cs
  if rest = ");".toList then some (String.ofList text) else none

theorem literal?_cons {c : Char} (hquote : c ≠ '"') (hc : c ≠ '\\') (hfeed : c ≠ '\n')
    (hreturn : c ≠ '\r') (cs : List Char) :
    literal? (c :: cs) = (literal? cs).map fun x => (c :: x.1, x.2) := by
  rw [literal?]
  · simp only [hc, hfeed, hreturn, decide_false, Bool.or_self, Bool.false_eq_true, if_false]
    cases literal? cs <;> rfl
  · exact hquote
  · exact fun _ _ hcs _ => hc hcs

/-- Escaping the quotes of a text is undone by reading the literal. -/
theorem literal?_escaped (h : quotable s = true) (rest : List Char) :
    literal? ((s.toList.flatMap fun c => if c == '"' then ['\\', '"'] else [c]) ++ '"' :: rest) =
      some (s.toList, rest) := by
  rw [quotable] at h
  generalize s.toList = cs at h ⊢
  induction cs with
  | nil => rfl
  | cons c cs ih =>
    rw [all_cons, Bool.and_eq_true] at h
    have ih := ih h.2
    rw [flatMap_cons, append_assoc]
    by_cases hquote : c = '"'
    · rw [hquote]
      exact congrArg (Option.bind · _) ih
    · simp only [Bool.and_eq_true, bne_iff_ne] at h
      rw [if_neg (by simpa using hquote), singleton_append,
        literal?_cons hquote h.1.1.1 h.1.1.2 h.1.2, ih]
      rfl

theorem thrown?_raise (h : quotable s = true) :
    thrown? ("    " ++ raise s) = some s := by
  have hread := literal?_escaped h ");".toList
  unfold raise thrown?
  generalize (s.toList.flatMap fun c => if c == '"' then ['\\', '"'] else [c]) = body at hread ⊢
  have hlist : ("    " ++ ("throw std::runtime_error(\"" ++ String.ofList body ++ "\");")).toList =
      "    ".toList ++ ("throw std::runtime_error(\"".toList ++ (body ++ '"' :: ");".toList)) := by
    simp only [String.toList_append, String.toList_ofList, append_assoc]
    rfl
  -- The indentation is skipped.
  rw [hlist]
  refine (congrArg (Option.bind · _) (behind?_append "throw std::runtime_error(\"".toList _)).trans ?_
  refine (congrArg (Option.bind · _) hread).trans ?_
  simp only [Option.bind_some, if_true, String.ofList_toList]

theorem isLine_raise (h : isLine s = true) : isLine (raise s) = true := by
  have hescaped : isLine (String.ofList
      (s.toList.flatMap fun c => if c == '"' then ['\\', '"'] else [c])) = true := by
    rw [isLine, String.toList_ofList, all_flatMap]
    refine all_eq_true.2 fun c hc => ?_
    split
    · decide
    · rw [all_cons, all_nil, Bool.and_true]
      exact all_eq_true.1 h c hc
  unfold raise
  rw [isLine_append, isLine_append, hescaped]
  decide

end Cpp

/-- The text that a problem takes from its input as it is. -/
def Problem.quoted : Problem → String
  | unknownIndexKind text | unknownMapping text | unsupportedElement text
  | invalidValueShape text _ _ | invalidMonomial text => text
  | _ => ""

theorem Problem.quotable_bracketed (ns : List Nat) : Cpp.quotable (bracketed ns) = true := by
  have hnumbers : Cpp.quotable (String.intercalate ", " (ns.map toString)) = true := by
    rw [Cpp.quotable, String.toList_intercalate, all_eq_true]
    refine forall_mem_intercalate (all_eq_true.1 rfl) (forall_mem_map.2 (forall_mem_map.2 fun n _ => ?_))
    exact all_eq_true.1 (Cpp.quotable_toString n)
  rw [bracketed, Cpp.quotable_append, Cpp.quotable_append, hnumbers]
  decide

theorem Problem.quotable_message {p : Problem} (h : Cpp.quotable p.quoted = true) :
    Cpp.quotable p.message = true := by
  have hrepr : ∀ n : Nat, Cpp.quotable n.repr = true := Cpp.quotable_toString
  cases p
  all_goals
    unfold message
    simp only [toString, Cpp.quotable_append, hrepr, quotable_bracketed, Bool.and_eq_true]
    and_intros
    all_goals first | decide +kernel | exact h | skip
  unfold ruleMessage
  simp only [toString, Cpp.quotable_append, hrepr, Bool.and_true]
  decide +kernel

theorem Text.lines_of_isLine (hne : s ≠ "") (h : isLine s = true) : lines s = [s] := by
  have hloop : ∀ cs current : List Char, '\n' ∉ cs → current ++ cs ≠ [] →
      linesLoop current cs = [String.ofList (current.reverse ++ cs)] := by
    intro cs
    induction cs with
    | nil =>
      intro current _ hne
      cases current with
      | nil => exact absurd rfl hne
      | cons c current =>
        rw [linesLoop, append_nil]
        exact cons_ne_nil c current
    | cons c cs ih =>
      intro current hcs _
      rw [mem_cons, not_or] at hcs
      rw [linesLoop, ih (c :: current) hcs.2 (by simp), reverse_cons, append_assoc,
        singleton_append]
      exact fun hc => hcs.1 hc.symm
  rw [lines, hloop s.toList [] (feed_notMem h) (by simpa using hne), reverse_nil, nil_append,
    String.ofList_toList]

/-- The lines of the text of a listing are its lines, each behind its indentation. -/
theorem Listing.lines_text {l : Listing}
    (h : ∀ line ∈ l.lines.toList, line.text ≠ "" ∧ isLine line.text = true) :
    Text.lines l.text = l.lines.toList.map fun line =>
      String.ofList (replicate (4 * line.level) ' ') ++ line.text := by
  have htexts : l.lines.toList.map lineText = (l.lines.toList.map fun line =>
      String.ofList (replicate (4 * line.level) ' ') ++ line.text).map (· ++ "\n") := by
    rw [map_map]
    refine map_congr_left fun line hline => if_neg ?_
    rw [String.isEmpty_iff]
    exact (h line hline).1
  rw [Listing.text, htexts]
  refine lines_join (forall_mem_map.2 fun line hline => ?_)
  rw [isLine_append, (h line hline).2, Bool.and_true, isLine, String.toList_ofList]
  exact all_eq_true.2 fun c hc => eq_of_mem_replicate hc ▸ rfl

variable {p : LocatedProblem}

theorem LocatedProblem.quotable_message
    (h : Cpp.quotable p.problem.quoted = true) : Cpp.quotable p.message = true := by
  have hkind : Cpp.quotable p.kind.name = true := by cases p.kind <;> decide +kernel
  have hdomain : Cpp.quotable (p.domain.repr) = true := Cpp.quotable_toString p.domain
  unfold message
  simp only [toString, Cpp.quotable_append, hkind, hdomain, Problem.quotable_message h]
  decide +kernel

theorem lines_errorRoutine {name : String} (hname : oneWord name = true)
    (h : isLine p.message = true) : lines (errorRoutine name p) =
      ["void " ++ name ++ grouped (Cpp.parameters p.kind), "\x7b",
        "    " ++ Cpp.comment ("Code generation failed for " ++ p.message),
        "    " ++ Cpp.raise p.message, "\x7d"] := by
  have hheader : isLine ("void " ++ name ++ grouped (Cpp.parameters p.kind)) = true := by
    rw [isLine_append, isLine_append, isLine_of_oneWord hname]
    cases p.kind <;> decide +kernel
  have hbegin : lines (Cpp.routineBegin name p.kind) =
      ["void " ++ name ++ grouped (Cpp.parameters p.kind), "\x7b"] := by
    unfold Cpp.routineBegin
    rw [lines, String.toList_append, String.toList_append, append_assoc]
    refine (linesLoop_append (feed_notMem hheader) [] ['\x7b']).trans ?_
    rw [append_nil, endLine_reverse hheader]
    rfl
  have hcomment : isLine (Cpp.comment ("Code generation failed for " ++ p.message)) = true := by
    rw [Cpp.comment, isLine_append, isLine_append, h]
    decide
  have hraise := Cpp.isLine_raise h
  have hne : Cpp.comment ("Code generation failed for " ++ p.message) ≠ "" ∧
      Cpp.raise p.message ≠ "" := by
    unfold Cpp.comment Cpp.raise
    simp
  unfold errorRoutine
  generalize Cpp.comment ("Code generation failed for " ++ p.message) = comment at hcomment hne ⊢
  generalize Cpp.raise p.message = statement at hraise hne ⊢
  have hlines : (((Listing.empty.push (Cpp.routineBegin name p.kind)).nest
      ((Listing.empty.push comment).push statement)).push Cpp.blockEnd).lines.toList =
      [⟨0, "void " ++ name ++ grouped (Cpp.parameters p.kind)⟩, ⟨0, "\x7b"⟩, ⟨1, comment⟩,
        ⟨1, statement⟩, ⟨0, "\x7d"⟩] := by
    have hend : lines Cpp.blockEnd = ["\x7d"] := by decide +kernel
    simp [Listing.push, Listing.nest, Listing.empty, Listing.moved, hbegin, hend,
      lines_of_isLine hne.1 hcomment, lines_of_isLine hne.2 hraise, hne]
  rw [Listing.lines_text, hlines]
  · simp
  · simp [hlines, hne, hheader, hcomment, hraise]
    decide

/-- The routine has a header, one comment, and one statement, which throws the wording of the
    problem. -/
theorem errorRoutine_faithful {name : String} (hname : oneWord name = true) {p : LocatedProblem}
    (h : Cpp.quotable p.problem.quoted = true) :
    ∃ comment statement, lines (errorRoutine name p) =
        ["void " ++ name ++ grouped (Cpp.parameters p.kind), "\x7b", comment, statement, "\x7d"] ∧
      Cpp.isComment comment = true ∧ Cpp.thrown? statement = some p.message := by
  have hmessage := p.quotable_message h
  refine ⟨_, _, lines_errorRoutine hname (Cpp.isLine_of_quotable hmessage), ?_,
    Cpp.thrown?_raise hmessage⟩
  rw [Cpp.isComment, String.toList_append, Cpp.comment, String.toList_append]
  rfl

theorem errorRoutine_faithful_quotes :
    oneWord "a_cell_integral_0" = true ∧ Cpp.quotable "the \"bubble\" of order 3" = true ∧
      ∃ comment statement, lines (errorRoutine "a_cell_integral_0"
          ⟨.cell, 0, .unsupportedElement "the \"bubble\" of order 3"⟩) =
          ["void a_cell_integral_0(double* A, const ufc::cell& c)", "\x7b", comment, statement, "\x7d"] ∧
        Cpp.isComment comment = true ∧ Cpp.thrown? statement =
          some "cell integral 0: Unable to tabulate element: the \"bubble\" of order 3" :=
  ⟨by decide +kernel, by decide +kernel,
    errorRoutine_faithful (by decide +kernel) (by decide +kernel)⟩

/-- A backslash makes an escape of the letter behind it, here a backspace. -/
theorem errorRoutine_backslash : ∃ header comment statement, lines (errorRoutine
      "a_cell_integral_0" ⟨.cell, 0, .unsupportedElement "P\\b"⟩) =
        [header, "\x7b", comment, statement, "\x7d"] ∧
      Cpp.thrown? statement = some "cell integral 0: Unable to tabulate element: P\x08" :=
  ⟨_, _, _, lines_errorRoutine (by decide +kernel) (by decide +kernel), by decide +kernel⟩

end WeakForm
