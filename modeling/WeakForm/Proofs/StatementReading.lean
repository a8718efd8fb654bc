import WeakForm.Proofs.ErrorRoutines
import WeakForm.Proofs.LineReading

/-!
# Reading statements of geometry code

What a line of geometry code does is told from its text alone. Lines with formulas are read
by their words and operators. All other lines are read from words, signs and marks: the rows
of a list, the places where it is looked up, the values a marker is compared with and the
factor of the determinant are whatever the text says.

A line that fits none of the patterns has no meaning here, so code with such a line cannot be
carried out.

`Step.statements` is what a step is meant to do, and `Step.read_lines` that its lines say so.

## Main definitions

* `Statement`: What a line does.
* `Cpp.parts`: Words, signs and marks of a line.
* `Cpp.statementOf?`: The statement that a line is.

## Theorems

* `Step.read_lines`: The lines of a step are read as the statements that they are meant as.
-/

namespace WeakForm

open List Text Cpp

/-- What a line of geometry code does. -/
inductive Statement where
  /-- Blank lines and comments. -/
  | nothing
  | define (isConstant : Bool) (name : String) (value : Formula)
  | direction (test : Test)
  | entry (side : Option Side) (axis : Nat) (value : Term)
  /-- Names the coordinates of the vertices of a cell. -/
  | coordinates (name : String) (side : Option Side)
  /-- Names rows of vertices, with their number and the length that is announced for them. -/
  | lists (name : String) (count length : Nat) (rows : List (List Nat))
  /-- Names the vertex at a place in a row, whose number is held by a variable. -/
  | select (name lists index : String) (place : Nat)
  | array (name : String) (size : Nat)
  /-- Names the orientation of a cell. -/
  | marker (name : String) (side : Option Side)
  /-- Puts the next statement under the condition that a marker has a value; behind `else` also
      under the condition that no statement in front of it was carried out. -/
  | condition (isElse : Bool) (name : String) (value : Nat)
  | raise (message : String)
  | scale (name : String) (factor : Int)
  deriving DecidableEq

namespace Cpp

/-- The characters of signs. -/
def isSign (c : Char) : Bool := "+-*/=<>!".toList.contains c

/-- Whether a character continues what stands in front of it. Words and signs may have several
    characters, marks have one. -/
def continues (current : List Char) (c : Char) : Bool :=
  current.getLast?.any fun b => (isWordChar b && isWordChar c) || (isSign b && isSign c)

/-- Words, signs and marks of a text, behind the beginning of one of them. -/
def partsLoop (current : List Char) : List Char → List String
  | [] => if current.isEmpty then [] else [String.ofList current]
  | c :: cs =>
    if continues current c then partsLoop (current ++ [c]) cs
    else (if current.isEmpty then [] else [String.ofList current]) ++
      partsLoop (if c = ' ' then [] else [c]) cs

/-- Words, signs and marks of a line. -/
def parts (line : String) : List String := partsLoop [] line.toList

def number? (part : String) : Option Nat := natural? part.toList

/-- The side of the cell that is called so among the arguments of a routine. -/
def ownerSide? (name : String) : Option (Option Side) :=
  sideOf? fun side => name = "c" ++ Side.suffix side

def coordinates? : List String → Option Statement
  | ["const", "double", "*", "const", "*", name, "=", owner, ".", "coordinates", ";"] =>
    (ownerSide? owner).map (.coordinates name)
  | _ => none

/-- Rows of numbers up to the end of the line, behind the beginning of a row or in front of one. -/
def rows? : Option (List Nat) → List String → Option (List (List Nat))
  | none, "\x7b" :: ts => rows? (some []) ts
  | some row, n :: "," :: ts => do rows? (some (row ++ [← number? n])) ts
  | some row, n :: "\x7d" :: "," :: ts => do return (row ++ [← number? n]) :: (← rows? none ts)
  | some row, [n, "\x7d", "\x7d", ";"] => do return [row ++ [← number? n]]
  | _, _ => none

def lists? : List String → Option Statement
  | "static" :: "const" :: "unsigned" :: "int" :: name ::
      "[" :: count :: "]" :: "[" :: length :: "]" :: "=" :: "\x7b" :: rows => do
    return .lists name (← number? count) (← number? length) (← rows? none rows)
  | _ => none

def selection? : List String → Option Statement
  | ["const", "unsigned", "int", name, "=", lists, "[", index, "]", "[", place, "]", ";"] =>
    (number? place).map (.select name lists index)
  | _ => none

def array? : List String → Option Statement
  | ["double", name, "[", size, "]", ";"] => (number? size).map (.array name)
  | _ => none

def marker? : List String → Option Statement
  | ["const", "int", name, "=", owner, ".", "orientation", ";"] =>
    (ownerSide? owner).map (.marker name)
  | _ => none

def condition? : List String → Option Statement
  | ["if", "(", name, "==", value, ")"] => (number? value).map (.condition false name)
  | ["else", "if", "(", name, "==", value, ")"] => (number? value).map (.condition true name)
  | _ => none

def scaling? : List String → Option Statement
  | [name, "*=", "-", factor, ";"] => (number? factor).map fun n => .scale name (-n)
  | [name, "*=", factor, ";"] => (number? factor).map fun n => .scale name n
  | _ => none

def formulaStatement? (line : String) : Option Statement :=
  match definition? line, direction? line, entry? line with
  | some (isConstant, name, f), _, _ => some (.define isConstant name f)
  | none, some t, _ => some (.direction t)
  | none, none, some (side, axis, e) => some (.entry side axis e)
  | none, none, none => none

def plainStatement? (ts : List String) : Option Statement :=
  [coordinates?, lists?, selection?, array?, marker?, condition?, scaling?].findSome? (· ts)

/-- The statement that a line is. -/
def statementOf? (line : String) : Option Statement :=
  if isComment line || line.toList.all isBlank then some .nothing
  else ((formulaStatement? line).or ((thrown? line).map .raise)).or (plainStatement? (parts line))

end Cpp

namespace Step

/-- What the lines of a step are meant to do. -/
def statements : Step → List Statement
  | note _ | gap => [.nothing]
  | define isConstant name _ f => [.define isConstant name f]
  | coordinates side => [.coordinates (cellName side) side]
  | vertexLists name rows => [.lists name rows.length (rows.head?.getD []).length rows]
  | facetVertex name lists side place => [.select name lists (facetVariable side) place]
  | direction test => [.direction test]
  | orientation side =>
    [.nothing, .marker (markerName side) side, .condition false (markerName side) 0,
      .raise "cell orientation must be defined (not 0)", .nothing,
      .condition true (markerName side) 1, .scale (Passage.nameDet side) (-1)]
  | pointArray side gdim => [.array (pointName side) gdim]
  | pointEntry side axis e => [.entry side axis e]

/-- Whether a step is written as it is meant. Lines with formulas are if the formulas have the
    brackets they need; the lines with lists and arrays are looked at. -/
def isReadable : Step → Bool
  | define _ name _ f => isName name && f.isReadable
  | direction test => test.isReadable
  | pointEntry _ _ e => Term.isReadable e
  | note _ | gap | coordinates _ | orientation _ => true
  | step => step.lines.mapM statementOf? = some step.statements

end Step

/-! ## Lines are read as they are meant -/

namespace Cpp

variable {line : String} {st : Statement}

theorem statementOf?_of_formula {c : Char} (hline : line.toList.head? = some c)
    (hblank : isBlank c = false) (hslash : '/' ≠ c) (h : formulaStatement? line = some st) :
    statementOf? line = some st := by
  rcases head?_eq_some_iff.1 hline with ⟨cs, hline⟩
  rw [statementOf?, isComment_eq_false hline hblank hslash, hline, all_cons, hblank, h]
  rfl

/-- The direction is no scalar. -/
theorem definition?_of_direction? {t : Test} (h : direction? line = some t) :
    definition? line = none := by
  rcases Option.bind_eq_some_iff.1 h with ⟨ts, hts, h⟩
  rcases Option.ite_none_right_eq_some.1 h with ⟨hfront, _⟩
  have hsplit : ts = [mark "const", mark "bool", mark "direction", mark "="] ++ ts.drop 4 := by
    rw [← hfront, take_append_drop]
  rw [definition?, hts, hsplit]
  rfl

/-- A coordinate of a point is neither a scalar nor the direction. -/
theorem formulaStatement?_of_coordinate {side : Option Side} {axis : Nat} {e : Term}
    (h : entry? line = some (side, axis, e)) :
    formulaStatement? line = some (.entry side axis e) := by
  have hothers : definition? line = none ∧ direction? line = none := by
    rcases Option.bind_eq_some_iff.1 h with ⟨ts, hts, h⟩
    unfold definition? direction?
    rw [hts, Option.bind_some, Option.bind_some]
    match ts, h with
    | .word w :: sign :: ts, h =>
      rcases Option.ite_none_right_eq_some.1 h with ⟨rfl, hentry⟩
      -- The word in front of the sign is the name of a coordinate.
      have hword : ∀ s : String, pointAxis? s.toList = none → Token.word w ≠ mark s := by
        rintro s hs heq
        rw [Token.word.inj heq, hs] at hentry
        cases hentry
      have hconst := hword "const" (by decide)
      have hdouble := hword "double" (by decide)
      constructor
      · rw [head?_cons, if_neg (by simpa using hconst)]
        match ts with
        | [] => rfl
        | t :: ts => exact if_neg fun heq => hdouble heq.1
      · exact if_neg fun heq => hconst (cons.inj heq).1
  rw [formulaStatement?, hothers.1, hothers.2, h]

end Cpp

namespace Step

variable {step : Step}

theorem read_lines (h : step.isReadable = true) :
    step.lines.mapM statementOf? = some step.statements := by
  have hone : ∀ {line st}, statementOf? line = some st → [line].mapM statementOf? = some [st] := by
    intro line st h
    rw [mapM_cons, h]
    rfl
  cases step with
  | note text =>
    have hcomment : isComment (comment text) = true := by
      simp [comment, isComment, String.toList_append, isBlank, behind?]
    refine hone ?_
    rw [statementOf?, hcomment]
    rfl
  | gap => decide
  | define isConstant name layout f =>
    rw [isReadable, Bool.and_eq_true] at h
    have hread := definition?_line isConstant layout h.1 h.2
    rw [lines, head?_cons, Option.bind_some] at hread
    have hformula : ∀ line, definition? line = some (isConstant, name, f) →
        formulaStatement? line = some (.define isConstant name f) := by
      intro line hline
      rw [formulaStatement?, hline]
    refine hone ?_
    cases isConstant with
    | true =>
      refine statementOf?_of_formula (c := 'c') ?_ rfl (by decide) (hformula _ hread)
      simp only [String.toList_append]
      rfl
    | false =>
      refine statementOf?_of_formula (c := 'd') ?_ rfl (by decide) (hformula _ hread)
      simp only [String.toList_append]
      rfl
  | coordinates side => rcases side with _ | _ | _ <;> decide +kernel
  | vertexLists _ _ | facetVertex _ _ _ _ | pointArray _ _ => exact of_decide_eq_true h
  | direction test =>
    have hread := direction?_line h
    rw [lines, head?_cons, Option.bind_some] at hread
    refine hone (statementOf?_of_formula (c := 'c') ?_ rfl (by decide) ?_)
    · simp only [String.toList_append]
      rfl
    · rw [formulaStatement?, definition?_of_direction? hread, hread]
  | orientation side => rcases side with _ | _ | _ <;> decide +kernel
  | pointEntry side axis e =>
    have hread := entry?_line side axis h
    rw [lines, head?_cons, Option.bind_some] at hread
    refine hone (statementOf?_of_formula (c := 'X') ?_ rfl (by decide)
      (formulaStatement?_of_coordinate hread))
    simp only [String.toList_append]
    rfl

theorem read_steps {steps : List Step} (h : steps.all isReadable = true) :
    (steps.flatMap lines).mapM statementOf? = some (steps.flatMap statements) := by
  induction steps with
  | nil => rfl
  | cons step steps ih =>
    rw [all_cons, Bool.and_eq_true] at h
    rw [flatMap_cons, flatMap_cons, mapM_append, read_lines h.1, ih h.2]
    rfl

end Step

end WeakForm
