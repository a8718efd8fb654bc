import Mathlib.Data.List.TakeWhile
import WeakForm.Proofs.FormulaReading

/-!
# Reading lines of geometry code

The formulas of geometry code stand in lines. A line defines a scalar by an expression or by
a choice between two, tells the direction of a normal, or sets a coordinate of a point. This
module reads such lines as a whole, so that a choice which has its branches the wrong way
round, or a sign in the wrong place, is found in the text.

A line is read from its words and operators. Marks such as `?` and `:` are words of their
own, since blanks stand around them, and no expression contains them.

## Main definitions

* `Cpp.formula?`, `Cpp.test?`: The formula or the condition with given words and operators.
* `Cpp.definition?`, `Cpp.direction?`, `Cpp.entry?`: What a line defines.

## Theorems

* `Formula.formula?_text`, `Test.test?_text`: Formulas and conditions are read back.
* `Cpp.definition?_line`, `Cpp.direction?_line`, `Cpp.entry?_line`: So are the lines they stand in.
-/

namespace WeakForm

open List Text Cpp Term

/-- The name of the physical coordinates of the current quadrature point. -/
def pointName (side : Option Side) : String := "X" ++ Side.suffix side

def entryName (side : Option Side) (axis : Nat) : String :=
  pointName side ++ "[" ++ toString axis ++ "]"

namespace Cpp

/-- A word that stands on its own. -/
def mark (s : String) : Token := .word s.toList

/-- What stands in front of the first mark of a kind, and what stands behind it. -/
def split? (s : String) (ts : List Token) : Option (List Token × List Token) :=
  match ts.dropWhile (· ≠ mark s) with
  | [] => none
  | _ :: back => some (ts.takeWhile (· ≠ mark s), back)

/-- The expression in front of a closing bracket. -/
def closed? (ts : List Token) : Option Term :=
  if ts.getLast? = some .closing then term? ts.dropLast else none

/-- The choice that is made under a condition. -/
def chooser? (test : List Token) : Option (Term → Term → Formula) :=
  if test = [mark "direction"] then some (.directed false)
  else if test = [mark "!direction"] then some (.directed true)
  else if test = [.opening, mark "direction"] then some (.turned false)
  else if test = [.minus, .opening, mark "direction"] then some (.turned true)
  else (sideOf? fun side => test = [mark (facetVariable side), mark "==", mark "0"]).map .byFacet

/-- The formula with the given words and operators. A bracket that is opened in front of a condition
    is closed behind the choice. -/
def formula? (ts : List Token) : Option Formula :=
  match split? "?" ts with
  | none => (term? ts).map .plain
  | some (test, choices) => do
    let (a, b) ← split? ":" choices
    let choose ← chooser? test
    return choose (← term? a) (← if .opening ∈ test then closed? b else term? b)

/-- Whether the first vertex of an interval lies ahead of the other, for facet zero; and the other
    way round for facet one. -/
def aheadTokens (side : Option Side) : List Token :=
  let x (vertex : Nat) : Token := mark (Quantity.text (.coordinate side (.fixed vertex) 0))
  [mark (facetVariable side), mark "==", mark "0", mark "?", x 0, mark ">", x 1, mark ":", x 1,
    mark ">", x 0]

/-- The condition with the given words and operators. -/
def test? (ts : List Token) : Option Test :=
  match split? "<" ts with
  | some (e, bound) => if bound = [mark "0"] then (term? e).map .negative else none
  | none => (sideOf? fun side => ts = aheadTokens side).map .ahead

/-- The words and operators of a line in front of its semicolon. -/
def statement? (line : String) : Option (List Token) :=
  if line.toList.getLast? = some ';' then some (lex [] line.toList.dropLast) else none

/-- A scalar with its formula, as it is defined behind the word for constants or without it. -/
def scalar? (isConstant : Bool) : List Token → Option (Bool × String × Formula)
  | kind :: .word name :: sign :: ts =>
    if kind = mark "double" ∧ sign = mark "=" then
      (formula? ts).map fun f => (isConstant, String.ofList name, f)
    else none
  | _ => none

/-- The scalar that a line defines, and whether it is a constant. -/
def definition? (line : String) : Option (Bool × String × Formula) :=
  (statement? line).bind fun ts =>
    if ts.head? = some (mark "const") then scalar? true ts.tail else scalar? false ts

def direction? (line : String) : Option Test :=
  (statement? line).bind fun ts =>
    if ts.take 4 = [mark "const", mark "bool", mark "direction", mark "="] then test? (ts.drop 4)
    else none

def pointAxis? (w : List Char) : Option (Option Side × Nat) :=
  match w.splitOn '[' with
  | [name, axis] => do
    let side ← sideOf? fun side => name = (pointName side).toList
    return (side, ← natural? (← subscript? axis))
  | _ => none

/-- The coordinate of a point that a line sets, and its value. -/
def entry? (line : String) : Option (Option Side × Nat × Term) :=
  (statement? line).bind fun
    | .word w :: sign :: ts =>
      if sign = mark "=" then do
        let (side, axis) ← pointAxis? w
        return (side, axis, ← term? ts)
      else none
    | _ => none

/-! ## Words and marks -/

section

variable {s : String} {front back ts : List Token}

theorem split?_append (h : mark s ∉ front) :
    split? s (front ++ mark s :: back) = some (front, back) := by
  have hfront : ∀ t ∈ front, decide (t ≠ mark s) = true := by
    intro t ht
    exact decide_eq_true fun heq => h (heq ▸ ht)
  rw [split?, dropWhile_append_of_pos hfront, takeWhile_append_of_pos hfront,
    dropWhile_cons_of_neg (by simp), takeWhile_cons_of_neg (by simp), append_nil]

theorem split?_of_notMem (h : mark s ∉ ts) : split? s ts = none := by
  have hnil : ts.dropWhile (· ≠ mark s) = [] := by
    refine dropWhile_eq_nil_iff.2 fun t ht => ?_
    exact decide_eq_true fun heq => h (heq ▸ ht)
  rw [split?, hnil]

end

theorem lex_mark {s : String} (h : isWord s.toList = true) (cs : List Char) :
    lex [] (s.toList ++ ' ' :: cs) = mark s :: lex [] cs :=
  lex_word h (stops_cons (.inl rfl))

end Cpp

/-- The words of an expression are its names, its literals and the functions it calls. -/
theorem Expr.forall_word_mem_tokens {ν α : Type} {nameText : ν → String} {number : α → String}
    {P : List Char → Prop} {e : Expr ν α} (hnames : ∀ n ∈ e.names, P (nameText n).toList)
    (hliterals : ∀ x ∈ e.literals, P (number x).toList)
    (hfunctions : ∀ w, Unary.ofWord? w ≠ none → P w) {w : List Char}
    (h : .word w ∈ e.tokens nameText number) : P w := by
  induction e with
  | literal x =>
    rw [Token.word.inj (mem_singleton.1 h)]
    exact hliterals x mem_cons_self
  | name n =>
    rw [Token.word.inj (mem_singleton.1 h)]
    exact hnames n mem_cons_self
  | neg a ih | group a ih =>
    simp only [tokens, mem_cons, mem_append, not_mem_nil, reduceCtorEq, false_or, or_false] at h
    exact ih hnames hliterals h
  | sqrt a ih | abs a ih =>
    simp only [tokens, mem_cons, mem_append, not_mem_nil, reduceCtorEq, false_or, or_false,
      Token.word.injEq] at h
    rcases h with rfl | h
    · exact hfunctions _ (by decide)
    · exact ih hnames hliterals h
  | add a b iha ihb | sub a b iha ihb | mul a b iha ihb | div a b iha ihb =>
    rcases forall_mem_append.1 hnames with ⟨hna, hnb⟩
    rcases forall_mem_append.1 hliterals with ⟨hla, hlb⟩
    simp only [tokens, mem_cons, mem_append, reduceCtorEq, false_or] at h
    exact h.elim (iha hna hla) (ihb hnb hlb)

namespace Term

variable {e a b : Term}

theorem notMem_tokens (h : isReadable e = true) : ∀ s ∈ ["?", ":", "<"], mark s ∉ tokens e := by
  intro s hs hmem
  have hmarks : ∀ s ∈ ["?", ":", "<"], s.toList.all isNameChar = false ∧
      startsWithDigit s.toList = false ∧ Unary.ofWord? s.toList = none := by decide
  rcases hmarks s hs with ⟨hname, hdigit, hcall⟩
  rw [isReadable, Bool.and_eq_true, Bool.and_eq_true] at h
  -- A mark is no name by its characters, no literal by its first one, and no function.
  refine Expr.forall_word_mem_tokens (P := (s.toList ≠ ·)) (fun q hq hw => ?_) (fun f hf hw => ?_)
    (fun w hw hs => hw (hs ▸ hcall)) hmem rfl
  · rw [hw, all_eq_true.2 (Quantity.isNameChar_text (all_eq_true.1 h.1.2 q hq))] at hname
    cases hname
  · have hf := all_eq_true.1 h.2 f hf
    rw [Fixed.isReadable, Bool.and_eq_true, Bool.and_eq_true, ← hw, hdigit] at hf
    exact absurd hf.1.2 Bool.false_ne_true

end Term

/-! ## Formulas and conditions -/

theorem isWord_facetVariable (side : Option Side) : isWord (facetVariable side).toList = true := by
  rcases side with _ | _ | _ <;> decide

namespace Formula

/-- Whether the expressions of a formula are written as they are read. -/
def isReadable : Formula → Bool
  | plain e => Term.isReadable e
  | directed _ a b | turned _ a b | byFacet _ a b => Term.isReadable a && Term.isReadable b

variable {a b : Term} {layout : Layout}

theorem lex_choice {test : String} {ts : List Token} {rest : List Char}
    (htest : ∀ {rest}, Stops rest → lex [] (test.toList ++ rest) = ts ++ lex [] rest)
    (ha : Term.isReadable a = true) (hb : Term.isReadable b = true) (hrest : Stops rest) :
    lex [] ((choice test layout a b).toList ++ rest) =
      ts ++ mark "?" :: (tokens a ++ mark ":" :: (tokens b ++ lex [] rest)) := by
  have hblank : ∀ cs, Stops (' ' :: cs) := fun cs => stops_cons (.inl rfl)
  simp only [choice, String.toList_append, append_assoc]
  change lex [] (test.toList ++ ' ' :: ("?".toList ++ ' ' :: ((Term.text layout a).toList ++
    ' ' :: (":".toList ++ ' ' :: ((Term.text layout b).toList ++ rest))))) = _
  rw [htest (hblank _)]
  change ts ++ lex [] ("?".toList ++ ' ' :: _) = _
  rw [lex_mark (by decide), lex_layout layout ha (hblank _)]
  change ts ++ mark "?" :: (tokens a ++ lex [] (":".toList ++ ' ' :: _)) = _
  rw [lex_mark (by decide), lex_layout layout hb hrest]

theorem formula?_choice (test : List Token) {choose : Term → Term → Formula}
    (htest : mark "?" ∉ test) (hchoose : chooser? test = some choose)
    (ha : Term.isReadable a = true) (hb : Term.isReadable b = true) :
    formula? (test ++ mark "?" :: (tokens a ++ mark ":" :: (tokens b ++
      if .opening ∈ test then [.closing] else []))) = some (choose a b) := by
  have hsplit : ∀ back, split? ":" (tokens a ++ mark ":" :: back) =
      some (tokens a, back) :=
    fun back => split?_append (notMem_tokens ha ":" (by decide))
  simp only [formula?, split?_append htest, hsplit, hchoose, term?_tokens ha, Option.bind_eq_bind,
    Option.bind_some]
  by_cases hopening : .opening ∈ test
  · rw [if_pos hopening, if_pos hopening, closed?, getLast?_concat, if_pos rfl, dropLast_concat,
      term?_tokens hb]
    rfl
  · rw [if_neg hopening, if_neg hopening, append_nil, term?_tokens hb]
    rfl

theorem formula?_text (layout : Layout) {f : Formula} (h : f.isReadable = true) :
    formula? (lex [] (f.text layout).toList) = some f := by
  rw [← append_nil (f.text layout).toList]
  have hnil : lex [] [] = [] := rfl
  have hdirection : ∀ {rest}, Stops rest →
      lex [] ("direction".toList ++ rest) = [mark "direction"] ++ lex [] rest :=
    fun hrest => lex_word (by decide) hrest
  cases f with
  | plain e =>
    have hsplit := split?_of_notMem (notMem_tokens h "?" (by decide))
    rw [text, lex_layout layout h stops_nil, hnil, append_nil, formula?, hsplit]
    simp only [term?_tokens h, Option.map_some]
  | directed opposite a b =>
    rw [isReadable, Bool.and_eq_true] at h
    cases opposite with
    | false =>
      rw [text, if_neg Bool.false_ne_true, lex_choice hdirection h.1 h.2 stops_nil]
      exact formula?_choice [mark "direction"] (by decide) rfl h.1 h.2
    | true =>
      have hnot : ∀ {rest}, Stops rest →
          lex [] ("!direction".toList ++ rest) = [mark "!direction"] ++ lex [] rest :=
        fun hrest => lex_word (by decide) hrest
      rw [text, if_pos rfl, lex_choice hnot h.1 h.2 stops_nil]
      exact formula?_choice [mark "!direction"] (by decide) rfl h.1 h.2
  | turned opposite a b =>
    rw [isReadable, Bool.and_eq_true] at h
    have hchoice : ∀ {rest}, Stops rest →
        lex [] ((choice "direction" layout a b).toList ++ rest) =
          mark "direction" :: mark "?" ::
            (tokens a ++ mark ":" :: tokens b) ++ lex [] rest := by
      intro rest hrest
      rw [lex_choice hdirection h.1 h.2 hrest]
      simp only [cons_append, nil_append, append_assoc]
    cases opposite with
    | false =>
      have hread := formula?_choice [.opening, mark "direction"] (by decide) rfl h.1 h.2
      rw [if_pos (by decide)] at hread
      rw [text, if_neg Bool.false_ne_true, String.empty_append, lex_grouped hchoice, ← hread]
      simp [hnil]
    | true =>
      have hread := formula?_choice [.minus, .opening, mark "direction"] (by decide) rfl
        h.1 h.2
      rw [if_pos (by decide)] at hread
      rw [text, if_pos rfl, String.toList_append, append_assoc]
      change formula? (.minus :: lex [] ((grouped _).toList ++ [])) = _
      rw [lex_grouped hchoice, ← hread]
      simp [hnil]
  | byFacet side a b =>
    rw [isReadable, Bool.and_eq_true] at h
    have hlex : ∀ {rest}, Stops rest →
        lex [] ((facetVariable side ++ " == 0").toList ++ rest) =
          [mark (facetVariable side), mark "==", mark "0"] ++ lex [] rest := by
      intro rest hrest
      rw [String.toList_append, append_assoc]
      change lex [] (_ ++ ' ' :: ("==".toList ++ ' ' :: ("0".toList ++ rest))) = _
      rw [lex_mark (isWord_facetVariable side), lex_mark (by decide), lex_word (by decide) hrest]
      rfl
    rw [text, lex_choice hlex h.1 h.2 stops_nil]
    refine formula?_choice [mark (facetVariable side), mark "==", mark "0"]
      ?_ ?_ h.1 h.2
    · rcases side with _ | _ | _ <;> decide
    · rcases side with _ | _ | _ <;> rfl

end Formula

def Test.isReadable : Test → Bool
  | negative e => Term.isReadable e
  | ahead _ => true

theorem Test.test?_text {t : Test} (h : t.isReadable = true) :
    test? (lex [] t.text.toList) = some t := by
  cases t with
  | negative e =>
    rw [text, String.toList_append]
    change test? (lex [] (_ ++ ' ' :: ("<".toList ++ ' ' :: "0".toList))) = _
    rw [lex_layout .wide h (stops_cons (.inl rfl))]
    change test? (tokens e ++ lex [] ("<".toList ++ ' ' :: "0".toList)) = _
    rw [lex_mark (by decide), test?,
      split?_append (notMem_tokens h "<" (by decide))]
    simp only
    rw [if_pos (show lex [] "0".toList = [mark "0"] from rfl), term?_tokens h,
      Option.map_some]
  | ahead side => rcases side with _ | _ | _ <;> rfl

/-! ## Lines -/

namespace Cpp

variable (side : Option Side) (axis : Nat)

theorem statement?_line (s : String) : statement? (s ++ ";") = some (lex [] s.toList) := by
  have hline : (s ++ ";").toList = s.toList ++ [';'] := String.toList_append
  rw [statement?, hline, getLast?_concat, if_pos rfl, dropLast_concat]

theorem definition?_line (isConstant : Bool) {name : String} (layout : Layout) {f : Formula}
    (hname : isName name = true) (hf : f.isReadable = true) :
    (Step.define isConstant name layout f).lines.head?.bind definition? =
      some (isConstant, name, f) := by
  rw [Step.lines, head?_cons, Option.bind_some, definition?, statement?_line, Option.bind_some]
  set pad := if layout = .aligned then " " else "" with hpad
  have hback : lex [] (name ++ " = " ++ pad ++ f.text layout).toList =
      mark name :: mark "=" :: lex [] (f.text layout).toList := by
    simp only [String.toList_append, append_assoc]
    change lex [] (name.toList ++ ' ' :: ("=".toList ++ ' ' ::
      (pad.toList ++ (f.text layout).toList))) = _
    rw [lex_mark (isWord_of_isName hname), lex_mark (by decide), hpad]
    -- A blank more or less does not matter.
    split <;> rfl
  have hscalar : ∀ isConstant, scalar? isConstant (mark "double" :: mark name :: mark "=" ::
      lex [] (f.text layout).toList) = some (isConstant, name, f) := by
    intro isConstant
    rw [mark, mark, scalar?, if_pos ⟨rfl, rfl⟩, Formula.formula?_text layout hf, Option.map_some,
      String.ofList_toList]
  cases isConstant with
  | true =>
    have hlex : lex [] ("const double " ++ name ++ " = " ++ pad ++ f.text layout).toList =
        mark "const" :: mark "double" :: mark name :: mark "=" ::
          lex [] (f.text layout).toList := by
      rw [← hback]
      simp only [String.append_assoc, String.toList_append]
      exact (lex_mark (s := "const") (by decide) _).trans
        (congrArg _ (lex_mark (s := "double") (by decide) _))
    rw [if_pos rfl, hlex, head?_cons, if_pos rfl, tail_cons]
    exact hscalar true
  | false =>
    have hlex : lex [] ("double " ++ name ++ " = " ++ pad ++ f.text layout).toList =
        mark "double" :: mark name :: mark "=" :: lex [] (f.text layout).toList := by
      rw [← hback]
      simp only [String.append_assoc, String.toList_append]
      exact lex_mark (s := "double") (by decide) _
    rw [if_neg Bool.false_ne_true, hlex, head?_cons, if_neg (by decide)]
    exact hscalar false

theorem direction?_line {t : Test} (h : t.isReadable = true) :
    (Step.direction t).lines.head?.bind direction? = some t := by
  have hlex : lex [] ("const bool direction = " ++ t.text).toList =
      [mark "const", mark "bool", mark "direction", mark "="] ++ lex [] t.text.toList := by
    rw [String.toList_append]
    change lex [] ("const".toList ++ ' ' :: ("bool".toList ++ ' ' :: ("direction".toList ++ ' ' ::
      ("=".toList ++ ' ' :: t.text.toList)))) = _
    rw [lex_mark (by decide), lex_mark (by decide), lex_mark (by decide), lex_mark (by decide)]
    rfl
  rw [Step.lines, head?_cons, Option.bind_some, direction?, statement?_line, Option.bind_some, hlex]
  exact (if_pos rfl).trans (Test.test?_text h)

theorem toList_entryName : (entryName side axis).toList =
    ['['].intercalate [(pointName side).toList, Nat.toDigits 10 axis ++ [']']] := by
  simp only [entryName, String.toList_append, ← Nat.toList_repr, List.intercalate, List.intersperse,
    flatten_cons, flatten_nil, append_nil, append_assoc]
  rfl

theorem all_pointName : (pointName side).toList.all isWordChar = true := by
  rcases side with _ | _ | _ <;> decide

theorem pointAxis?_entryName : pointAxis? (entryName side axis).toList = some (side, axis) := by
  have hnotMem : ∀ l ∈ [(pointName side).toList, Nat.toDigits 10 axis ++ [']']], '[' ∉ l :=
    forall_mem_cons.2 ⟨notMem_of_all (all_pointName side) (by decide),
      forall_mem_singleton.2 (Quantity.notMem_toDigits axis)⟩
  have hside : sideOf? (fun side' => (pointName side).toList = (pointName side').toList) =
      some side :=
    sideOf?_eq (append_suffix_injective "X") side
  rw [pointAxis?, toList_entryName, splitOn_intercalate '[' hnotMem (by simp)]
  simp only [subscript?_append, natural?_toDigits, hside, Option.bind_eq_bind, Option.bind_some,
    Option.pure_def]

theorem isWord_entryName : isWord (entryName side axis).toList = true := by
  have hname := isNameChar_of_all (all_pointName side)
  have haxis := isNameChar_of_all (all_isWordChar_toString axis)
  refine isWord_of_isPlain ?_ fun c hc => isPlain_of_isNameChar ?_
  · simp [entryName, pointName]
  · simp only [entryName, String.toList_append, mem_append] at hc
    rcases hc with ((hc | hc) | hc) | hc
    · exact hname c hc
    · rw [mem_singleton.1 hc]
      rfl
    · exact haxis c hc
    · rw [mem_singleton.1 hc]
      rfl

theorem entry?_line {e : Term} (h : Term.isReadable e = true) :
    (Step.pointEntry side axis e).lines.head?.bind entry? = some (side, axis, e) := by
  have hline : (Step.pointEntry side axis e).lines =
      [entryName side axis ++ " = " ++ Term.text .wide e ++ ";"] := by
    change ["X" ++ Side.suffix side ++ "[" ++ toString axis ++ "] = " ++ _ ++ ";"] = _
    simp only [entryName, pointName, String.append_assoc]
    rfl
  have hlex : lex [] (entryName side axis ++ " = " ++ Term.text .wide e).toList =
      mark (entryName side axis) :: mark "=" :: tokens e := by
    have hterm := lex_layout .wide h stops_nil
    rw [append_nil, show lex [] [] = [] from rfl, append_nil] at hterm
    rw [← hterm, String.toList_append, String.toList_append, append_assoc]
    change lex [] (_ ++ ' ' :: ("=".toList ++ ' ' :: _)) = _
    rw [lex_mark (isWord_entryName side axis), lex_mark (by decide)]
    rfl
  rw [hline, head?_cons, Option.bind_some, entry?, statement?_line, Option.bind_some, hlex]
  simp only [mark, if_true, pointAxis?_entryName, term?_tokens h, Option.bind_eq_bind,
    Option.bind_some, Option.pure_def]

end Cpp

end WeakForm
