import Mathlib.Algebra.Group.Subgroup.Order
import Mathlib.Data.List.Induction
import WeakForm.Proofs.Execution
import WeakForm.Proofs.Transforms

/-!
# Reading expressions

Geometry constants are shared between terms if their text is the same. That this is
sound is a fact about text: whoever reads the text of a sum must find the value of
the sum, for then two sums with one text have one value. So this module reads
expressions the way the language does that they are written in.

Reading has two parts. Characters form words and operators: a word ends at a blank or
at an operator, except that the sign of an exponent belongs to the number it stands
in. Words and operators are then calculated with from left to right. Products bind
closer than sums, operators of one rank are taken from the left, and a sign in front
of an operand applies to that operand. What waits for its right operand is one
sum, one product and one sign for each open bracket, a `Frame`.

Expressions are written without adding brackets, so not every tree is read back as it
stands: the product of a sum must hold the sum in brackets. `Expr.rank` tells the
trees that are. A sign in front of a product is the one place where the reader sees
another tree than the writer, and there the values agree.

## Main definitions

* `Token`, `lex`: Words and operators, and how characters form them.
* `Frame`, `Reader`: What has been read so far.
* `Cpp.read`: The value of a text.

## Theorems

* `GeometrySum.value_eq_of_text_eq`: Sums with the same text have the same value.
-/

namespace WeakForm

open List Success

variable {K : Type}

/-- Words and operators. -/
inductive Token where
  | word (characters : List Char)
  | plus
  | minus
  | times
  | slash
  | opening
  | closing
  deriving DecidableEq

def Token.ofChar? : Char → Option Token
  | '+' => some plus
  | '-' => some minus
  | '*' => some times
  | '/' => some slash
  | '(' => some opening
  | ')' => some closing
  | _ => none

/-- Whether a text begins with a digit, as literals do. -/
def startsWithDigit (cs : List Char) : Bool := cs.head?.any Char.isDigit

/-- Whether a character is the sign of the exponent of a literal that ends in front of it. -/
def isExponentSign (word : List Char) (c : Char) : Bool :=
  (c == '+' || c == '-') && startsWithDigit word && word.getLast?.any fun x => x == 'e' || x == 'E'

def continuesWord (word : List Char) (c : Char) : Bool :=
  c != ' ' && ((Token.ofChar? c).isNone || isExponentSign word c)

def wordToken (word : List Char) : List Token := if word.isEmpty then [] else [.word word]

/-- Words and operators of a text, behind the beginning of a word. -/
def lex (word : List Char) : List Char → List Token
  | [] => wordToken word
  | c :: cs =>
    if continuesWord word c then lex (word ++ [c]) cs
    else wordToken word ++ (Token.ofChar? c).toList ++ lex [] cs

/-- Whether characters all belong to the word in front of them. -/
def extendsWord (word : List Char) : List Char → Bool
  | [] => true
  | c :: cs => continuesWord word c && extendsWord (word ++ [c]) cs

def isWord (cs : List Char) : Bool := !cs.isEmpty && extendsWord [] cs

/-- Whether a character is neither a blank nor an operator. -/
def isPlain (c : Char) : Bool := c != ' ' && (Token.ofChar? c).isNone

/-- What waits for its right operand inside of one pair of brackets. -/
structure Frame (K : Type) where
  /-- A sum, and whether what follows is subtracted. -/
  sum : Option (K × Bool) := none
  /-- A product, and whether what follows divides it. -/
  product : Option (K × Bool) := none
  /-- Whether there is a sign in front of what follows. -/
  negated : Bool := false

namespace Frame

variable [Field K]

/-- An operand with the sign in front of it. -/
def signed (f : Frame K) (x : K) : K := if f.negated then -x else x

/-- The product with its last factor. -/
def times (f : Frame K) (x : K) : K :=
  match f.product with
  | none => x
  | some (p, false) => p * x
  | some (p, true) => p / x

/-- The sum with its last product. -/
def plus (f : Frame K) (x : K) : K :=
  match f.sum with
  | none => f.times x
  | some (s, false) => s + f.times x
  | some (s, true) => s - f.times x

end Frame

/-- Where a reader stands: in front of an operand, or behind one. The frames of the brackets
    around it are listed from the inside out. -/
inductive Reader (K : Type) where
  | operand (f : Frame K) (outer : List (Frame K))
  | operator (x : K) (f : Frame K) (outer : List (Frame K))

namespace Reader

variable [Field K]

/-- Reads a word or operator, given the values of words. -/
def step (valueOf : List Char → Option K) : Reader K → Token → Option (Reader K)
  | operand f outer, .word w => (valueOf w).map fun x =>
    operator (f.signed x) { f with negated := false } outer
  | operand f outer, .minus => some (operand { f with negated := !f.negated } outer)
  | operand f outer, .opening => some (operand {} (f :: outer))
  | operand _ _, _ => none
  | operator x f outer, .times => some (operand { f with product := some (f.times x, false) } outer)
  | operator x f outer, .slash => some (operand { f with product := some (f.times x, true) } outer)
  | operator x f outer, .plus => some (operand { sum := some (f.plus x, false) } outer)
  | operator x f outer, .minus => some (operand { sum := some (f.plus x, true) } outer)
  | operator x f (g :: outer), .closing =>
    some (operator (g.signed (f.plus x)) { g with negated := false } outer)
  | operator _ _ _, _ => none

/-- Reads words and operators from left to right. -/
def run (valueOf : List Char → Option K) (r : Reader K) (ts : List Token) : Option (Reader K) :=
  ts.foldlM (step valueOf) r

/-- The value of all that has been read. -/
def result : Reader K → Option K
  | operator x f [] => some (f.plus x)
  | _ => none

end Reader

/-- The value of a text, given the values of words. -/
def Cpp.read [Field K] (valueOf : List Char → Option K) (text : String) : Option K :=
  ((Reader.operand {} []).run valueOf (lex [] text.toList)).bind Reader.result

namespace Expr

variable {ν α : Type}

/-- The rank of the operators on the outside: none, products, sums, or operators that are not read
    back where they stand. -/
def rank : Expr ν α → Nat
  | literal _ | name _ => 0
  | group a => if a.rank ≤ 2 then 0 else 3
  | mul a b | div a b => if a.rank ≤ 1 ∧ b.rank = 0 then 1 else 3
  | neg a => if a.rank ≤ 1 then 2 else 3
  | add a b | sub a b => if a.rank ≤ 2 ∧ b.rank ≤ 1 then 2 else 3
  | sqrt _ | abs _ => 3

/-- The numbers in an expression. -/
def literals : Expr ν α → List α
  | literal x => [x]
  | name _ => []
  | neg a | sqrt a | abs a | group a => a.literals
  | add a b | sub a b | mul a b | div a b => a.literals ++ b.literals

def mapLiterals {β : Type} (f : α → β) : Expr ν α → Expr ν β
  | literal x => literal (f x)
  | name n => name n
  | neg a => neg (a.mapLiterals f)
  | add a b => add (a.mapLiterals f) (b.mapLiterals f)
  | sub a b => sub (a.mapLiterals f) (b.mapLiterals f)
  | mul a b => mul (a.mapLiterals f) (b.mapLiterals f)
  | div a b => div (a.mapLiterals f) (b.mapLiterals f)
  | sqrt a => sqrt (a.mapLiterals f)
  | abs a => abs (a.mapLiterals f)
  | group a => group (a.mapLiterals f)

theorem mapLiterals_id (e : Expr ν α) : e.mapLiterals id = e := by
  induction e with
  | literal x | name n => rfl
  | neg a ih | sqrt a ih | abs a ih | group a ih => rw [mapLiterals, ih]
  | add a b iha ihb | sub a b iha ihb | mul a b iha ihb | div a b iha ihb =>
    rw [mapLiterals, iha, ihb]

/-- The words and operators of an expression. -/
def tokens (nameText : ν → String) (number : α → String) : Expr ν α → List Token
  | literal x => [.word (number x).toList]
  | name n => [.word (nameText n).toList]
  | neg a => .minus :: a.tokens nameText number
  | add a b => a.tokens nameText number ++ .plus :: b.tokens nameText number
  | sub a b => a.tokens nameText number ++ .minus :: b.tokens nameText number
  | mul a b => a.tokens nameText number ++ .times :: b.tokens nameText number
  | div a b => a.tokens nameText number ++ .slash :: b.tokens nameText number
  | sqrt a => .word "std::sqrt".toList :: .opening :: (a.tokens nameText number ++ [.closing])
  | abs a => .word "std::abs".toList :: .opening :: (a.tokens nameText number ++ [.closing])
  | group a => .opening :: (a.tokens nameText number ++ [.closing])

end Expr

section

variable {word cs rest : List Char}

/-- A text that does not continue any word in front of it. -/
def Stops (rest : List Char) : Prop := ∀ c ∈ rest.head?, ∀ word, continuesWord word c = false

theorem stops_nil : Stops [] := fun _ hc => absurd hc (by simp)

theorem stops_cons {c : Char} (h : c = ' ' ∨ c = '*' ∨ c = '/' ∨ c = '(' ∨ c = ')') :
    Stops (c :: cs) := by
  intro d hd word
  rw [head?_cons, Option.mem_some_iff] at hd
  -- None of these characters is a sign, so the word in front does not matter.
  rcases h with rfl | rfl | rfl | rfl | rfl <;> subst hd <;> rfl

theorem lex_stop (h : Stops rest) : lex word rest = wordToken word ++ lex [] rest := by
  cases rest with
  | nil => simp [lex, wordToken]
  | cons c cs =>
    -- Both sides end the word here: the first character of the rest continues none.
    have hc := h c rfl
    rw [lex, lex, if_neg (by rw [hc]; exact Bool.false_ne_true),
      if_neg (by rw [hc]; exact Bool.false_ne_true), append_assoc]
    rfl

theorem lex_extends (h : extendsWord word cs = true) :
    lex word (cs ++ rest) = lex (word ++ cs) rest := by
  induction cs generalizing word with
  | nil => rw [nil_append, append_nil]
  | cons c cs ih =>
    rw [extendsWord, Bool.and_eq_true] at h
    rw [cons_append, lex, if_pos h.1, ih h.2, append_assoc, singleton_append]

theorem lex_word (h : isWord cs = true) (hrest : Stops rest) :
    lex [] (cs ++ rest) = .word cs :: lex [] rest := by
  rw [isWord, Bool.and_eq_true, Bool.not_eq_true'] at h
  rw [lex_extends h.2, nil_append, lex_stop hrest, wordToken, h.1]
  rfl

theorem extendsWord_of_isPlain (h : ∀ c ∈ cs, isPlain c = true) : extendsWord word cs = true := by
  induction cs generalizing word with
  | nil => rfl
  | cons c cs ih =>
    rw [forall_mem_cons, isPlain, Bool.and_eq_true] at h
    rw [extendsWord, continuesWord, h.1.1, h.1.2, ih h.2]
    rfl

theorem isWord_of_isPlain (hne : cs ≠ []) (h : ∀ c ∈ cs, isPlain c = true) : isWord cs = true := by
  rw [isWord, extendsWord_of_isPlain h, isEmpty_eq_false_iff.2 hne]
  rfl

def isNameChar (c : Char) : Bool := Text.isWordChar c || c == '[' || c == ']'

theorem isPlain_of_isNameChar {c : Char} (h : isNameChar c = true) : isPlain c = true := by
  rw [isPlain, Bool.and_eq_true, bne_iff_ne, Option.isNone_iff_eq_none]
  constructor
  · rintro rfl
    cases h
  · unfold Token.ofChar?
    split <;> first | rfl | cases h

theorem isNameChar_of_all (h : cs.all Text.isWordChar = true) : ∀ c ∈ cs, isNameChar c = true := by
  intro c hc
  rw [isNameChar, all_eq_true.1 h c hc]
  rfl

theorem isPlain_of_isDigit {c : Char} (h : c.isDigit = true) : isPlain c = true :=
  isPlain_of_isNameChar (by simp [isNameChar, Text.isWordChar, Char.isAlphanum, h])

theorem startsWithDigit_toDigits (n : Nat) : startsWithDigit (Nat.toDigits 10 n) = true := by
  rcases exists_cons_of_ne_nil (Nat.toDigits_ne_nil (n := n) (b := 10)) with ⟨c, cs, hcs⟩
  rw [hcs, startsWithDigit, head?_cons, Option.any_some]
  exact Nat.isDigit_of_mem_toDigits (by decide) (by decide) (hcs ▸ mem_cons_self)

namespace Text

/-- A text that is one word. -/
def oneWord (s : String) : Bool := !s.toList.isEmpty && s.toList.all isWordChar

variable {s t : String}

theorem oneWord_append (hs : oneWord s = true) (ht : t.toList.all isWordChar = true) :
    oneWord (s ++ t) = true := by
  rw [oneWord, Bool.and_eq_true, Bool.not_eq_true', isEmpty_eq_false_iff] at hs ⊢
  rw [String.toList_append, List.all_append, hs.2, ht]
  exact ⟨append_ne_nil_of_left_ne_nil hs.1 _, rfl⟩

theorem all_isWordChar_toString (n : Nat) : (toString n).toList.all isWordChar = true := by
  refine all_eq_true.2 fun c hc => ?_
  rw [Nat.toString_eq_repr, Nat.toList_repr] at hc
  have hdigit := Nat.isDigit_of_mem_toDigits (by decide) (by decide) hc
  simp [isWordChar, Char.isAlphanum, hdigit]

theorem oneWord_toString (n : Nat) : oneWord (toString n) = true := by
  rw [oneWord, all_isWordChar_toString, Nat.toString_eq_repr, Nat.toList_repr, Bool.and_true,
    Bool.not_eq_true', isEmpty_eq_false_iff]
  exact Nat.toDigits_ne_nil

theorem isWord_of_oneWord (h : oneWord s = true) : isWord s.toList = true := by
  rw [oneWord, Bool.and_eq_true, Bool.not_eq_true', isEmpty_eq_false_iff] at h
  exact isWord_of_isPlain h.1 fun c hc => isPlain_of_isNameChar (isNameChar_of_all h.2 c hc)

end Text

theorem forall_mem_intercalate {β : Type} {p : β → Prop} {separator : List β} {ls : List (List β)}
    (hseparator : ∀ c ∈ separator, p c) (h : ∀ l ∈ ls, ∀ c ∈ l, p c) :
    ∀ c ∈ separator.intercalate ls, p c := by
  induction ls with
  | nil => exact nofun
  | cons l ls ih =>
    rw [forall_mem_cons] at h
    cases ls with
    | nil => exact intercalate_singleton ▸ h.1
    | cons l' ls =>
      rw [intercalate_cons_cons]
      exact forall_mem_append.2 ⟨forall_mem_append.2 ⟨h.1, hseparator⟩, ih h.2⟩

theorem lex_operator {c : Char} {t : Token} (h : Token.ofChar? c = some t) :
    lex [] (c :: cs) = t :: lex [] cs := by
  -- Behind no word at all a sign cannot belong to an exponent.
  have hc : continuesWord [] c = false := by
    simp [continuesWord, h, isExponentSign, startsWithDigit]
  rw [lex, if_neg (by rw [hc]; exact Bool.false_ne_true), h]
  rfl

theorem stops_grouped (s : String) : Stops ((grouped s).toList ++ rest) := by
  rw [grouped, String.toList_append, String.toList_append, append_assoc, append_assoc]
  exact stops_cons (by decide)

theorem lex_grouped {s : String} {ts : List Token}
    (h : ∀ {rest}, Stops rest → lex [] (s.toList ++ rest) = ts ++ lex [] rest) :
    lex [] ((grouped s).toList ++ rest) = .opening :: (ts ++ [.closing]) ++ lex [] rest := by
  have hinner : lex [] (s.toList ++ ')' :: rest) = ts ++ [.closing] ++ lex [] rest := by
    rw [h (stops_cons (by simp)), lex_operator rfl, append_assoc, singleton_append]
  simp only [grouped, String.toList_append, append_assoc]
  rw [cons_append, ← hinner]
  exact lex_operator rfl

/-- Operators that are written as signs, quotients with or without blanks. -/
def Operators.Signs (ops : Operators) : Prop :=
  ops.times = "*" ∧ ∃ blank ∈ ["", " "], ∀ a b, ops.quotient a b = a ++ blank ++ "/" ++ blank ++ b

theorem Cpp.signs_operators : Cpp.operators.Signs := by
  refine ⟨rfl, "", by simp, fun a b => ?_⟩
  rw [String.append_empty, String.append_empty]
  rfl

theorem lex_slash (cs : List Char) {blank : String} (h : blank ∈ ["", " "]) :
    Stops (blank.toList ++ '/' :: (blank.toList ++ cs)) ∧
      lex [] (blank.toList ++ '/' :: (blank.toList ++ cs)) = .slash :: lex [] cs := by
  rw [mem_pair] at h
  rcases h with rfl | rfl
  · exact ⟨stops_cons (by decide), rfl⟩
  · exact ⟨stops_cons (by decide), rfl⟩

theorem lex_text {ν α : Type} {ops : Operators} (hops : ops.Signs) {nameText : ν → String}
    {number : α → String} {e : Expr ν α} (hnames : ∀ n ∈ e.names, isWord (nameText n).toList = true)
    (hliterals : ∀ x ∈ e.literals, isWord (number x).toList = true) (hrest : Stops rest) :
    lex [] ((e.text ops nameText number).toList ++ rest) =
      e.tokens nameText number ++ lex [] rest := by
  rcases hops with ⟨htimes, blank, hblank, hquotient⟩
  induction e generalizing rest with
  | literal x => exact lex_word (hliterals x (mem_singleton_self x)) hrest
  | name n => exact lex_word (hnames n (mem_singleton_self n)) hrest
  | neg a ih =>
    rw [Expr.text, String.toList_append, Expr.tokens, cons_append, ← ih hnames hliterals hrest]
    rfl
  | group a ih =>
    rw [Expr.text, Expr.tokens]
    exact lex_grouped fun h => ih hnames hliterals h
  | sqrt a ih | abs a ih =>
    rw [Expr.text, Expr.tokens, String.toList_append, append_assoc,
      lex_word (by decide) (stops_grouped _), lex_grouped fun h => ih hnames hliterals h]
    rfl
  | add a b iha ihb | sub a b iha ihb | mul a b iha ihb =>
    -- The operator does not continue the word in front of it.
    have hb := ihb (fun n hn => hnames n (mem_append_right _ hn))
      (fun x hx => hliterals x (mem_append_right _ hx)) hrest
    simp only [Expr.text, htimes, Expr.tokens, String.toList_append, append_assoc, cons_append,
      ← hb]
    refine iha (fun n hn => hnames n (mem_append_left _ hn))
      (fun x hx => hliterals x (mem_append_left _ hx)) ?_
    exact stops_cons (by decide)
  | div a b iha ihb =>
    have hb := ihb (fun n hn => hnames n (mem_append_right _ hn))
      (fun x hx => hliterals x (mem_append_right _ hx)) hrest
    rcases lex_slash ((b.text ops nameText number).toList ++ rest) hblank with ⟨hstops, hslash⟩
    rw [Expr.text, hquotient, Expr.tokens, append_assoc, cons_append, ← hb, ← hslash,
      ← iha (fun n hn => hnames n (mem_append_left _ hn))
        (fun x hx => hliterals x (mem_append_left _ hx)) hstops]
    simp only [String.toList_append, append_assoc]
    rfl

end

section

variable [Field K] {valueOf : List Char → Option K} {ts us : List Token} {x y : K}

namespace Reader

theorem run_append (r : Reader K) : r.run valueOf (ts ++ us) = (r.run valueOf ts).bind
    fun r => r.run valueOf us := foldlM_append

theorem run_cons (r : Reader K) (t : Token) :
    r.run valueOf (t :: ts) = (r.step valueOf t).bind fun r => r.run valueOf ts := foldlM_cons

/-- Wherever an operand may stand, the tokens are read as one operand. -/
def Operand (valueOf : List Char → Option K) (ts : List Token) (x : K) : Prop :=
  ∀ f outer, (operand f outer).run valueOf ts =
    some (operator (f.signed x) { f with negated := false } outer)

/-- At the beginning of a product, the tokens are read as its factors. A sign in front is that of
    the product. -/
def Factors (valueOf : List Char → Option K) (ts : List Token) (x : K) : Prop :=
  ∀ f outer, f.product = none → ∃ y g, (operand f outer).run valueOf ts = some (operator y g outer) ∧
    g.sum = f.sum ∧ g.negated = false ∧ g.times y = f.signed x

/-- At the beginning of a text or bracket, the tokens are read as the summands of a sum. -/
def Summands (valueOf : List Char → Option K) (ts : List Token) (x : K) : Prop :=
  ∀ outer, ∃ y g, (operand {} outer).run valueOf ts = some (operator y g outer) ∧ g.plus y = x

theorem operand_word {w : List Char} (h : valueOf w = some x) : Operand valueOf [.word w] x := by
  intro f outer
  rw [run_cons, step, h]
  rfl

theorem Operand.factors (h : Operand valueOf ts x) : Factors valueOf ts x := by
  intro f outer hf
  refine ⟨_, _, h f outer, rfl, rfl, ?_⟩
  rw [Frame.times, hf]

theorem Factors.summands (h : Factors valueOf ts x) : Summands valueOf ts x := by
  intro outer
  rcases h {} outer rfl with ⟨y, g, hrun, hsum, _, hx⟩
  refine ⟨y, g, hrun, ?_⟩
  rw [Frame.plus, hsum, hx]
  rfl

theorem Factors.snoc (h : Factors valueOf ts x) (hy : Operand valueOf us y) (divides : Bool) :
    Factors valueOf (ts ++ (if divides then Token.slash else .times) :: us)
      (if divides then x / y else x * y) := by
  intro f outer hf
  rcases h f outer hf with ⟨z, g, hrun, hsum, hneg, hx⟩
  -- The sign in front went to the first factor, which is that of the product.
  refine ⟨y, { g with product := some (f.signed x, divides) }, ?_, hsum, hneg, ?_⟩
  · cases divides with
    | false =>
      rw [run_append, hrun, Option.bind_some, run_cons, if_neg Bool.false_ne_true]
      simp only [step, Option.bind_some, hy _ outer, Frame.signed, hneg, hx]
      rfl
    | true =>
      rw [run_append, hrun, Option.bind_some, run_cons, if_pos rfl]
      simp only [step, Option.bind_some, hy _ outer, Frame.signed, hneg, hx]
      rfl
  · cases divides with
    | false =>
      simp only [Frame.times, Frame.signed, Bool.false_eq_true, if_false]
      split
      · rw [neg_mul]
      · rfl
    | true =>
      simp only [Frame.times, Frame.signed, if_true]
      split
      · rw [neg_div]
      · rfl

theorem Factors.neg (h : Factors valueOf ts x) : Summands valueOf (.minus :: ts) (-x) := by
  intro outer
  rcases h { negated := true } outer rfl with ⟨y, g, hrun, hsum, _, hx⟩
  refine ⟨y, g, ?_, ?_⟩
  · rw [run_cons]
    exact hrun
  · rw [Frame.plus, hsum, hx]
    rfl

theorem Summands.snoc (h : Summands valueOf ts x) (hy : Factors valueOf us y) (subtracts : Bool) :
    Summands valueOf (ts ++ (if subtracts then Token.minus else .plus) :: us)
      (if subtracts then x - y else x + y) := by
  intro outer
  rcases h outer with ⟨z, g, hrun, hx⟩
  -- What has been summed waits in the frame while the factors of the new summand are read.
  rcases hy { sum := some (x, subtracts) } outer rfl with ⟨z', g', hrun', hsum, _, hy⟩
  refine ⟨z', g', ?_, ?_⟩
  · cases subtracts with
    | false =>
      rw [run_append, hrun, Option.bind_some, run_cons, if_neg Bool.false_ne_true]
      simp only [step, Option.bind_some, hx, hrun']
    | true =>
      rw [run_append, hrun, Option.bind_some, run_cons, if_pos rfl]
      simp only [step, Option.bind_some, hx, hrun']
  · rw [Frame.plus, hsum, hy]
    cases subtracts with
    | false => rfl
    | true => rfl

theorem Summands.group (h : Summands valueOf ts x) :
    Operand valueOf (.opening :: (ts ++ [.closing])) x := by
  intro f outer
  -- Inside of the brackets a new sum begins; the frame in front waits outside.
  rcases h (f :: outer) with ⟨y, g, hrun, hx⟩
  rw [run_cons, step, Option.bind_some, run_append, hrun, Option.bind_some, run_cons, step, hx]
  rfl

def Reads (valueOf : List Char → Option K) (ts : List Token) (x : K) : Nat → Prop
  | 0 => Operand valueOf ts x
  | 1 => Factors valueOf ts x
  | 2 => Summands valueOf ts x
  | _ => True

/-- An operand is a product of one factor, and a product is a sum of one summand. -/
theorem Reads.mono {m n : Nat} (h : Reads valueOf ts x m) (hmn : m ≤ n) : Reads valueOf ts x n := by
  rcases n with _ | _ | _ | n
  · rcases Nat.le_zero.1 hmn with rfl
    exact h
  · rcases m with _ | _ | m
    · exact Operand.factors h
    · exact h
    · omega
  · rcases m with _ | _ | _ | m
    · exact (Operand.factors h).summands
    · exact Factors.summands h
    · exact h
    · omega
  · exact trivial

theorem reads_ite {c : Prop} [Decidable c] {n : Nat} (h : c → Reads valueOf ts x n) :
    Reads valueOf ts x (if c then n else 3) := by
  split
  · next hc => exact h hc
  · exact trivial

end Reader

end

section

variable [Field K] [LinearOrder K] [Root K] {valueOf : List Char → Option K} {ν α : Type}
  {nameText : ν → String} {number : α → String} {value : ν → K} {f : α → K} {e : Expr ν α}

/-- The words and operators of an expression are read as what its rank says, with the value of the
    expression and the numbers that its literals stand for. -/
theorem Expr.read_tokens (hnames : ∀ n ∈ e.names, valueOf (nameText n).toList = some (value n))
    (hliterals : ∀ x ∈ e.literals, valueOf (number x).toList = some (f x)) :
    Reader.Reads valueOf (e.tokens nameText number) ((e.mapLiterals f).eval value) e.rank := by
  induction e with
  | literal x => exact Reader.operand_word (hliterals x (mem_singleton_self x))
  | name n => exact Reader.operand_word (hnames n (mem_singleton_self n))
  | sqrt a _ | abs a _ => exact trivial
  | group a ih =>
    exact Reader.reads_ite fun hrank =>
      ((ih hnames hliterals).mono hrank : Reader.Summands _ _ _).group
  | neg a ih =>
    exact Reader.reads_ite fun hrank =>
      ((ih hnames hliterals).mono hrank : Reader.Factors _ _ _).neg
  | mul a b iha ihb =>
    rcases forall_mem_append.1 hnames with ⟨hna, hnb⟩
    rcases forall_mem_append.1 hliterals with ⟨hla, hlb⟩
    exact Reader.reads_ite fun hrank => ((iha hna hla).mono hrank.1 : Reader.Factors _ _ _).snoc
      ((ihb hnb hlb).mono hrank.2.le) false
  | div a b iha ihb =>
    rcases forall_mem_append.1 hnames with ⟨hna, hnb⟩
    rcases forall_mem_append.1 hliterals with ⟨hla, hlb⟩
    exact Reader.reads_ite fun hrank => ((iha hna hla).mono hrank.1 : Reader.Factors _ _ _).snoc
      ((ihb hnb hlb).mono hrank.2.le) true
  | add a b iha ihb =>
    rcases forall_mem_append.1 hnames with ⟨hna, hnb⟩
    rcases forall_mem_append.1 hliterals with ⟨hla, hlb⟩
    exact Reader.reads_ite fun hrank => ((iha hna hla).mono hrank.1 : Reader.Summands _ _ _).snoc
      ((ihb hnb hlb).mono hrank.2) false
  | sub a b iha ihb =>
    rcases forall_mem_append.1 hnames with ⟨hna, hnb⟩
    rcases forall_mem_append.1 hliterals with ⟨hla, hlb⟩
    exact Reader.reads_ite fun hrank => ((iha hna hla).mono hrank.1 : Reader.Summands _ _ _).snoc
      ((ihb hnb hlb).mono hrank.2) true

theorem read_text (hrank : e.rank ≤ 2) (hnames : ∀ n ∈ e.names, isWord (nameText n).toList = true ∧
      valueOf (nameText n).toList = some (value n))
    (hliterals : ∀ x ∈ e.literals, isWord (number x).toList = true ∧
      valueOf (number x).toList = some (f x)) :
    Cpp.read valueOf (e.text Cpp.operators nameText number) =
      some ((e.mapLiterals f).eval value) := by
  have hlex := lex_text Cpp.signs_operators (fun n hn => (hnames n hn).1)
    (fun x hx => (hliterals x hx).1) stops_nil
  have hread : Reader.Summands _ _ _ := (Expr.read_tokens (fun n hn => (hnames n hn).2)
    fun x hx => (hliterals x hx).2).mono hrank
  rcases hread [] with ⟨y, g, hrun, hy⟩
  rw [append_nil, show lex [] [] = [] from rfl, append_nil] at hlex
  rw [Cpp.read, hlex, hrun, Option.bind_some, Reader.result, hy]

namespace Expr

variable {f : α → K} {v : ν → K} {P : ν → Prop} {Q : α → Prop} {a b : Expr ν α} {x y : K}

/-- An expression over given names and numbers, with its rank, and with its value if literals stand
    for given numbers. -/
structure Denotes (f : α → K) (v : ν → K) (P : ν → Prop) (Q : α → Prop) (e : Expr ν α) (r : Nat)
    (x : K) : Prop where
  names : ∀ n ∈ e.names, P n
  literals : ∀ y ∈ e.literals, Q y
  rank : e.rank ≤ r
  eval : (e.mapLiterals f).eval v = x

namespace Denotes

theorem literal {y : α} (h : Q y) : Denotes f v P Q (.literal y) 0 (f y) :=
  ⟨nofun, fun _ hy => mem_singleton.1 hy ▸ h, le_rfl, rfl⟩

theorem name {n : ν} (h : P n) : Denotes f v P Q (.name n) 0 (v n) :=
  ⟨fun _ hm => mem_singleton.1 hm ▸ h, nofun, le_rfl, rfl⟩

theorem mono {r r' : Nat} (h : Denotes f v P Q a r x) (hr : r ≤ r') : Denotes f v P Q a r' x :=
  ⟨h.names, h.literals, h.rank.trans hr, h.eval⟩

theorem neg (h : Denotes f v P Q a 1 x) : Denotes f v P Q (-a) 2 (-x) :=
  ⟨h.names, h.literals, (if_pos h.rank).le, congrArg (-·) h.eval⟩

theorem group (h : Denotes f v P Q a 2 x) : Denotes f v P Q (.group a) 0 x :=
  ⟨h.names, h.literals, (if_pos h.rank).le, h.eval⟩

theorem mul (ha : Denotes f v P Q a 1 x) (hb : Denotes f v P Q b 0 y) :
    Denotes f v P Q (a * b) 1 (x * y) :=
  ⟨forall_mem_append.2 ⟨ha.names, hb.names⟩, forall_mem_append.2 ⟨ha.literals, hb.literals⟩,
    (if_pos ⟨ha.rank, Nat.le_zero.1 hb.rank⟩).le, congrArg₂ (· * ·) ha.eval hb.eval⟩

theorem div (ha : Denotes f v P Q a 1 x) (hb : Denotes f v P Q b 0 y) :
    Denotes f v P Q (a / b) 1 (x / y) :=
  ⟨forall_mem_append.2 ⟨ha.names, hb.names⟩, forall_mem_append.2 ⟨ha.literals, hb.literals⟩,
    (if_pos ⟨ha.rank, Nat.le_zero.1 hb.rank⟩).le, congrArg₂ (· / ·) ha.eval hb.eval⟩

theorem add (ha : Denotes f v P Q a 2 x) (hb : Denotes f v P Q b 1 y) :
    Denotes f v P Q (a + b) 2 (x + y) :=
  ⟨forall_mem_append.2 ⟨ha.names, hb.names⟩, forall_mem_append.2 ⟨ha.literals, hb.literals⟩,
    (if_pos ⟨ha.rank, hb.rank⟩).le, congrArg₂ (· + ·) ha.eval hb.eval⟩

theorem sub (ha : Denotes f v P Q a 2 x) (hb : Denotes f v P Q b 1 y) :
    Denotes f v P Q (a - b) 2 (x - y) :=
  ⟨forall_mem_append.2 ⟨ha.names, hb.names⟩, forall_mem_append.2 ⟨ha.literals, hb.literals⟩,
    (if_pos ⟨ha.rank, hb.rank⟩).le, congrArg₂ (· - ·) ha.eval hb.eval⟩

theorem foldl_mul {es : List (Expr ν α)} {ys : List K} (ha : Denotes f v P Q a 1 x)
    (hes : Forall₂ (fun e y => Denotes f v P Q e 0 y) es ys) :
    Denotes f v P Q (es.foldl Expr.mul a) 1 (x * ys.prod) := by
  induction hes generalizing a x with
  | nil =>
    rw [prod_nil, mul_one]
    exact ha
  | cons he _ ih =>
    rw [prod_cons, ← mul_assoc]
    exact ih (ha.mul he)

theorem productOf {es : List (Expr ν α)} {ys : List K} {one : α} (hone : Q one) (hf : f one = 1)
    (hes : Forall₂ (fun e y => Denotes f v P Q e 0 y) es ys) :
    Denotes f v P Q (Expr.productOf (.literal one) es) 1 ys.prod := by
  cases hes with
  | nil =>
    rw [prod_nil, ← hf]
    exact (literal hone).mono (Nat.zero_le 1)
  | cons he hes =>
    rw [prod_cons]
    exact foldl_mul (he.mono (Nat.zero_le 1)) hes

theorem read (h : Denotes f v P Q a 2 x) (hnames : ∀ n, P n → isWord (nameText n).toList = true ∧
      valueOf (nameText n).toList = some (v n))
    (hliterals : ∀ y ∈ a.literals, isWord (number y).toList = true ∧
      valueOf (number y).toList = some (f y)) :
    Cpp.read valueOf (a.text Cpp.operators nameText number) = some x :=
  h.eval ▸ read_text h.rank (fun n hn => hnames n (h.names n hn)) hliterals

end Denotes
end Expr

end

/-- The same monomial over other numbers. -/
def GeometryMonomial.map {α β : Type} (f : α → β) (m : GeometryMonomial α) : GeometryMonomial β :=
  ⟨f m.coefficient, m.powers⟩

/-- The same sum over other numbers. -/
def GeometrySum.map {α β : Type} (f : α → β) (s : GeometrySum α) : GeometrySum β :=
  ⟨s.terms.map (·.map f)⟩

theorem GeometrySum.map_id {α : Type} (s : GeometrySum α) : s.map id = s :=
  congrArg mk (List.map_id s.terms)

/-- A map of numbers that keeps what the form of a text depends on: whether a number is negative,
    its magnitude, and whether that is one. -/
structure Agrees {α β : Type} [Scalar α] [Scalar β] (f : α → β) (x : α) : Prop where
  lt_zero : Scalar.lt (f x) 0 = Scalar.lt x 0
  abs : Scalar.abs (f x) = f (Scalar.abs x)
  eq_one : Scalar.eq (f (Scalar.abs x)) 1 = Scalar.eq (Scalar.abs x) 1

theorem agrees_id {α : Type} [Scalar α] (x : α) : Agrees id x := ⟨rfl, rfl, rfl⟩

theorem GeometrySum.toExpr_along {α : Type} [Scalar α]
    {C : List (GeometryMonomial α) → Expr Symbol α → Prop} (hnil : C [] (.literal 0))
    (hfirst : ∀ t, C [t] t.toExpr)
    (hsub : ∀ ts t e, ts ≠ [] → Scalar.lt t.coefficient 0 = true → C ts e →
      C (ts ++ [t]) (e - t.magnitude))
    (hadd : ∀ ts t e, ts ≠ [] → ¬Scalar.lt t.coefficient 0 = true → C ts e →
      C (ts ++ [t]) (e + t.magnitude)) (s : GeometrySum α) :
    C s.terms s.toExpr := by
  rcases s with ⟨_ | ⟨t, ts⟩⟩
  · exact hnil
  · induction ts using List.reverseRecOn with
    | nil => exact hfirst t
    | append_singleton ts t' ih =>
      have hlast : toExpr ⟨t :: (ts ++ [t'])⟩ = if Scalar.lt t'.coefficient 0
          then toExpr ⟨t :: ts⟩ - t'.magnitude else toExpr ⟨t :: ts⟩ + t'.magnitude := foldl_append
      rw [hlast]
      split
      · next h => exact hsub _ t' _ (cons_ne_nil t ts) h ih
      · next h => exact hadd _ t' _ (cons_ne_nil t ts) h ih

namespace GeometryMonomial

variable {K α : Type} {P : Symbol → Prop} {m : GeometryMonomial α}

theorem pow_toNat_div [Field K] (x : K) (e : Int) : x ^ e.toNat / x ^ (-e).toNat = x ^ e := by
  rcases Int.le_total 0 e with h | h
  -- One of the two exponents is zero.
  · rcases Int.eq_ofNat_of_zero_le h with ⟨n, rfl⟩
    rw [Int.toNat_natCast, Int.toNat_eq_zero.2 (by omega), pow_zero, div_one, zpow_natCast]
  · rcases Int.exists_eq_neg_ofNat h with ⟨n, rfl⟩
    rw [Int.toNat_eq_zero.2 (by omega), neg_neg, Int.toNat_natCast, pow_zero, one_div, zpow_neg,
      zpow_natCast]

theorem prod_numerators_div [Field K] {v : Symbol → K} (m : GeometryMonomial α) :
    (m.numerators.map v).prod / (m.denominators.map v).prod = m.powers.value v := by
  unfold numerators denominators
  induction m.powers with
  | nil => simp
  | cons x p ih =>
    rw [flatMap_cons, flatMap_cons, map_append, map_append, prod_append, prod_append,
      mul_div_mul_comm, ih, map_replicate, map_replicate, prod_replicate, prod_replicate,
      pow_toNat_div, Powers.value_cons]

theorem mem_numerators (hm : m.powers.Over P) : ∀ s ∈ m.numerators, P s := by
  intro s hs
  rcases mem_flatMap.1 hs with ⟨x, hx, hsx⟩
  exact eq_of_mem_replicate hsx ▸ hm x hx

theorem mem_denominators (hm : m.powers.Over P) : ∀ s ∈ m.denominators, P s := by
  intro s hs
  rcases mem_flatMap.1 hs with ⟨x, hx, hsx⟩
  exact eq_of_mem_replicate hsx ▸ hm x hx

section

variable [Field K] [LinearOrder K] [Root K] [Scalar α] {f : α → K} {v : Symbol → K} {Q : α → Prop}

omit [Scalar α] in
theorem denotes_names {ss : List Symbol} (h : ∀ s ∈ ss, P s) :
    Forall₂ (fun e y => Expr.Denotes f v P Q e 0 y) (ss.map .name) (ss.map v) := by
  rw [forall₂_map_left_iff, forall₂_map_right_iff, forall₂_same]
  exact fun s hs => Expr.Denotes.name (h s hs)

/-- A monomial without its sign is written as a product with its magnitude as value. -/
theorem denotes_magnitude (hf : f 1 = 1) (hagrees : Agrees f m.coefficient)
    (hm : m.powers.Over P) (hone : Q 1) (hc : Q (Scalar.abs m.coefficient)) :
    Expr.Denotes f v P Q m.magnitude 1 (|f m.coefficient| * m.powers.value v) := by
  have hnumerator : Expr.Denotes f v P Q (Expr.productOf (.literal 1)
      ((if Scalar.eq (Scalar.abs m.coefficient) 1 then [] else [.literal (Scalar.abs m.coefficient)]) ++
        m.numerators.map .name)) 1 (|f m.coefficient| * (m.numerators.map v).prod) := by
    rw [← Scalar.abs_eq_abs, hagrees.abs]
    split
    · next hunit =>
      -- A coefficient of magnitude one is not written.
      rw [← hagrees.eq_one, Scalar.eq_eq_true] at hunit
      rw [hunit, one_mul]
      exact Expr.Denotes.productOf hone hf (denotes_names (mem_numerators hm))
    · rw [← prod_cons]
      exact Expr.Denotes.productOf hone hf (.cons (.literal hc) (denotes_names (mem_numerators hm)))
  have hquotient := prod_numerators_div (v := v) m
  unfold magnitude
  cases hd : m.denominators with
  | nil =>
    rw [hd, map_nil, prod_nil, div_one] at hquotient
    rw [← hquotient]
    exact hnumerator
  | cons s ss =>
    have hds := mem_denominators hm
    rw [hd] at hds hquotient
    rw [← hquotient, ← mul_div_assoc]
    cases ss with
    | nil =>
      have hsingle : ([s].map v).prod = v s := prod_singleton
      rw [hsingle]
      exact hnumerator.div (Expr.Denotes.name (hds s mem_cons_self))
    | cons s' ss =>
      -- Several divisors stand in brackets.
      exact hnumerator.div ((Expr.Denotes.productOf hone hf (denotes_names hds)).mono
        (Nat.le_succ 1)).group

end

end GeometryMonomial

section

variable [Field K] [LinearOrder K] [IsStrictOrderedRing K] [Root K] {α : Type} [Scalar α]
variable {f : α → K} {v : Symbol → K} {P : Symbol → Prop} {Q : α → Prop}

theorem GeometryMonomial.denotes_toExpr {m : GeometryMonomial α} (hf : f 1 = 1)
    (hagrees : Agrees f m.coefficient) (hm : m.powers.Over P) (hone : Q 1)
    (hc : Q (Scalar.abs m.coefficient)) : Expr.Denotes f v P Q m.toExpr 2 ((m.map f).value v) := by
  rw [toExpr, value_eq, ← hagrees.lt_zero]
  have hmagnitude := denotes_magnitude (v := v) hf hagrees hm hone hc
  split
  · next hneg =>
    rw [Scalar.lt_eq_true] at hneg
    have hopposite := hmagnitude.neg
    rwa [abs_of_neg hneg, neg_mul, neg_neg] at hopposite
  · next hneg =>
    rw [Scalar.lt_eq_true, not_lt] at hneg
    rw [abs_of_nonneg hneg] at hmagnitude
    exact hmagnitude.mono (Nat.le_succ 1)

theorem GeometrySum.denotes_toExpr {s : GeometrySum α} (hf₀ : f 0 = 0) (hf : f 1 = 1)
    (hagrees : ∀ t ∈ s.terms, Agrees f t.coefficient) (hs : ∀ t ∈ s.terms, t.powers.Over P)
    (hzero : Q 0) (hone : Q 1) (hc : ∀ t ∈ s.terms, Q (Scalar.abs t.coefficient)) :
    Expr.Denotes f v P Q s.toExpr 2 ((s.map f).value v) := by
  rw [value, Scalar.sum_eq_sum, map, map_map]
  refine toExpr_along (C := fun ts e => (∀ t ∈ ts, Agrees f t.coefficient) →
      (∀ t ∈ ts, t.powers.Over P) → (∀ t ∈ ts, Q (Scalar.abs t.coefficient)) →
      Expr.Denotes f v P Q e 2 (ts.map fun t => (t.map f).value v).sum)
    (fun _ _ _ => ?_) (fun t ha hp hq => ?_) (fun ts t e _ hlt ih ha hp hq => ?_)
    (fun ts t e _ hlt ih ha hp hq => ?_) s hagrees hs hc
  · rw [map_nil, sum_nil, ← hf₀]
    exact (Expr.Denotes.literal hzero).mono (Nat.zero_le 2)
  · rw [map_singleton, sum_singleton]
    exact GeometryMonomial.denotes_toExpr hf (ha t mem_cons_self) (hp t mem_cons_self) hone
      (hq t mem_cons_self)
  all_goals
    -- Every further term is added with its sign, whatever stands in front of it.
    simp only [forall_mem_append, forall_mem_singleton] at ha hp hq
    have ht := GeometryMonomial.denotes_magnitude (v := v) hf ha.2 hp.2 hone hq.2
    rw [map_append, sum_append, map_singleton, sum_singleton, GeometryMonomial.value_eq]
    rw [← ha.2.lt_zero, Scalar.lt_eq_true] at hlt
  · rw [abs_of_neg hlt] at ht
    have hsub := (ih ha.1 hp.1 hq.1).sub ht
    rwa [neg_mul, sub_neg_eq_add] at hsub
  · rw [abs_of_nonneg (not_lt.1 hlt)] at ht
    exact (ih ha.1 hp.1 hq.1).add ht

theorem GeometrySum.value_toExpr (s : GeometrySum K) (v : Symbol → K) :
    s.toExpr.value (fun symbol => .ok (v symbol)) = .ok (s.value v) := by
  have h : Expr.Denotes id v (fun _ => True) (fun _ => True) s.toExpr 2 ((s.map id).value v) :=
    denotes_toExpr rfl rfl (fun _ _ => agrees_id _) (fun _ _ _ _ => trivial) trivial trivial
      fun _ _ => trivial
  rw [Expr.value_eq_eval fun _ _ => rfl, ← Expr.mapLiterals_id s.toExpr, h.eval, map_id]

end

/-- A symbol whose row and column are written with one digit each. -/
def Symbol.OneDigit : Symbol → Prop
  | jacobian _ row col | inverse _ row col => row < 10 ∧ col < 10
  | _ => True

namespace Cpp

open Text

variable (side : Option Side)

def sideOf : List Char → Option Side × List Char
  | '0' :: cs => (some .plus, cs)
  | '1' :: cs => (some .minus, cs)
  | cs => (none, cs)

/-- The entry of a matrix with a side, a row and a column. -/
def entryOf? (entry : Option Side → Nat → Nat → Symbol) (cs : List Char) : Option Symbol :=
  match sideOf cs with
  | (side, ['_', row, col]) => some (entry side (row.toNat - 48) (col.toNat - 48))
  | _ => none

def symbolOf? : List Char → Option Symbol
  | 'J' :: cs => entryOf? .jacobian cs
  | 'K' :: cs => entryOf? .inverse cs
  | ['d', 'e', 't'] => some .scale
  | 'd' :: 'e' :: 't' :: 'J' :: cs =>
    match sideOf cs with
    | (side, []) => some (.determinant side)
    | _ => none
  | _ => none

theorem toNat_digitChar {n : Nat} (h : n < 10) : (Nat.digitChar n).toNat - 48 = n := by
  have hall : ∀ m < 10, (Nat.digitChar m).toNat - 48 = m := by decide
  exact hall n h

variable {row col : Nat}

theorem toList_entry (letter : String) (hrow : row < 10) (hcol : col < 10) :
    (letter ++ Side.suffix side ++ "_" ++ toString row ++ toString col).toList = letter.toList ++
      ((Side.suffix side).toList ++ ['_', Nat.digitChar row, Nat.digitChar col]) := by
  simp only [Nat.toString_eq_repr, String.toList_append, append_assoc, Nat.toList_repr,
    Nat.toDigits_of_lt_base hrow, Nat.toDigits_of_lt_base hcol, cons_append, nil_append]
  rfl

theorem entryOf?_suffix (entry : Option Side → Nat → Nat → Symbol) (side : Option Side)
    (hrow : row < 10) (hcol : col < 10) :
    entryOf? entry ((Side.suffix side).toList ++ ['_', Nat.digitChar row, Nat.digitChar col]) =
      some (entry side row col) := by
  have h : entryOf? entry ((Side.suffix side).toList ++
      ['_', Nat.digitChar row, Nat.digitChar col]) =
      some (entry side ((Nat.digitChar row).toNat - 48) ((Nat.digitChar col).toNat - 48)) := by
    rcases side with _ | _ | _ <;> rfl
  rw [h, toNat_digitChar hrow, toNat_digitChar hcol]

/-- Symbols can be told from their names, so different symbols have different names. -/
theorem symbolOf?_symbol {s : Symbol} (h : s.OneDigit) : symbolOf? (symbol s).toList = some s := by
  cases s with
  | jacobian side row col =>
    refine (congrArg symbolOf? (toList_entry side "J" h.1 h.2)).trans ?_
    exact entryOf?_suffix .jacobian side h.1 h.2
  | inverse side row col =>
    refine (congrArg symbolOf? (toList_entry side "K" h.1 h.2)).trans ?_
    exact entryOf?_suffix .inverse side h.1 h.2
  | determinant side => rcases side with _ | _ | _ <;> rfl
  | scale => rfl

theorem oneWord_symbol (s : Symbol) : oneWord (symbol s) = true := by
  have hsuffix : ∀ side, (Side.suffix side).toList.all isWordChar = true := by
    rintro (_ | _ | _) <;> decide
  have hentry : ∀ (letter : String), oneWord letter = true → ∀ side (row col : Nat),
      oneWord (letter ++ Side.suffix side ++ "_" ++ toString row ++ toString col) = true := by
    intro letter hletter side row col
    exact oneWord_append (oneWord_append (oneWord_append (oneWord_append hletter (hsuffix side))
      (by decide)) (all_isWordChar_toString row)) (all_isWordChar_toString col)
  cases s with
  | jacobian side row col => exact hentry "J" (by decide) side row col
  | inverse side row col => exact hentry "K" (by decide) side row col
  | determinant side => exact oneWord_append (s := "detJ") (by decide) (hsuffix side)
  | scale => decide

theorem symbolOf?_literal {cs : List Char} (h : startsWithDigit cs = true) : symbolOf? cs = none := by
  unfold symbolOf?
  split
  · exact absurd h (by simp [startsWithDigit])
  · exact absurd h (by simp [startsWithDigit])
  · exact absurd h (by simp [startsWithDigit])
  · exact absurd h (by simp [startsWithDigit])
  · rfl

end Cpp

section

variable [Field K] [LinearOrder K] [IsStrictOrderedRing K] [Root K]

/-- Numbers are written as literals, and a literal reads back as the number it was written for.
    Nothing is asked of negative numbers: signs are operators of expressions. -/
structure Legible (number : K → String) (numbers : AddSubgroup K)
    (literal : List Char → Option K) : Prop where
  one_mem : 1 ∈ numbers
  isWord : ∀ x ∈ numbers, 0 ≤ x → isWord (number x).toList = true
  startsWithDigit : ∀ x ∈ numbers, 0 ≤ x → startsWithDigit (number x).toList = true
  reads : ∀ x ∈ numbers, 0 ≤ x → literal (number x).toList = some x

/-- The values of words: names of symbols have the values of the symbols, all else is a
    literal. -/
def Cpp.words (v : Symbol → K) (literal : List Char → Option K) (w : List Char) : Option K :=
  match Cpp.symbolOf? w with
  | some s => some (v s)
  | none => literal w

namespace GeometrySum

variable {number : K → String} {numbers : AddSubgroup K} {literal : List Char → Option K}

/-- A sum of monomials with names and coefficients that can be read. -/
def Readable (numbers : AddSubgroup K) (s : GeometrySum K) : Prop :=
  ∀ t ∈ s.terms, t.powers.Over Symbol.OneDigit ∧ t.coefficient ∈ numbers

/-- Reading the text of a sum gives the value of the sum, with the numbers that its literals stand
    for. -/
theorem read_map {α : Type} [Scalar α] {f : α → K} {number : α → String} {s : GeometrySum α}
    (hf₀ : f 0 = 0) (hf : f 1 = 1) (hagrees : ∀ t ∈ s.terms, Agrees f t.coefficient)
    (hs : ∀ t ∈ s.terms, t.powers.Over Symbol.OneDigit)
    (hliterals : ∀ x ∈ s.toExpr.literals, isWord (number x).toList = true ∧
      startsWithDigit (number x).toList = true ∧ literal (number x).toList = some (f x))
    (v : Symbol → K) :
    Cpp.read (Cpp.words v literal) (s.toExpr.text Cpp.operators Cpp.symbol number) =
      some ((s.map f).value v) := by
  have h : Expr.Denotes f v Symbol.OneDigit (fun _ => True) s.toExpr 2 ((s.map f).value v) :=
    denotes_toExpr hf₀ hf hagrees hs trivial trivial fun _ _ => trivial
  refine h.read (fun n hn => ⟨Text.isWord_of_oneWord (Cpp.oneWord_symbol n), ?_⟩) fun x hx => ?_
  -- Names of symbols are told from literals by their first character.
  · rw [Cpp.words, Cpp.symbolOf?_symbol hn]
  · rcases hliterals x hx with ⟨hword, hdigit, hread⟩
    refine ⟨hword, ?_⟩
    rw [Cpp.words, Cpp.symbolOf?_literal hdigit]
    exact hread

theorem read_toExpr (hnumber : Legible number numbers literal) {s : GeometrySum K}
    (hs : s.Readable numbers) (v : Symbol → K) :
    Cpp.read (Cpp.words v literal) (s.toExpr.text Cpp.operators Cpp.symbol number) =
      some (s.value v) := by
  have hliterals : ∀ x ∈ s.toExpr.literals, x ∈ numbers ∧ 0 ≤ x :=
    (denotes_toExpr (f := id) (v := v) rfl rfl (fun _ _ => agrees_id _)
      (fun t ht => (hs t ht).1) ⟨numbers.zero_mem, le_rfl⟩ ⟨hnumber.one_mem, zero_le_one⟩
      fun t ht => ⟨abs_mem_iff.2 (hs t ht).2, abs_nonneg _⟩).literals
  have hread := read_map (f := id) rfl rfl (fun _ _ => agrees_id _) (fun t ht => (hs t ht).1)
    (fun x hx => ⟨hnumber.isWord x (hliterals x hx).1 (hliterals x hx).2,
      hnumber.startsWithDigit x (hliterals x hx).1 (hliterals x hx).2,
      hnumber.reads x (hliterals x hx).1 (hliterals x hx).2⟩) v
  rwa [map_id] at hread

theorem value_eq_of_text_eq (hnumber : Legible number numbers literal) {s t : GeometrySum K}
    (hs : s.Readable numbers) (ht : t.Readable numbers)
    (h : s.toExpr.text Cpp.operators Cpp.symbol number =
      t.toExpr.text Cpp.operators Cpp.symbol number) (v : Symbol → K) : s.value v = t.value v := by
  have hread := read_toExpr hnumber hs v
  rw [h, read_toExpr hnumber ht v, Option.some.injEq] at hread
  exact hread.symm

end GeometrySum

end

end WeakForm
