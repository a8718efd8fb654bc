import WeakForm.Proofs.GeometryLines

/-!
# Reading formulas

The formulas of geometry code are kept as trees, but what a routine contains is their
text. This module reads such text the way the language does that it is written in, and
gives the tree that is found there. A formula that lacks a bracket is read as another
tree, so what is shown about the trees that were read is shown about the text.

Words and operators are read from left to right. A sign binds closer than a product, a
product closer than a sum, and operators of one rank are taken from the left. The name of
a function must be followed by a bracket. What waits for its right operand is one sum, one
product and one sign for each open bracket, a `Pending`.

Expressions are written without adding brackets. `Expr.level` tells the trees that have all
the brackets they need, and these are read back exactly.

## Main definitions

* `Pending`, `Parser`: What has been read so far.
* `Cpp.quantity?`, `Cpp.fixed?`: What words stand for in formulas.

## Theorems

* `Quantity.quantity?_text`: What a formula reads can be told from its text.
* `Term.lex_layout`, `Term.term?_tokens`: Expressions of formulas are read back from their text.
-/

namespace WeakForm

open List Text Cpp

/-- Functions of one argument. -/
inductive Unary where
  | sqrt
  | abs
  deriving DecidableEq

def Unary.ofWord? (w : List Char) : Option Unary :=
  if w = "std::sqrt".toList then some sqrt
  else if w = "std::abs".toList then some abs
  else none

/-- What stands in brackets, behind the name of a function or not. -/
def Expr.bracket {ν α : Type} : Option Unary → Expr ν α → Expr ν α
  | none, e => group e
  | some .sqrt, e => sqrt e
  | some .abs, e => abs e

/-- What waits for its right operand inside of one pair of brackets. -/
structure Pending (ν α : Type) where
  /-- A sum, and whether what follows is subtracted. -/
  sum : Option (Expr ν α × Bool) := none
  /-- A product, and whether what follows divides it. -/
  product : Option (Expr ν α × Bool) := none
  /-- Whether there is a sign in front of what follows. -/
  negated : Bool := false

namespace Pending

variable {ν α : Type}

/-- An operand with the sign in front of it. -/
def signed (f : Pending ν α) (e : Expr ν α) : Expr ν α := if f.negated then -e else e

/-- The product with its last factor. -/
def times (f : Pending ν α) (e : Expr ν α) : Expr ν α :=
  match f.product with
  | none => e
  | some (a, false) => a * e
  | some (a, true) => a / e

/-- The sum with its last product. -/
def plus (f : Pending ν α) (e : Expr ν α) : Expr ν α :=
  match f.sum with
  | none => f.times e
  | some (a, false) => a + f.times e
  | some (a, true) => a - f.times e

end Pending

/-- Where a parser stands: in front of an operand, behind the name of a function, or behind an
    operand. The brackets around it are listed from the inside out, with what waits in front of
    them and the function in front of them. -/
inductive Parser (ν α : Type) where
  | operand (f : Pending ν α) (outer : List (Pending ν α × Option Unary))
  | callee (c : Unary) (f : Pending ν α) (outer : List (Pending ν α × Option Unary))
  | operator (e : Expr ν α) (f : Pending ν α) (outer : List (Pending ν α × Option Unary))

namespace Parser

variable {ν α : Type}

/-- Reads a word or operator, given what words stand for. -/
def step (word? : List Char → Option (Expr ν α)) : Parser ν α → Token → Option (Parser ν α)
  | operand f outer, .word w =>
    match Unary.ofWord? w with
    | some c => some (callee c f outer)
    | none => (word? w).map fun e => operator (f.signed e) { f with negated := false } outer
  | operand f outer, .minus =>
    if f.negated then none else some (operand { f with negated := true } outer)
  | operand f outer, .opening => some (operand {} ((f, none) :: outer))
  | operand _ _, _ => none
  | callee c f outer, .opening => some (operand {} ((f, some c) :: outer))
  | callee _ _ _, _ => none
  | operator e f outer, .times => some (operand { f with product := some (f.times e, false) } outer)
  | operator e f outer, .slash => some (operand { f with product := some (f.times e, true) } outer)
  | operator e f outer, .plus => some (operand { sum := some (f.plus e, false) } outer)
  | operator e f outer, .minus => some (operand { sum := some (f.plus e, true) } outer)
  | operator e f ((g, c) :: outer), .closing =>
    some (operator (g.signed ((f.plus e).bracket c)) { g with negated := false } outer)
  | operator _ _ _, _ => none

/-- Reads words and operators from left to right. -/
def run (word? : List Char → Option (Expr ν α)) (p : Parser ν α) (ts : List Token) :
    Option (Parser ν α) :=
  ts.foldlM (step word?) p

/-- The tree of all that has been read. -/
def result : Parser ν α → Option (Expr ν α)
  | operator e f [] => some (f.plus e)
  | _ => none

/-- The tree of words and operators, given what words stand for. -/
def tree? (word? : List Char → Option (Expr ν α)) (ts : List Token) : Option (Expr ν α) :=
  ((operand {} []).run word? ts).bind result

end Parser

/-- The rank of the operators on the outside: none, a sign, products, sums, or operators that are
    read as another tree. -/
def Expr.level {ν α : Type} : Expr ν α → Nat
  | literal _ | name _ => 0
  | group a | sqrt a | abs a => if a.level ≤ 3 then 0 else 4
  | neg a => if a.level = 0 then 1 else 4
  | mul a b | div a b => if a.level ≤ 2 ∧ b.level ≤ 1 then 2 else 4
  | add a b | sub a b => if a.level ≤ 3 ∧ b.level ≤ 2 then 3 else 4

/-! ## Trees are read back -/

namespace Parser

variable {ν α : Type} {word? : List Char → Option (Expr ν α)} {ts us : List Token} {a b : Expr ν α}
  {n : Nat}

theorem run_append (p : Parser ν α) :
    p.run word? (ts ++ us) = (p.run word? ts).bind fun p => p.run word? us := foldlM_append

theorem run_cons (p : Parser ν α) (t : Token) :
    p.run word? (t :: ts) = (p.step word? t).bind fun p => p.run word? ts := foldlM_cons

/-- Wherever an operand may stand, the tokens are read as one operand. -/
def Operand (word? : List Char → Option (Expr ν α)) (ts : List Token) (a : Expr ν α) : Prop :=
  ∀ f outer, (operand f outer).run word? ts =
    some (operator (f.signed a) { f with negated := false } outer)

/-- Wherever a sign may stand, the tokens are read as one operand with its sign. -/
def Signed (word? : List Char → Option (Expr ν α)) (ts : List Token) (a : Expr ν α) : Prop :=
  ∀ f outer, f.negated = false → (operand f outer).run word? ts = some (operator a f outer)

/-- At the beginning of a product, the tokens are read as its factors. -/
def Factors (word? : List Char → Option (Expr ν α)) (ts : List Token) (a : Expr ν α) : Prop :=
  ∀ f outer, f.product = none → f.negated = false → ∃ e g, (operand f outer).run word? ts =
    some (operator e g outer) ∧ g.sum = f.sum ∧ g.negated = false ∧ g.times e = a

/-- At the beginning of a text or bracket, the tokens are read as the summands of a sum. -/
def Summands (word? : List Char → Option (Expr ν α)) (ts : List Token) (a : Expr ν α) : Prop :=
  ∀ outer, ∃ e g, (operand {} outer).run word? ts = some (operator e g outer) ∧ g.plus e = a

theorem operand_word {w : List Char} (hcall : Unary.ofWord? w = none) (h : word? w = some a) :
    Operand word? [.word w] a := by
  intro f outer
  rw [run_cons, step, hcall, h]
  rfl

theorem Operand.signed (h : Operand word? ts a) : Signed word? ts a := by
  intro f outer hf
  rw [h f outer, Pending.signed, if_neg (by rw [hf]; exact Bool.false_ne_true), ← hf]

theorem Operand.neg (h : Operand word? ts a) : Signed word? (.minus :: ts) (-a) := by
  intro f outer hf
  rw [run_cons, step, if_neg (by rw [hf]; exact Bool.false_ne_true), Option.bind_some, h, ← hf]
  rfl

theorem Signed.factors (h : Signed word? ts a) : Factors word? ts a := by
  intro f outer hproduct hf
  refine ⟨a, f, h f outer hf, rfl, hf, ?_⟩
  rw [Pending.times, hproduct]

theorem Factors.summands (h : Factors word? ts a) : Summands word? ts a := by
  intro outer
  rcases h {} outer rfl rfl with ⟨e, g, hrun, hsum, _, ha⟩
  refine ⟨e, g, hrun, ?_⟩
  rw [Pending.plus, hsum, ha]

theorem Factors.snoc (h : Factors word? ts a) (hb : Signed word? us b) (divides : Bool) :
    Factors word? (ts ++ (if divides then Token.slash else .times) :: us)
      (if divides then a / b else a * b) := by
  intro f outer hproduct hf
  rcases h f outer hproduct hf with ⟨e, g, hrun, hsum, hneg, ha⟩
  refine ⟨b, { g with product := some (a, divides) }, ?_, hsum, hneg, ?_⟩
  · rw [run_append, hrun, Option.bind_some, run_cons]
    cases divides with
    | false =>
      simp only [Bool.false_eq_true, if_false, step, Option.bind_some, ha]
      exact hb _ outer hneg
    | true =>
      simp only [if_true, step, Option.bind_some, ha]
      exact hb _ outer hneg
  · cases divides with
    | false => rfl
    | true => rfl

theorem Summands.snoc (h : Summands word? ts a) (hb : Factors word? us b) (subtracts : Bool) :
    Summands word? (ts ++ (if subtracts then Token.minus else .plus) :: us)
      (if subtracts then a - b else a + b) := by
  intro outer
  rcases h outer with ⟨e, g, hrun, ha⟩
  -- What has been summed waits while the factors of the new summand are read.
  rcases hb { sum := some (a, subtracts) } outer rfl rfl with ⟨e', g', hrun', hsum, _, hb⟩
  refine ⟨e', g', ?_, ?_⟩
  · rw [run_append, hrun, Option.bind_some, run_cons]
    cases subtracts with
    | false => simp only [Bool.false_eq_true, if_false, step, Option.bind_some, ha, hrun']
    | true => simp only [if_true, step, Option.bind_some, ha, hrun']
  · rw [Pending.plus, hsum, hb]
    cases subtracts with
    | false => rfl
    | true => rfl

/-- Inside of brackets a new sum begins; what is in front of them waits outside. -/
theorem Summands.group (h : Summands word? ts a) :
    Operand word? (.opening :: (ts ++ [.closing])) (.group a) := by
  intro f outer
  rcases h ((f, none) :: outer) with ⟨e, g, hrun, ha⟩
  rw [run_cons, step, Option.bind_some, run_append, hrun, Option.bind_some, run_cons, step, ha]
  rfl

theorem Summands.call (h : Summands word? ts a) {w : List Char} {c : Unary}
    (hw : Unary.ofWord? w = some c) :
    Operand word? (.word w :: .opening :: (ts ++ [.closing])) (a.bracket (some c)) := by
  intro f outer
  rcases h ((f, some c) :: outer) with ⟨e, g, hrun, ha⟩
  rw [run_cons, step, hw]
  simp only [Option.bind_some]
  rw [run_cons, step, Option.bind_some, run_append, hrun, Option.bind_some, run_cons, step, ha]
  rfl

def Reads (word? : List Char → Option (Expr ν α)) (ts : List Token) (a : Expr ν α) : Nat → Prop
  | 0 => Operand word? ts a
  | 1 => Signed word? ts a
  | 2 => Factors word? ts a
  | 3 => Summands word? ts a
  | _ => True

theorem Reads.succ (h : Reads word? ts a n) : Reads word? ts a (n + 1) :=
  match n, h with
  | 0, h => Operand.signed h
  | 1, h => Signed.factors h
  | 2, h => Factors.summands h
  | 3, _ => trivial
  | _ + 4, _ => trivial

/-- What binds closer may stand where something less close is read. -/
theorem Reads.mono {m : Nat} (h : Reads word? ts a m) (hmn : m ≤ n) : Reads word? ts a n :=
  Nat.le_induction h (fun _ _ hk => hk.succ) n hmn

theorem reads_ite {c : Prop} [Decidable c] (h : c → Reads word? ts a n) :
    Reads word? ts a (if c then n else 4) := by
  split
  · next hc => exact h hc
  · exact trivial

end Parser

/-- The words and operators of an expression are read as what its level says. -/
theorem Expr.parse_tokens {ν α : Type} {nameText : ν → String} {number : α → String}
    {word? : List Char → Option (Expr ν α)} {e : Expr ν α}
    (hnames : ∀ n ∈ e.names, Unary.ofWord? (nameText n).toList = none ∧
      word? (nameText n).toList = some (name n))
    (hliterals : ∀ x ∈ e.literals, Unary.ofWord? (number x).toList = none ∧
      word? (number x).toList = some (literal x)) :
    Parser.Reads word? (e.tokens nameText number) e e.level := by
  induction e with
  | literal x =>
    have hx := hliterals x (mem_singleton_self x)
    exact Parser.operand_word hx.1 hx.2
  | name n =>
    have hn := hnames n (mem_singleton_self n)
    exact Parser.operand_word hn.1 hn.2
  | group a ih =>
    exact Parser.reads_ite fun hlevel =>
      ((ih hnames hliterals).mono hlevel : Parser.Summands _ _ _).group
  | sqrt a ih =>
    exact Parser.reads_ite fun hlevel =>
      ((ih hnames hliterals).mono hlevel : Parser.Summands _ _ _).call (c := .sqrt) (by decide)
  | abs a ih =>
    exact Parser.reads_ite fun hlevel =>
      ((ih hnames hliterals).mono hlevel : Parser.Summands _ _ _).call (c := .abs) (by decide)
  | neg a ih =>
    exact Parser.reads_ite fun hlevel =>
      ((ih hnames hliterals).mono hlevel.le : Parser.Operand _ _ _).neg
  | mul a b iha ihb =>
    rcases forall_mem_append.1 hnames with ⟨hna, hnb⟩
    rcases forall_mem_append.1 hliterals with ⟨hla, hlb⟩
    exact Parser.reads_ite fun hlevel => ((iha hna hla).mono hlevel.1 : Parser.Factors _ _ _).snoc
      ((ihb hnb hlb).mono hlevel.2) false
  | div a b iha ihb =>
    rcases forall_mem_append.1 hnames with ⟨hna, hnb⟩
    rcases forall_mem_append.1 hliterals with ⟨hla, hlb⟩
    exact Parser.reads_ite fun hlevel => ((iha hna hla).mono hlevel.1 : Parser.Factors _ _ _).snoc
      ((ihb hnb hlb).mono hlevel.2) true
  | add a b iha ihb =>
    rcases forall_mem_append.1 hnames with ⟨hna, hnb⟩
    rcases forall_mem_append.1 hliterals with ⟨hla, hlb⟩
    exact Parser.reads_ite fun hlevel =>
      ((iha hna hla).mono hlevel.1 : Parser.Summands _ _ _).snoc ((ihb hnb hlb).mono hlevel.2) false
  | sub a b iha ihb =>
    rcases forall_mem_append.1 hnames with ⟨hna, hnb⟩
    rcases forall_mem_append.1 hliterals with ⟨hla, hlb⟩
    exact Parser.reads_ite fun hlevel =>
      ((iha hna hla).mono hlevel.1 : Parser.Summands _ _ _).snoc ((ihb hnb hlb).mono hlevel.2) true

/-- A word that stands for something. -/
structure Cpp.Stands {ν α : Type} (word? : List Char → Option (Expr ν α)) (w : List Char)
    (e : Expr ν α) : Prop where
  isWord : isWord w = true
  noCall : Unary.ofWord? w = none
  word : word? w = some e

/-- An expression is read back from its words and operators if it has all the brackets it needs. -/
theorem Parser.tree?_tokens {ν α : Type} {nameText : ν → String} {number : α → String}
    {word? : List Char → Option (Expr ν α)} {e : Expr ν α} (hlevel : e.level ≤ 3)
    (hnames : ∀ n ∈ e.names, Stands word? (nameText n).toList (.name n))
    (hliterals : ∀ x ∈ e.literals, Stands word? (number x).toList (.literal x)) :
    tree? word? (e.tokens nameText number) = some e := by
  have hread : Summands _ _ _ := (Expr.parse_tokens
    (fun n hn => ⟨(hnames n hn).noCall, (hnames n hn).word⟩)
    fun x hx => ⟨(hliterals x hx).noCall, (hliterals x hx).word⟩).mono hlevel
  rcases hread [] with ⟨a, g, hrun, ha⟩
  rw [tree?, hrun, Option.bind_some, result, ha]

/-! ## Words of formulas -/

def cellName (side : Option Side) : String := "x" ++ Side.suffix side

namespace Cpp

/-- The number with the given digits. -/
def natural? (cs : List Char) : Option Nat :=
  if !cs.isEmpty && cs.all Char.isDigit then some (Nat.ofDigitChars 10 cs 0) else none

/-- What stands in front of a closing bracket. -/
def subscript? (cs : List Char) : Option (List Char) :=
  if cs.getLast? = some ']' then some cs.dropLast else none

/-- A side with a property. -/
def sideOf? (p : Option Side → Bool) : Option (Option Side) :=
  [none, some .plus, some .minus].find? p

/-- The side of the cell whose coordinates have the given name. -/
def cellSide? (cs : List Char) : Option (Option Side) :=
  sideOf? fun side => cs = (cellName side).toList

/-- The vertex with the given number, or whose number has the given name. -/
def vertexRef (cs : List Char) : VertexRef :=
  match natural? cs with
  | some number => .fixed number
  | none => .named (String.ofList cs)

/-- What a word stands for that is no literal: a scalar, a coordinate of a vertex, or a coordinate
    of the current quadrature point. -/
def quantity? (w : List Char) : Option Quantity :=
  match w.splitOn '[' with
  | [name] => some (.scalar (String.ofList name))
  | [name, first, second] => do
    let first ← subscript? first
    let axis ← natural? (← subscript? second)
    if name = "ip_points".toList ∧ first = "ip".toList then some (.point axis)
    else (cellSide? name).map fun side => .coordinate side (vertexRef first) axis
  | _ => none

/-- The number that a literal stands for, with as many places as are written. -/
def fixed? (w : List Char) : Option Fixed :=
  let whole := w.takeWhile (· != '.')
  let places := w.drop (whole.length + 1)
  (natural? (whole ++ places)).map fun units => ⟨units, places.length⟩

/-- What a word stands for. -/
def word? (w : List Char) : Option Term :=
  if startsWithDigit w then (fixed? w).map .literal else (quantity? w).map .name

/-- The tree of the words and operators of a formula. -/
def term? (ts : List Token) : Option Term := Parser.tree? word? ts

theorem natural?_toDigits (n : Nat) : natural? (Nat.toDigits 10 n) = some n := by
  have hdigits : (Nat.toDigits 10 n).all Char.isDigit = true :=
    all_eq_true.2 fun c hc => Nat.isDigit_of_mem_toDigits (by decide) (by decide) hc
  have hne : (Nat.toDigits 10 n).isEmpty = false := isEmpty_eq_false_iff.2 Nat.toDigits_ne_nil
  rw [natural?, hdigits, hne, Nat.ofDigitChars_ten_toDigits]
  rfl

theorem subscript?_append (cs : List Char) : subscript? (cs ++ [']']) = some cs := by
  rw [subscript?, getLast?_concat, if_pos rfl, dropLast_concat]

/-- Names that differ between the sides tell the side. -/
theorem sideOf?_eq {β : Type} [DecidableEq β] {f : Option Side → β} (hf : Function.Injective f)
    (side : Option Side) : sideOf? (fun side' => f side = f side') = some side := by
  simp only [hf.eq_iff]
  rcases side with _ | _ | _ <;> rfl

theorem suffix_injective : Function.Injective Side.suffix := by
  rintro (_ | _ | _) (_ | _ | _) h <;> first | rfl | exact absurd h (by decide)

theorem append_suffix_injective (s : String) :
    Function.Injective fun side => (s ++ Side.suffix side).toList := by
  intro a b h
  simp only [String.toList_append] at h
  exact suffix_injective (String.toList_injective (append_cancel_left h))

theorem cellSide?_cellName (side : Option Side) : cellSide? (cellName side).toList = some side :=
  sideOf?_eq (append_suffix_injective "x") side

end Cpp

/-- A name, which is no literal. -/
def isName (s : String) : Bool := oneWord s && !startsWithDigit s.toList

def VertexRef.isReadable : VertexRef → Bool
  | fixed _ => true
  | named name => isName name

def Quantity.isReadable : Quantity → Bool
  | scalar name => isName name
  | coordinate _ v _ => v.isReadable
  | point _ => true

def Fixed.isReadable (f : Fixed) : Bool :=
  isWord f.text.toList && startsWithDigit f.text.toList && Cpp.fixed? f.text.toList = some f

/-- An expression with all the brackets it needs, and whose words can be told apart. -/
def Term.isReadable (e : Term) : Bool :=
  e.level ≤ 3 && e.names.all Quantity.isReadable && e.literals.all Fixed.isReadable

section

variable {cs : List Char}

theorem Unary.ofWord?_of_notMem (h : ':' ∉ cs) : Unary.ofWord? cs = none := by
  have hne : ∀ w : List Char, ':' ∈ w → cs ≠ w := by
    rintro w hw rfl
    exact h hw
  rw [ofWord?, if_neg (hne _ (by decide)), if_neg (hne _ (by decide))]

theorem notMem_of_all (h : cs.all isWordChar = true) {c : Char} (hc : isWordChar c = false) :
    c ∉ cs := by
  intro hmem
  rw [all_eq_true.1 h c hmem] at hc
  cases hc

theorem all_isWordChar_of_isName {s : String} (h : isName s = true) :
    s.toList ≠ [] ∧ s.toList.all isWordChar = true ∧ startsWithDigit s.toList = false := by
  rw [isName, oneWord, Bool.and_eq_true, Bool.and_eq_true, Bool.not_eq_true',
    Bool.not_eq_true'] at h
  exact ⟨isEmpty_eq_false_iff.1 h.1.1, h.1.2, h.2⟩

theorem isWord_of_isName {s : String} (h : isName s = true) : isWord s.toList = true := by
  rw [isName, Bool.and_eq_true] at h
  exact isWord_of_oneWord h.1

end

theorem VertexRef.vertexRef_text {v : VertexRef} (h : v.isReadable = true) :
    vertexRef v.text.toList = v := by
  cases v with
  | fixed number =>
    have htext : (fixed number).text.toList = Nat.toDigits 10 number := Nat.toList_repr
    rw [htext, vertexRef, natural?_toDigits]
  | named name =>
    rcases all_isWordChar_of_isName h with ⟨hne, _, hdigit⟩
    have hnone : natural? name.toList = none := by
      rcases exists_cons_of_ne_nil hne with ⟨c, cs, hcs⟩
      rw [hcs, startsWithDigit, head?_cons, Option.any_some] at hdigit
      rw [natural?, hcs, List.all_cons, hdigit]
      rfl
    rw [text, vertexRef, hnone, String.ofList_toList]

theorem VertexRef.all_text {v : VertexRef} (h : v.isReadable = true) :
    v.text.toList.all isWordChar = true := by
  cases v with
  | fixed number => exact all_isWordChar_toString number
  | named name => exact (all_isWordChar_of_isName h).2.1

namespace Quantity

variable (side : Option Side) (axis : Nat)

theorem toList_coordinate (v : VertexRef) (axis : Nat) :
    (coordinate side v axis).text.toList = ['['].intercalate [(cellName side).toList,
      v.text.toList ++ [']'], Nat.toDigits 10 axis ++ [']']] := by
  change ("x" ++ Side.suffix side ++ "[" ++ v.text ++ "][" ++ toString axis ++ "]").toList = _
  simp [List.intercalate, cellName, String.toList_append, Nat.toString_eq_repr, Nat.toList_repr]

theorem toList_point :
    (point axis).text.toList = ['['].intercalate ["ip_points".toList, "ip".toList ++ [']'],
      Nat.toDigits 10 axis ++ [']']] := by
  change ("ip_points[ip][" ++ toString axis ++ "]").toList = _
  simp [List.intercalate, String.toList_append, Nat.toString_eq_repr, Nat.toList_repr]

theorem all_cellName : (cellName side).toList.all isWordChar = true := by
  rcases side with _ | _ | _ <;> decide

theorem cellName_ne : (cellName side).toList ≠ "ip_points".toList := by
  rcases side with _ | _ | _ <;> decide

theorem notMem_toDigits : '[' ∉ Nat.toDigits 10 axis ++ [']'] := by
  rw [mem_append, not_or]
  refine ⟨fun hmem => ?_, by decide⟩
  exact absurd (Nat.isDigit_of_mem_toDigits (by decide) (by decide) hmem) (by decide)

variable {q : Quantity} (h : q.isReadable = true)

include h

theorem quantity?_text : quantity? q.text.toList = some q := by
  unfold quantity?
  cases q with
  | scalar name =>
    have hsplit : name.toList.splitOn '[' = [name.toList] := by
      have hnotMem := notMem_of_all (all_isWordChar_of_isName h).2.1 (c := '[') (by decide)
      have hsingle := splitOn_intercalate '[' (forall_mem_singleton.2 hnotMem) (by simp)
      rwa [intercalate_singleton] at hsingle
    rw [text, hsplit]
    simp only [String.ofList_toList]
  | coordinate side v axis =>
    have hnotMem : ∀ l ∈ [(cellName side).toList, v.text.toList ++ [']'],
        Nat.toDigits 10 axis ++ [']']], '[' ∉ l := by
      refine forall_mem_cons.2 ⟨notMem_of_all (all_cellName side) (by decide), ?_⟩
      refine forall_mem_cons.2 ⟨?_, forall_mem_singleton.2 (notMem_toDigits axis)⟩
      rw [mem_append, not_or]
      exact ⟨notMem_of_all (VertexRef.all_text h) (by decide), by decide⟩
    rw [toList_coordinate, splitOn_intercalate '[' hnotMem (by simp)]
    simp only [subscript?_append, natural?_toDigits, Option.bind_eq_bind, Option.bind_some]
    rw [if_neg fun h => cellName_ne side h.1, cellSide?_cellName, Option.map_some,
      VertexRef.vertexRef_text h]
  | point axis =>
    have hnotMem : ∀ l ∈ ["ip_points".toList, "ip".toList ++ [']'],
        Nat.toDigits 10 axis ++ [']']], '[' ∉ l :=
      forall_mem_cons.2 ⟨by decide, forall_mem_cons.2 ⟨by decide,
        forall_mem_singleton.2 (notMem_toDigits axis)⟩⟩
    rw [toList_point, splitOn_intercalate '[' hnotMem (by simp)]
    simp only [subscript?_append, natural?_toDigits, Option.bind_eq_bind, Option.bind_some]
    rw [if_pos ⟨trivial, trivial⟩]

theorem isNameChar_text : ∀ c ∈ q.text.toList, isNameChar c = true := by
  have hdigits : ∀ axis, ∀ c ∈ Nat.toDigits 10 axis, isNameChar c = true := by
    intro axis
    rw [← Nat.toList_repr]
    exact isNameChar_of_all (all_isWordChar_toString axis)
  cases q with
  | scalar name => exact isNameChar_of_all (all_isWordChar_of_isName h).2.1
  | coordinate side v axis =>
    intro c hc
    have hcell := isNameChar_of_all (all_cellName side)
    have hvertex := isNameChar_of_all (VertexRef.all_text h)
    rw [toList_coordinate] at hc
    simp only [List.intercalate, List.intersperse, flatten_cons, flatten_nil, mem_append,
      mem_singleton, append_nil] at hc
    rcases hc with hc | rfl | (hc | rfl) | rfl | hc | rfl <;>
      first | exact hcell c hc | exact hvertex c hc | exact hdigits axis c hc | decide
  | point axis =>
    intro c hc
    rw [toList_point] at hc
    simp only [List.intercalate, List.intersperse, flatten_cons, flatten_nil, mem_append,
      mem_singleton, append_nil] at hc
    have hfront : ∀ c ∈ "ip_points".toList ++ "ip".toList, isNameChar c = true :=
      all_eq_true.1 (by decide)
    rcases hc with hc | rfl | (hc | rfl) | rfl | hc | rfl
    · exact hfront c (mem_append_left _ hc)
    · decide
    · exact hfront c (mem_append_right _ hc)
    · decide
    · decide
    · exact hdigits axis c hc
    · decide

theorem exists_text_eq_cons : ∃ c cs, q.text.toList = c :: cs ∧ c.isDigit = false := by
  cases q with
  | scalar name =>
    rcases all_isWordChar_of_isName h with ⟨hne, _, hdigit⟩
    rcases exists_cons_of_ne_nil hne with ⟨c, cs, hcs⟩
    rw [hcs, startsWithDigit, head?_cons, Option.any_some] at hdigit
    exact ⟨c, cs, hcs, hdigit⟩
  | coordinate side v axis =>
    rw [toList_coordinate, List.intercalate, cellName, String.toList_append]
    exact ⟨'x', _, rfl, rfl⟩
  | point axis =>
    rw [toList_point, List.intercalate]
    exact ⟨'i', _, rfl, rfl⟩

theorem stands_text : Stands word? q.text.toList (.name q) where
  isWord := by
    rcases exists_text_eq_cons h with ⟨c, cs, hcs, _⟩
    refine isWord_of_isPlain (by rw [hcs]; exact cons_ne_nil c cs) fun c hc => ?_
    exact isPlain_of_isNameChar (isNameChar_text h c hc)
  noCall := Unary.ofWord?_of_notMem fun hmem => absurd (isNameChar_text h _ hmem) (by decide)
  word := by
    rcases exists_text_eq_cons h with ⟨c, cs, hcs, hdigit⟩
    have hstarts : startsWithDigit q.text.toList = false := by
      rw [hcs, startsWithDigit, head?_cons, Option.any_some, hdigit]
    rw [word?, hstarts, if_neg Bool.false_ne_true, quantity?_text h]
    rfl

end Quantity

theorem Fixed.stands_text {f : Fixed} (h : f.isReadable = true) :
    Stands word? f.text.toList (.literal f) := by
  rw [isReadable, Bool.and_eq_true, Bool.and_eq_true, decide_eq_true_iff] at h
  rcases h with ⟨⟨hword, hdigit⟩, hfixed⟩
  refine ⟨hword, ?_, ?_⟩
  · have hne : ∀ w, startsWithDigit w = false → f.text.toList ≠ w := by
      rintro w hw hfw
      rw [hfw, hw] at hdigit
      cases hdigit
    rw [Unary.ofWord?, if_neg (hne _ (by decide)), if_neg (hne _ (by decide))]
  · rw [word?, if_pos hdigit, hfixed]
    rfl

theorem Layout.signs_operators (layout : Layout) : layout.operators.Signs := by
  cases layout with
  | tight => exact Cpp.signs_operators
  | wide | aligned =>
    refine ⟨rfl, " ", by simp, fun a b => ?_⟩
    change a ++ " / " ++ b = _
    simp only [String.append_assoc]
    rfl

namespace Term

/-- The words and operators of an expression of a formula. -/
def tokens (e : Term) : List Token := Expr.tokens Quantity.text Fixed.text e

variable {e : Term}

theorem stands_of_isReadable (h : isReadable e = true) : e.level ≤ 3 ∧
    (∀ q ∈ e.names, Stands word? q.text.toList (.name q)) ∧
    ∀ f ∈ e.literals, Stands word? f.text.toList (.literal f) := by
  rw [isReadable, Bool.and_eq_true, Bool.and_eq_true, decide_eq_true_iff] at h
  rcases h with ⟨⟨hlevel, hnames⟩, hliterals⟩
  refine ⟨hlevel, ?_, ?_⟩
  · exact fun q hq => Quantity.stands_text (all_eq_true.1 hnames q hq)
  · exact fun f hf => Fixed.stands_text (all_eq_true.1 hliterals f hf)

theorem lex_layout (layout : Layout) (h : isReadable e = true) {rest : List Char}
    (hrest : Stops rest) : lex [] ((text layout e).toList ++ rest) = tokens e ++ lex [] rest := by
  rcases stands_of_isReadable h with ⟨_, hnames, hliterals⟩
  exact lex_text layout.signs_operators (fun q hq => (hnames q hq).isWord)
    (fun f hf => (hliterals f hf).isWord) hrest

theorem term?_tokens (h : isReadable e = true) : term? (tokens e) = some e := by
  rcases stands_of_isReadable h with ⟨hlevel, hnames, hliterals⟩
  exact Parser.tree?_tokens hlevel hnames hliterals

end Term

end WeakForm
