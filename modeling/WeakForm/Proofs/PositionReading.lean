import WeakForm.Proofs.FormulaReading
import WeakForm.Proofs.Visits

/-!
# Reading positions back

The position of an entry of the element tensor is written as text. An argument whose loop
runs over some of the basis functions looks up which one it is in an array of columns, an
argument on the minus side is moved behind the entries of the plus side, and all but the
last are multiplied by the number of entries behind them. Brackets are left out where the
stride is one, so that a sum may be written as the right summand of another one.

`PointLoop.read_position` evaluates the text, with the precedence of operators and with
the arrays and loop variables of a scope, and gets the row-major number of the entry. A sum
without brackets is no operand, but it can be added to what stands in front of it because
addition is associative. `Reader.Addend` is what carries this through nested sums.

## Theorems

* `Locals.index?_counter`, `Locals.index?_column`: The words of positions can be read.
* `PointLoop.read_position`: The text of a position is read as a row-major number.
-/

namespace WeakForm

open List Success Text Subscript

variable {α : Type}

namespace Locals

/-- The entry of an array of columns. -/
def listed? (s : Locals α) (name : String) (j : Nat) : Option Nat :=
  match s.arrays.lookup name with
  | some (.columns dofs) => dofs[j]?
  | _ => none

/-- The number that a word stands for: a literal, a loop variable, or the entry of an array of
    columns at a loop variable. -/
def index? (s : Locals α) (w : List Char) : Option Nat :=
  if startsWithDigit w then Cpp.natural? w
  else
    match w.splitOn '[' with
    | [name] => s.counters.lookup (String.ofList name)
    | [name, rest] => do
      let counter ← Cpp.subscript? rest
      s.listed? (String.ofList name) (← s.counters.lookup (String.ofList counter))
    | _ => none

/-- Words of positions as rational numbers. -/
def word? (s : Locals α) (w : List Char) : Option ℚ := (s.index? w).map Nat.cast

end Locals

theorem startsWithDigit_append {cs : List Char} (ds : List Char) (h : cs ≠ []) :
    startsWithDigit (cs ++ ds) = startsWithDigit cs := by
  rw [startsWithDigit, startsWithDigit, head?_append_of_ne_nil cs h]

theorem isName_append_toString {s : String} (h : isName s = true) (n : Nat) :
    isName (s ++ toString n) = true := by
  have hne := (all_isWordChar_of_isName h).1
  rw [isName, Bool.and_eq_true] at h ⊢
  refine ⟨oneWord_append h.1 (all_isWordChar_toString n), ?_⟩
  rw [String.toList_append, startsWithDigit_append _ hne]
  exact h.2

theorem Counter.isName_text (c : Counter) : isName c.text = true := by
  match c with
  | point | argument 0 | argument 1 | argument 2 | argument 3 => decide
  | argument (n + 4) => exact isName_append_toString (s := "i") (by decide) (n + 4)

theorem Cpp.isName_columnsName (number : Nat) : isName (columnsName number) = true :=
  isName_append_toString (s := "nzc") (by decide) number

theorem Subscript.toList_column (columns k : Nat) :
    (column columns k).text.toList = (Cpp.columnsName columns).toList ++
      ('[' :: ((Counter.argument k).text.toList ++ [']'])) := by
  change (Cpp.columnsName columns ++ "[" ++ (Counter.argument k).text ++ "]").toList = _
  simp [String.toList_append]

theorem Subscript.isWord_text (x : Subscript) : isWord x.text.toList = true := by
  cases x with
  | counter k =>
    exact isWord_of_isName (Counter.argument k).isName_text
  | column columns k =>
    rcases all_isWordChar_of_isName (Counter.argument k).isName_text with ⟨_, hcounter, _⟩
    rcases all_isWordChar_of_isName (Cpp.isName_columnsName columns) with ⟨hne, hname, _⟩
    rw [toList_column]
    refine isWord_of_isPlain (append_ne_nil_of_left_ne_nil hne _) fun c hc => ?_
    refine isPlain_of_isNameChar ?_
    simp only [mem_append, mem_cons, not_mem_nil, or_false] at hc
    rcases hc with hc | rfl | hc | rfl
    · exact isNameChar_of_all hname c hc
    · decide
    · exact isNameChar_of_all hcounter c hc
    · decide

namespace Locals

variable {s : Locals α}

theorem index?_number (s : Locals α) (n : Nat) : s.index? (toString n).toList = some n := by
  rw [index?, Nat.toString_eq_repr, Nat.toList_repr, if_pos (startsWithDigit_toDigits n)]
  exact Cpp.natural?_toDigits n

theorem index?_counter (s : Locals α) (k : Nat) :
    s.index? (counter k).text.toList = s.counter? (.argument k) := by
  rcases all_isWordChar_of_isName (Counter.argument k).isName_text with ⟨_, hall, hdigit⟩
  have hsplit : (Counter.argument k).text.toList.splitOn '[' = [(Counter.argument k).text.toList] := by
    have hsingle := splitOn_intercalate '['
      (forall_mem_singleton.2 (notMem_of_all hall (by decide))) (cons_ne_nil _ _)
    rwa [intercalate_singleton] at hsingle
  rw [index?, text, if_neg (Bool.not_eq_true _ ▸ hdigit), hsplit]
  simp only [String.ofList_toList]
  rfl

theorem index?_column {k j : Nat} (columns : Nat) (hj : s.counter? (.argument k) = some j) :
    s.index? (column columns k).text.toList = s.listed? (Cpp.columnsName columns) j := by
  rcases all_isWordChar_of_isName (Counter.argument k).isName_text with ⟨_, hcounter, _⟩
  rcases all_isWordChar_of_isName (Cpp.isName_columnsName columns) with ⟨hne, hname, hdigit⟩
  -- Neither name has a bracket in it, so splitting at the bracket gives two parts.
  have hnotMem : '[' ∉ (Counter.argument k).text.toList ++ [']'] := by
    rw [mem_append, not_or]
    exact ⟨notMem_of_all hcounter (by decide), by decide⟩
  have hsplit := splitOn_intercalate '[' (forall_mem_cons.2
    ⟨notMem_of_all hname (by decide), forall_mem_singleton.2 hnotMem⟩) (cons_ne_nil _ _)
  rw [intercalate_cons_cons, intercalate_singleton, append_assoc, singleton_append,
    ← toList_column] at hsplit
  rw [← startsWithDigit_append _ hne, ← toList_column] at hdigit
  rw [counter?] at hj
  rw [index?, if_neg (Bool.not_eq_true _ ▸ hdigit), hsplit]
  simp only [Cpp.subscript?_append, Option.bind_eq_bind, Option.bind_some, String.ofList_toList, hj]

/-- The column that the loop variable of an argument stands for: itself, or the entry of an array of
    columns. -/
def column? (s : Locals α) (nonzero : Option Nat) (j : Nat) : Option Nat :=
  match nonzero with
  | some number => s.listed? (Cpp.columnsName number) j
  | none => some j

end Locals

namespace Reader

variable {K : Type} [Field K] {valueOf : List Char → Option K} {ts us : List Token} {x y : K}

/-- Tokens that are read as a sum, and that can be added to a sum in front of them. -/
structure Addend (valueOf : List Char → Option K) (ts : List Token) (x : K) : Prop where
  first : Summands valueOf ts x
  next : ∀ us y, Summands valueOf us y → Summands valueOf (us ++ .plus :: ts) (y + x)

theorem Factors.addend (h : Factors valueOf ts x) : Addend valueOf ts x :=
  ⟨h.summands, fun _ _ hy => hy.snoc h false⟩

/-- Sums without brackets are added one summand after the other. -/
theorem Addend.add (h : Addend valueOf ts x) (h' : Addend valueOf us y) :
    Addend valueOf (ts ++ .plus :: us) (x + y) := by
  refine ⟨h'.next _ _ h.first, fun vs z hz => ?_⟩
  have hall := h'.next _ _ (h.next vs z hz)
  rwa [append_assoc, cons_append, add_assoc] at hall

theorem addend_foldl {ν β α : Type} {nameText : ν → String} {number : α → String} {xs : List β}
    {part : β → Expr ν α} {value : β → K} {a : Expr ν α}
    (ha : Addend valueOf (a.tokens nameText number) x)
    (h : ∀ y ∈ xs, Addend valueOf ((part y).tokens nameText number) (value y)) :
    Addend valueOf (((xs.map part).foldl Expr.add a).tokens nameText number)
      (x + (xs.map value).sum) := by
  induction xs generalizing a x with
  | nil =>
    rw [map_nil, map_nil, sum_nil, add_zero]
    exact ha
  | cons y xs ih =>
    rw [forall_mem_cons] at h
    rw [map_cons, map_cons, sum_cons, ← add_assoc, foldl_cons]
    exact ih (ha.add h.1) h.2

end Reader

/-- What the position of an argument is computed from: its loop variable, or the column that this
    stands for. -/
def ArgumentTable.subscript (k : Nat) (t : ArgumentTable) : Subscript :=
  match t.table.nonzero with
  | some columns => .column columns k
  | none => .counter k

theorem Locals.index?_subscript {s : Locals α} {k j : Nat} (t : ArgumentTable)
    (hj : s.counter? (.argument k) = some j) :
    s.index? (t.subscript k).text.toList = s.column? t.table.nonzero j := by
  unfold ArgumentTable.subscript column?
  cases t.table.nonzero with
  | some number => exact s.index?_column number hj
  | none => exact (s.index?_counter k).trans hj

namespace PointLoop

theorem positionPart_eq (k : Nat) (t : ArgumentTable) (stride : Nat) : positionPart k t stride =
      let moved : Position := if 0 < t.offset then
          let sum := .add (.name (t.subscript k)) (.literal t.offset)
          if stride = 1 then sum else .group sum
        else .name (t.subscript k)
      if stride = 1 then moved else .mul moved (.literal stride) := by
  unfold positionPart ArgumentTable.subscript
  cases t.table.nonzero with
  | none => rfl
  | some columns => rfl

variable {tables : List ArgumentTable} {dims : List Nat} {pos : Position}

theorem position_eq_ok (h : position dims tables = .ok pos) :
    pos = Expr.sumOf (.literal 0) (tables.zipIdx.map fun x =>
      positionPart x.2 x.1 (dims.drop (x.2 + 1)).prod) := by
  rcases bind_eq_ok.1 h with ⟨parts, hparts, hpos⟩
  cases hpos
  refine congrArg (Expr.sumOf (.literal 0)) (mapM_eq_map hparts fun x _ part hpart => ?_)
  rcases bind_eq_ok.1 hpart with ⟨stride, hstride, hpart⟩
  rw [← pure_eq_ok.1 hpart, Size.product_eq_prod hstride]

section

variable {K : Type} [Field K] {valueOf : List Char → Option K}

theorem addend_positionPart (hnumber : ∀ n : Nat, valueOf (toString n).toList = some (n : K))
    {k column : Nat} {t : ArgumentTable} (stride : Nat)
    (hcolumn : valueOf (t.subscript k).text.toList = some (column : K)) :
    Reader.Addend valueOf ((positionPart k t stride).tokens text toString)
      (((column + t.offset) * stride : Nat) : K) := by
  have hbase : Reader.Operand valueOf [.word (t.subscript k).text.toList] (column : K) :=
    Reader.operand_word hcolumn
  have hliteral : ∀ n : Nat, Reader.Operand valueOf [.word (toString n).toList] (n : K) :=
    fun n => Reader.operand_word (hnumber n)
  have hsum := hbase.factors.addend.add (hliteral t.offset).factors.addend
  rw [positionPart_eq, Nat.cast_mul, Nat.cast_add]
  by_cases hone : stride = 1
  · -- Nothing stands behind the sum, so it is written without brackets.
    simp only [hone, Nat.cast_one, mul_one, if_true]
    by_cases hoffset : 0 < t.offset
    · rw [if_pos hoffset]
      exact hsum
    · rw [if_neg hoffset, Nat.eq_zero_of_not_pos hoffset, Nat.cast_zero, add_zero]
      exact hbase.factors.addend
  · -- A product is an operand of the sum, and so is a sum in brackets of the product.
    simp only [if_neg hone]
    by_cases hoffset : 0 < t.offset
    · rw [if_pos hoffset]
      exact (hsum.first.group.factors.snoc (hliteral stride) false).addend
    · rw [if_neg hoffset, Nat.eq_zero_of_not_pos hoffset, Nat.cast_zero, add_zero]
      exact (hbase.factors.snoc (hliteral stride) false).addend

theorem addend_sumOf (hnumber : ∀ n : Nat, valueOf (toString n).toList = some (n : K))
    {xs : List (ArgumentTable × Nat)} {column : ArgumentTable × Nat → Nat}
    (stride : ArgumentTable × Nat → Nat)
    (hcolumn : ∀ x ∈ xs, valueOf (x.1.subscript x.2).text.toList = some (column x : K)) :
    Reader.Addend valueOf ((Expr.sumOf (.literal 0) (xs.map fun x =>
        positionPart x.2 x.1 (stride x))).tokens text toString)
      (((xs.map fun x => (column x + x.1.offset) * stride x).sum : Nat) : K) := by
  have hparts : ∀ x ∈ xs, Reader.Addend valueOf
      ((positionPart x.2 x.1 (stride x)).tokens text toString)
      (((column x + x.1.offset) * stride x : Nat) : K) :=
    fun x hx => addend_positionPart hnumber (stride x) (hcolumn x hx)
  cases xs with
  | nil =>
    -- Without arguments the position is written as zero.
    rw [map_nil, map_nil, sum_nil]
    exact (Reader.operand_word (hnumber 0)).factors.addend
  | cons x xs =>
    rw [forall_mem_cons] at hparts
    rw [map_cons, map_cons, sum_cons, Nat.cast_add, Nat.cast_list_sum, map_map]
    exact Reader.addend_foldl hparts.1 hparts.2

end

theorem read_position {s : Locals α} (h : position dims tables = .ok pos)
    (hdims : dims.length = tables.length) {js : List Nat} (hjs : js.length = tables.length)
    {column : ArgumentTable → Nat → Nat}
    (hcolumn : ∀ k (t : ArgumentTable) j, tables[k]? = some t → js[k]? = some j →
      s.index? (t.subscript k).text.toList = some (column t j)) :
    Cpp.read s.word? (Code.positionText pos) =
      some ((Tuple.linear dims (zipWith (fun t j => column t j + t.offset) tables js) :
        Nat) : ℚ) := by
  have hnumber : ∀ n : Nat, s.word? (toString n).toList = some (n : ℚ) := by
    intro n
    rw [Locals.word?, s.index?_number, Option.map_some]
  have hword : ∀ x ∈ tables.zipIdx, s.word? (x.1.subscript x.2).text.toList =
      some ((column x.1 (js[x.2]?.getD 0) : Nat) : ℚ) := by
    intro x hx
    have hx := mem_zipIdx_iff_getElem?.1 hx
    have hj := getElem?_eq_getElem (hjs ▸ (List.getElem?_eq_some_iff.1 hx).1)
    rw [Locals.word?, hcolumn x.2 x.1 _ hx hj, hj]
    rfl
  have hsum := addend_sumOf hnumber (fun x => (dims.drop (x.2 + 1)).prod) hword
  rw [← position_eq_ok h, ← Tuple.linear_zipWith (fun t j => column t j + t.offset) hdims hjs] at hsum
  -- The text falls apart into the tokens of the position.
  have hlex : lex [] ((Code.positionText pos).toList ++ []) =
      pos.tokens text toString ++ lex [] [] :=
    lex_text Cpp.signs_operators (fun x _ => x.isWord_text)
      (fun n _ => isWord_of_oneWord (oneWord_toString n)) stops_nil
  rcases hsum.first [] with ⟨y, g, hrun, hy⟩
  rw [append_nil, show lex [] [] = [] from rfl, append_nil] at hlex
  rw [Cpp.read, hlex, hrun, Option.bind_some, Reader.result, hy]

end PointLoop

end WeakForm
