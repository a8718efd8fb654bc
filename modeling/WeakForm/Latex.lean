import WeakForm.Tensor.Basic
import WeakForm.Decimal.Text

/-!
# LaTeX documents

Element tensors as equations of a document. Indices count from one, numbers have
three places unless they are whole, products are written side by side and
quotients as fractions.

## Main definitions

* `Latex.style`: Numbers, operators and names.
-/

namespace WeakForm
namespace Latex

/-- Whole numbers up to rounding are written without places, others with three. -/
def number (x : Float) : String :=
  if (x.round - x).abs < Scalar.tiny then toString x.round.toInt64.toInt
  else Decimal.fixed 3 x

def braced (s : String) : String := "\x7b" ++ s ++ "\x7d"

/-- Quotients are fractions. -/
def operators : Operators := ⟨" ", fun a b => "\\frac" ++ braced a ++ braced b⟩

/-- A number counted from one. -/
def oneBased (n : Nat) : Checked String := do return toString (← Size.add n 1)

def oneBasedList (separator : String) (ns : List Nat) : Checked String := do
  return String.intercalate separator (← ns.mapM oneBased)

/-- A quantity of one side of a facet. -/
def restricted (side : Option Side) (symbol : String) : String :=
  match side with
  | none => symbol
  | some .plus => "\\left(" ++ symbol ++ "\\right)^" ++ braced "+"
  | some .minus => "\\left(" ++ symbol ++ "\\right)^" ++ braced "-"

def partialDerivative (upper lower : String) (row col : Nat) : Checked String := do
  return "\\frac" ++ braced ("\\partial " ++ upper ++ "_" ++ braced (← oneBased row)) ++
    braced ("\\partial " ++ lower ++ "_" ++ braced (← oneBased col))

def symbol : Symbol → Checked String
  | .jacobian side row col => do return restricted side (← partialDerivative "x" "X" row col)
  | .inverse side row col => do return restricted side (← partialDerivative "X" "x" row col)
  | .determinant side => .ok (restricted side "\\det F_K'")
  | .scale => .ok "|\\det F_K'|"

def style : Style Float where
  number := number
  operators := operators
  symbol := symbol
  referenceName term i a := do
    return "A^" ++ braced ("0," ++ (← oneBased term)) ++ "_" ++
      braced ((← oneBasedList "" i) ++ ";" ++ (← oneBasedList "" a))
  geometryName term a := do
    return "G_" ++ braced ("K," ++ (← oneBased term)) ++ "^" ++ braced (← oneBasedList "," a)
  elementName i _ := do return "A^K_" ++ braced (← oneBasedList "" i)

def command (name argument : String) : String := "\\" ++ name ++ braced argument

def equations (declarations : List Declaration) : List String :=
  [command "begin" "equation", "  " ++ command "begin" "array" ++ braced "rcl"] ++
    declarations.map (fun d => "    " ++ d.name ++ " &=& " ++ d.value ++ " \\\\") ++
    ["  " ++ command "end" "array", command "end" "equation", ""]

/-- The lines of a table of tables. The outer table runs over one multi-index of rank two, the
    inner tables over the other one; `entry` takes the outer pair first. -/
def nestedTables (title : String) (outer inner : Nat × Nat)
    (entry : Nat → Nat → Nat → Nat → Float) : List String :=
  let cell (o0 o1 : Nat) : List String :=
    [command "begin" "tabular" ++ braced (String.ofList (List.replicate inner.2 'c'))] ++
      (List.range inner.1).map (fun n0 =>
        String.intercalate " & " ((List.range inner.2).map fun n1 => number (entry o0 o1 n0 n1)) ++
          "\\\\") ++
      [command "end" "tabular"] ++ (if o1 + 1 < outer.2 then ["&"] else [])
  let columns := String.intercalate "|" (List.replicate outer.2 "c")
  [command "subsubsection" ("Reference tensor (" ++ title ++ " leading index)"), "",
      command "begin" "center", command "begin" "tabular" ++ braced ("|" ++ columns ++ "|"),
      "\\hline"] ++
    (List.range outer.1).flatMap (fun o0 =>
      (List.range outer.2).flatMap (cell o0) ++ ["\\\\\\hline"]) ++
    [command "end" "tabular", command "end" "center", ""]

/-- The lines of the tables of a reference tensor with two primary and two secondary indices,
    once with each of the pairs leading. -/
def referenceTables (t : ReferenceTensor Float) : List String :=
  match t.i.dims, t.a.dims with
  | [i0, i1], [a0, a1] =>
    nestedTables "$i$" (i0, i1) (a0, a1) (fun o0 o1 n0 n1 => t.entry [o0, o1] [n0, n1]) ++
      nestedTables "$\\alpha$" (a0, a1) (i0, i1) (fun o0 o1 n0 n1 => t.entry [n0, n1] [o0, o1])
  | _, _ => []

/-- The lines about one tensor; nothing for a tensor without terms. -/
def section' (title : String) (t : ElementTensor Float) : List String :=
  let tables :=
    match t.terms with
    | [term] => referenceTables term.reference
    | _ => []
  if t.terms.isEmpty then []
  else
    [command "subsection" title, command "subsubsection" "Evaluation of the geometry tensor", ""] ++
      equations t.geometry ++
      [command "subsubsection" "Evaluation of the element tensor", ""] ++
      equations t.element ++ tables

/-- A document about the tensors of a form, one section per tensor. -/
def document (name : String) (tensors : List (String × ElementTensor Float)) : String :=
  let lines :=
    ["\\documentclass[12pt]" ++ braced "article", "", command "begin" "document", "",
      command "title" name, command "author" "Automatically generated by formgen",
      command "date" "\\today", "\\maketitle", "", command "section" ("Form " ++ name)] ++
    tensors.flatMap (fun (title, t) => section' title t) ++ [command "end" "document"]
  String.join (lines.map (· ++ "\n"))

end Latex
end WeakForm
