import WeakForm.Listing

/-!
# Code of element tensors

What a routine computes, as data: declarations of weights, tables and geometry
constants, loops over quadrature points and basis functions, and statements that
add a product to an entry of the element tensor. The text of a routine is one
rendering of this data.

Names are numbers here. Weights are named after the first term that uses them,
tables, columns and constants are numbered in order of appearance, and the loop
over the basis functions of an argument is named by the argument.

## Main definitions

* `Operand`: What products are computed from.
-/

namespace WeakForm

/-- The variable of a loop: over quadrature points, or over the basis functions of an
    argument. -/
inductive Counter where
  | point
  | argument (number : Nat)
  deriving DecidableEq, Repr

namespace Counter

def text : Counter → String
  | point => Cpp.pointVariable
  | argument 0 => "j"
  | argument 1 => "k"
  | argument 2 => "l"
  | argument 3 => "m"
  | argument number => s!"i{number}"

end Counter

/-- What positions in the element tensor are computed from: the variable of an argument's loop,
    or the entry of an array of columns at that variable. -/
inductive Subscript where
  | counter (argument : Nat)
  | column (columns argument : Nat)
  deriving DecidableEq, Repr

namespace Subscript

def text : Subscript → String
  | counter argument => (Counter.argument argument).text
  | column columns argument =>
    Cpp.access (Cpp.columnsName columns) (Counter.argument argument).text

end Subscript

/-- What products are computed from. Weights and tables are read at the current quadrature point
    inside of a loop over points, and at the only point otherwise. -/
inductive Operand where
  | weight (term : Nat) (inLoop : Bool)
  | entry (table : Nat) (inLoop : Bool) (argument : Nat)
  | constant (number : Nat)
  | geometry (term : Nat) (a : List Nat)
  deriving DecidableEq, Repr

namespace Operand

def text : Operand → String
  | weight term inLoop =>
    if inLoop then Cpp.access (Cpp.weightName term) Cpp.pointVariable else Cpp.weightName term
  | entry table inLoop argument =>
    Cpp.access2 (Cpp.tableName table) (if inLoop then Cpp.pointVariable else "0")
      (Counter.argument argument).text
  | constant number => Cpp.constantName number
  | geometry term a => Cpp.geometryName term a

end Operand

/-- A position in the element tensor. -/
abbrev Position := Expr Subscript Nat

/-- Statements. -/
inductive Code (α : Type) where
  | skip
  | seq (first second : Code α)
  | note (text : String)
  | gap
  /-- Statements whose blank lines do not merge with those around them. -/
  | block (body : Code α)
  | weights (term : Nat) (values : List α)
  | table (number : Nat) (rows : List (List α))
  | columns (number : Nat) (dofs : List Nat)
  | constant (number : Nat) (value : GeometrySum α)
  | geometry (term : Nat) (a : List Nat) (value : GeometryMonomial α)
  /-- Sets an entry of the element tensor to zero. -/
  | clear (position : Position)
  /-- Adds a value to an entry of the element tensor. -/
  | accumulate (position : Position) (value : Expr Operand α)
  | loop (counter : Counter) (count : Nat) (body : Code α)

namespace Code

variable {α : Type}

/-- Statements one after the other. -/
def all (cs : List (Code α)) : Code α := cs.foldr seq skip

/-- Loops inside of each other, the first one outermost. -/
def loops (ranges : List (Counter × Nat)) (body : Code α) : Code α :=
  ranges.foldr (fun (counter, count) body => loop counter count body) body

def positionText (p : Position) : String := p.text Cpp.operators Subscript.text toString

/-- Appends the lines of statements to a listing. -/
def emit [Scalar α] (number : α → String) : Code α → Listing → Listing
  | skip, l => l
  | seq first second, l => second.emit number (first.emit number l)
  | note text, l => l.push (Cpp.comment text)
  | gap, l => l.blank
  | block body, l => l.append (body.emit number .empty)
  | weights term values, l => l.push (Cpp.weights (Cpp.weightName term) (values.map number))
  | table n rows, l => l.push (Cpp.table (Cpp.tableName n) (rows.map fun row => row.map number))
  | columns n dofs, l => l.push (Cpp.columns (Cpp.columnsName n) dofs)
  | constant n value, l =>
    l.push (Cpp.constant (Cpp.constantName n)
      (value.toExpr.text Cpp.operators Cpp.symbol number))
  | geometry term a value, l =>
    l.push (Cpp.constant (Cpp.geometryName term a)
      (value.toExpr.text Cpp.operators Cpp.symbol number))
  | clear position, l =>
    l.push (Cpp.assign (Cpp.element (positionText position)) (number 0))
  | accumulate position value, l =>
    l.push (Cpp.accumulate (Cpp.element (positionText position))
      (value.text Cpp.operators Operand.text number))
  | loop counter count body, l =>
    ((l.push (Cpp.loop counter.text 0 count)).push Cpp.blockBegin |>.nest
      (body.emit number .empty)).push Cpp.blockEnd

/-- The lines of statements. -/
def render [Scalar α] (number : α → String) (c : Code α) : Listing := c.emit number .empty

/-- Sets all entries of an element tensor of the given size to zero. -/
def reset (size : Nat) : Code α :=
  block (all [note "Reset values of the element tensor block",
    loop (.argument 0) size (clear (.name (.counter 0))), gap])

end Code
end WeakForm
