import WeakForm.Style
import WeakForm.Text
import WeakForm.Decimal.Text

/-!
# C++ statements

The statements that generated routines are made of, in C++. Routines take the
array `A` of the element tensor, the cell or the two cells next to a facet, and
the numbers of the facets within their cells.

Every function gives one statement without indentation; declarations over several
lines separate them by line feeds.

## Main definitions

* `Cpp.style`: Numbers, operators and names.
* `Cpp.isComment`: Comment lines.
-/

namespace WeakForm
namespace Cpp

/-- A floating-point literal. Both zeros are written alike. -/
def number (x : Float) : String := if x == 0.0 then "0.0" else Decimal.text x

/-- Multiplication and division without blanks. -/
def operators : Operators := ⟨"*", fun a b => a ++ "/" ++ b⟩

/-- Entries carry their row and column, and the side on interior facets. -/
def symbol : Symbol → String
  | .jacobian side row col => s!"J{Side.suffix side}_{row}{col}"
  | .inverse side row col => s!"K{Side.suffix side}_{row}{col}"
  | .determinant side => s!"detJ{Side.suffix side}"
  | .scale => "det"

def joined (ns : List Nat) : String := String.intercalate "_" (ns.map toString)

def referenceName (term : Nat) (i a : List Nat) : String :=
  [i, a].foldl (fun name ns => if ns.isEmpty then name else name ++ "_" ++ joined ns) s!"A{term}"

def geometryName (term : Nat) (a : List Nat) : String :=
  if a.isEmpty then s!"G{term}" else s!"G{term}_" ++ joined a

def element (index : String) : String := "A[" ++ index ++ "]"

/-- The style of C++ programs, for numbers with the given literals. -/
def style {α : Type} (number : α → String) : Style α where
  number := number
  operators := operators
  symbol s := .ok (symbol s)
  referenceName term i a := .ok (referenceName term i a)
  geometryName term a := .ok (geometryName term a)
  elementName _ position := .ok (element (toString position))

def braced (s : String) : String := "\x7b" ++ s ++ "\x7d"

def listed (ss : List String) : String := String.intercalate ", " ss

def comment (text : String) : String := "// " ++ text

/-- Whether a line is a comment, possibly behind blanks. -/
def isComment (line : String) : Bool :=
  (Text.behind? ['/', '/'] (line.toList.dropWhile Text.isBlank)).isSome

/-- The name of the scalar that a line declares, if it declares one. -/
def declaredName? (line : String) : Option String :=
  let cs := line.toList
  match (Text.behind? "const double ".toList cs).or (Text.behind? "double ".toList cs) with
  | none => none
  | some rest =>
    match Text.cut? " = ".toList rest with
    | none => none
    | some (name, _) =>
      if !name.isEmpty && name.all Text.isWordChar && cs.getLast? == some ';' then
        some (String.ofList name)
      else none

def weightName (term : Nat) : String := s!"W{term}"

def tableName (number : Nat) : String := s!"FE{number}"

def columnsName (number : Nat) : String := s!"nzc{number}"

def constantName (number : Nat) : String := s!"G{number}"

def pointVariable : String := "ip"

def facetVariable (side : Option Side) : String := "facet" ++ Side.suffix side

/-- The declaration of a constant. -/
def constant (name value : String) : String := s!"const double {name} = {value};"

/-- The declaration of quadrature weights; a single weight is a scalar. -/
def weights (name : String) (values : List String) : String :=
  match values with
  | [value] => s!"static const double {name} = {value};"
  | _ => s!"static const double {name}[{values.length}] = " ++ braced (listed values) ++ ";"

/-- The declaration of a table, one row per line. -/
def table (name : String) (rows : List (List String)) : String :=
  let columns := (rows.head?.getD []).length
  s!"static const double {name}[{rows.length}][{columns}] = \\\n" ++
    braced (String.intercalate ",\n" (rows.map fun row => braced (listed row))) ++ ";"

/-- The declaration of the columns that a compressed table holds. -/
def columns (name : String) (dofs : List Nat) : String :=
  s!"static const unsigned int {name}[{dofs.length}] = " ++ braced (listed (dofs.map toString)) ++
    ";"

def loop (variableName : String) (start stop : Nat) : String :=
  s!"for (unsigned int {variableName} = {start}; {variableName} < {stop}; {variableName}++)"

def blockBegin : String := "\x7b"

def blockEnd : String := "\x7d"

def access (array index : String) : String := array ++ "[" ++ index ++ "]"

def access2 (array row col : String) : String := access (access array row) col

def assign (target value : String) : String := target ++ " = " ++ value ++ ";"

def accumulate (target value : String) : String := target ++ " += " ++ value ++ ";"

def switch (variableName : String) : String := "switch " ++ grouped variableName

def caseLabel (value : Nat) : String := s!"case {value}:"

def breakStatement : String := "break;"

/-- A statement that ends the routine with a message. Quotes inside of it are escaped. -/
def raise (message : String) : String :=
  let escaped := message.toList.flatMap fun c => if c == '"' then ['\\', '"'] else [c]
  "throw std::runtime_error(\"" ++ String.ofList escaped ++ "\");"

def parameters : Integral → String
  | .cell => "double* A, const ufc::cell& c"
  | .exteriorFacet => "double* A, const ufc::cell& c, unsigned int facet"
  | .interiorFacet =>
    "double* A, const ufc::cell& c0, const ufc::cell& c1, unsigned int facet0, unsigned int facet1"

/-- The head of a routine up to its opening brace. -/
def routineBegin (name : String) (kind : Integral) : String :=
  "void " ++ name ++ grouped (parameters kind) ++ "\n" ++ blockBegin

end Cpp
end WeakForm
