/-!
# JSON values

Forms, options and indices are exchanged as JSON. A number written without
fraction and exponent that fits a 64-bit word is an integer, every other number
is a double: the data model refuses a double where it expects a count.

## Main definitions

* `Json`: A JSON value.
* `Json.ofFloat`: The value of a double.
-/

namespace WeakForm

/-- A JSON value. Objects keep the order of their members. -/
inductive Json where
  | null
  | bool (b : Bool)
  | integer (n : Int)
  | float (x : Float)
  | string (s : String)
  | array (items : List Json)
  | object (members : List (String × Json))
  deriving Inhabited

namespace Json

def natural (n : Nat) : Json := .integer n

/-- A double. Those that are not finite cannot be written, and null stands for them. -/
def ofFloat (x : Float) : Json := if x.isFinite then .float x else .null

def strings (ss : List String) : Json := .array (ss.map .string)

def naturals (ns : List Nat) : Json := .array (ns.map natural)

/-- The value of a key; of repeated keys the last one counts. -/
def field? (j : Json) (key : String) : Option Json :=
  match j with
  | .object members => members.reverse.lookup key
  | _ => none

def items? : Json → Option (List Json)
  | .array items => some items
  | _ => none

def string? : Json → Option String
  | .string s => some s
  | _ => none

end Json
end WeakForm
