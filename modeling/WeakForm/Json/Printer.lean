import WeakForm.Json.Value
import WeakForm.Decimal.Text

/-!
# Writing JSON

Values are written without blanks. Quotes, backslashes and control characters
are escaped, all other characters stand for themselves.

## Main definitions

* `Json.render`: The text of a value.
-/

namespace WeakForm
namespace Json

def hexDigit (n : Nat) : Char := (Nat.digitChar n)

/-- The characters that stand for one character inside quotes. -/
def escape (c : Char) : List Char :=
  if c == '"' then ['\\', '"']
  else if c == '\\' then ['\\', '\\']
  else if c == '\n' then ['\\', 'n']
  else if c == '\t' then ['\\', 't']
  else if c == '\r' then ['\\', 'r']
  else if c.toNat == 8 then ['\\', 'b']
  else if c.toNat == 12 then ['\\', 'f']
  else if c.toNat < 32 then
    ['\\', 'u', '0', '0', hexDigit (c.toNat / 16), hexDigit (c.toNat % 16)]
  else [c]

def quote (s : String) : String :=
  "\"" ++ String.ofList (s.toList.flatMap escape) ++ "\""

/-- Non-finite doubles have no JSON form and are written as null. -/
def number (x : Float) : String := if x.isFinite then Decimal.text x else "null"

mutual

def render : Json → String
  | .null => "null"
  | .bool b => if b then "true" else "false"
  | .integer n => toString n
  | .float x => number x
  | .string s => quote s
  | .array items => "[" ++ String.intercalate "," (renderItems items) ++ "]"
  | .object members => "\x7b" ++ String.intercalate "," (renderMembers members) ++ "\x7d"

def renderItems : List Json → List String
  | [] => []
  | j :: rest => render j :: renderItems rest

def renderMembers : List (String × Json) → List String
  | [] => []
  | (k, j) :: rest => (quote k ++ ":" ++ render j) :: renderMembers rest

end

end Json
end WeakForm
