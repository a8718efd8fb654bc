import WeakForm.Json.Value

/-!
# Reading values of the data model

Decoders turn JSON values into values of the data model, and refuse what does not
have the right form. Nothing is converted: a count must be written as an integer, a
text as a string.

A record is written as an object, where members nobody asks for are ignored, or as
the array of its fields in order. The choices of a closed list are written by name.
A choice with a payload is an object with the name as its only key; if the payload
has fields, it is an object again.

## Main definitions

* `Decoder.word`, `Decoder.number`, `Decoder.list`, …: The basic decoders.
* `Decoder.members`, `Decoder.record`: Reads a record.
-/

namespace WeakForm

/-- Reads a JSON value as a value of a type, or refuses it. -/
abbrev Decoder (β : Type) := Json → Option β

namespace Decoder

variable {β γ : Type}

def text : Decoder String := Json.string?

def flag : Decoder Bool
  | .bool b => some b
  | _ => none

/-- A count below a bound. -/
def below (limit : Nat) : Decoder Nat
  | .integer n => if 0 ≤ n ∧ n.toNat < limit then some n.toNat else none
  | _ => none

/-- A count that fits a 64-bit word. -/
def word : Decoder Nat := below (Nat.pow 2 64)

/-- The double nearest to an integer. -/
def nearest (n : Int) : Float :=
  let x := Float.ofScientific n.natAbs false 0
  if n < 0 then -x else x

/-- A double, if it is finite. -/
def finite? (x : Float) : Option Float := if x.isFinite then some x else none

/-- Any finite number. -/
def number : Decoder Float
  | .integer n => finite? (nearest n)
  | .float x => finite? x
  | _ => none

def list (d : Decoder β) : Decoder (List β)
  | .array items => items.mapM d
  | _ => none

/-- Exactly two items. -/
def pair (d : Decoder β) (e : Decoder γ) : Decoder (β × γ)
  | .array [a, b] => do return (← d a, ← e b)
  | _ => none

/-- A value, or null for none. -/
def optional (d : Decoder β) : Decoder (Option β)
  | .null => some none
  | j => (d j).map some

/-- A choice: its name alone, or its name and payload as the only member of an object. -/
def choice (d : String → Option Json → Option β) : Decoder β
  | .string name => d name none
  | .object [(name, payload)] => d name (some payload)
  | _ => none

/-- A choice without payload, of which the names are given. -/
def oneOf (choices : List β) (nameOf : β → String) : Decoder β :=
  choice fun name payload =>
    match payload with
    | none | some .null => choices.find? fun c => nameOf c == name
    | _ => none

end Decoder

/-- What is left to read of a record: its members, or the items behind those read. -/
inductive Fields where
  | named (record : Json)
  | listed (items : List Json)

/-- Reads fields of a record one after the other. -/
abbrev FieldReader (β : Type) := StateT Fields Option β

namespace FieldReader

variable {β : Type}

/-- The next field, if it is there. -/
def next (key : String) : FieldReader (Option Json) := fun
  | .named record => some (record.field? key, .named record)
  | .listed [] => some (none, .listed [])
  | .listed (j :: rest) => some (some j, .listed rest)

/-- A field that must be there. -/
def required (key : String) (d : Decoder β) : FieldReader β := do
  match ← next key with
  | some j => d j
  | none => failure

/-- A field that has a value of its own when it is not there. -/
def defaulted (key : String) (d : Decoder β) (default : β) : FieldReader β := do
  match ← next key with
  | some j => d j
  | none => return default

/-- A field that may be null or left out. -/
def optional (key : String) (d : Decoder β) : FieldReader (Option β) :=
  defaulted key (Decoder.optional d) none

end FieldReader

namespace Decoder

variable {β : Type}

/-- A record as an object. -/
def members (fields : FieldReader β) : Decoder β
  | .object ms => (fields (.named (.object ms))).map Prod.fst
  | _ => none

/-- A record as an object, or as the array of exactly its fields. -/
def record (fields : FieldReader β) : Decoder β
  | .array items =>
    match fields (.listed items) with
    | some (x, .listed []) => some x
    | _ => none
  | j => members fields j

end Decoder
end WeakForm
