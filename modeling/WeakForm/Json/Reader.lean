import WeakForm.Json.Value

/-!
# Reading JSON

A reader over the characters of a text. Every part returns what it read and the
rest of the text. The recursion is bounded by the length of the text, since
every value takes at least one character.
-/

namespace WeakForm
namespace Json

def isBlank (c : Char) : Bool := c == ' ' || c == '\t' || c == '\n' || c == '\r'

def skipBlank (cs : List Char) : List Char := cs.dropWhile isBlank

def hexValue? (c : Char) : Option Nat :=
  if c.isDigit then some (c.toNat - '0'.toNat)
  else if 'a' ≤ c ∧ c ≤ 'f' then some (c.toNat - 'a'.toNat + 10)
  else if 'A' ≤ c ∧ c ≤ 'F' then some (c.toNat - 'A'.toNat + 10)
  else none

/-- Four hexadecimal digits. -/
def readUnit : List Char → Option (Nat × List Char)
  | a :: b :: c :: d :: rest => do
    let n := (← hexValue? a) * 4096 + (← hexValue? b) * 256 + (← hexValue? c) * 16 + (← hexValue? d)
    some (n, rest)
  | _ => none

/-- The character of an escape that starts with `u`; two units may form one character. -/
def readEscapedUnit (cs : List Char) : Option (Char × List Char) := do
  let (high, rest) ← readUnit cs
  if 0xD800 ≤ high ∧ high < 0xDC00 then
    match rest with
    | '\\' :: 'u' :: rest =>
      let (low, rest) ← readUnit rest
      if 0xDC00 ≤ low ∧ low < 0xE000 then
        some (Char.ofNat (0x10000 + (high - 0xD800) * 1024 + (low - 0xDC00)), rest)
      else none
    | _ => none
  else if 0xDC00 ≤ high ∧ high < 0xE000 then none
  else some (Char.ofNat high, rest)

/-- The characters up to the closing quote, in reverse order after `done`. -/
def readString : Nat → List Char → List Char → Option (String × List Char)
  | 0, _, _ => none
  | _, _, [] => none
  | fuel + 1, done, c :: cs =>
    if c == '"' then some (String.ofList done.reverse, cs)
    else if c == '\\' then
      match cs with
      | 'n' :: r => readString fuel ('\n' :: done) r
      | 't' :: r => readString fuel ('\t' :: done) r
      | 'r' :: r => readString fuel ('\r' :: done) r
      | 'b' :: r => readString fuel (Char.ofNat 8 :: done) r
      | 'f' :: r => readString fuel (Char.ofNat 12 :: done) r
      | '/' :: r => readString fuel ('/' :: done) r
      | '\\' :: r => readString fuel ('\\' :: done) r
      | '"' :: r => readString fuel ('"' :: done) r
      | 'u' :: r =>
        match readEscapedUnit r with
        | some (u, r) => readString fuel (u :: done) r
        | none => none
      | _ => none
    else if c.toNat < 32 then none
    else readString fuel (c :: done) cs

def natOfDigits (ds : List Char) : Nat := ds.foldl (fun n c => 10 * n + (c.toNat - '0'.toNat)) 0

/-- The value of a number in parts: an integer if it has neither fraction nor exponent and fits
    a 64-bit word, otherwise the nearest double. -/
def ofParts (negative : Bool) (whole fraction : List Char) (exponent : Option Int) : Json :=
  let magnitude := natOfDigits whole
  if fraction.isEmpty && exponent.isNone && !negative && magnitude < Nat.pow 2 64 then .integer magnitude
  else if fraction.isEmpty && exponent.isNone && negative && 0 < magnitude && magnitude ≤ Nat.pow 2 63 then
    .integer (-(magnitude : Int))
  else
    let scale := exponent.getD 0 - fraction.length
    let x := Float.ofScientific (natOfDigits (whole ++ fraction)) (scale < 0) scale.natAbs
    .float (if negative then -x else x)

/-- A run of digits that may not be empty. -/
def readDigits (cs : List Char) : Option (List Char × List Char) :=
  let ds := cs.takeWhile Char.isDigit
  if ds.isEmpty then none else some (ds, cs.dropWhile Char.isDigit)

def readExponent (cs : List Char) : Option (Option Int × List Char) :=
  match cs with
  | c :: r =>
    if c == 'e' || c == 'E' then
      match r with
      | '-' :: r => do
        let (ds, r) ← readDigits r
        some (some (-(natOfDigits ds : Int)), r)
      | '+' :: r => do
        let (ds, r) ← readDigits r
        some (some (natOfDigits ds), r)
      | _ => do
        let (ds, r) ← readDigits r
        some (some (natOfDigits ds), r)
    else some (none, cs)
  | [] => some (none, [])

def readMagnitude (negative : Bool) (cs : List Char) : Option (Json × List Char) := do
  let (whole, r) ← readDigits cs
  let (fraction, r) ←
    match r with
    | '.' :: r => readDigits r
    | _ => some ([], r)
  let (exponent, r) ← readExponent r
  some (ofParts negative whole fraction exponent, r)

def readNumber (cs : List Char) : Option (Json × List Char) :=
  match cs with
  | '-' :: r => readMagnitude true r
  | _ => readMagnitude false cs

mutual

def readValue : Nat → List Char → Option (Json × List Char)
  | 0, _ => none
  | fuel + 1, cs =>
    match skipBlank cs with
    | '\x7b' :: r =>
      match skipBlank r with
      | '\x7d' :: r => some (.object [], r)
      | r => readMembers fuel [] r
    | '[' :: r =>
      match skipBlank r with
      | ']' :: r => some (.array [], r)
      | r => readItems fuel [] r
    | '"' :: r =>
      match readString (r.length + 1) [] r with
      | some (s, r) => some (.string s, r)
      | none => none
    | 'n' :: 'u' :: 'l' :: 'l' :: r => some (.null, r)
    | 't' :: 'r' :: 'u' :: 'e' :: r => some (.bool true, r)
    | 'f' :: 'a' :: 'l' :: 's' :: 'e' :: r => some (.bool false, r)
    | r => readNumber r

def readItems : Nat → List Json → List Char → Option (Json × List Char)
  | 0, _, _ => none
  | fuel + 1, done, cs =>
    match readValue fuel cs with
    | some (j, r) =>
      match skipBlank r with
      | ',' :: r => readItems fuel (j :: done) r
      | ']' :: r => some (.array (j :: done).reverse, r)
      | _ => none
    | none => none

def readMembers : Nat → List (String × Json) → List Char → Option (Json × List Char)
  | 0, _, _ => none
  | fuel + 1, done, cs =>
    match skipBlank cs with
    | '"' :: r =>
      match readString (r.length + 1) [] r with
      | some (key, r) =>
        match skipBlank r with
        | ':' :: r =>
          match readValue fuel r with
          | some (j, r) =>
            match skipBlank r with
            | ',' :: r => readMembers fuel ((key, j) :: done) r
            | '\x7d' :: r => some (.object ((key, j) :: done).reverse, r)
            | _ => none
          | none => none
        | _ => none
      | none => none
    | _ => none

end

/-- The value written in a text, with nothing but blanks behind it. -/
def parse? (s : String) : Option Json :=
  match readValue (s.length + 1) s.toList with
  | some (j, rest) => if (skipBlank rest).isEmpty then some j else none
  | none => none

end Json
end WeakForm
