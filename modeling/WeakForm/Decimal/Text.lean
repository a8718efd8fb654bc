import WeakForm.Decimal.Shortest

/-!
# Decimal text of doubles

Two ways of writing a double, each by a rule on its exact value.

`text` writes the shortest decimal that reads back, with a decimal point between
`10 ^ -4` and `10 ^ 16` and with an exponent elsewhere. `fixed` writes a given
number of places.
-/

namespace WeakForm
namespace Decimal

def digitsOf (n : Nat) : List Char := Nat.toDigits 10 n

def zeros (n : Nat) : List Char := List.replicate n '0'

/-- Positional notation, with at least one digit on each side of the point. -/
def positional (d : Digits) : String :=
  let ds := digitsOf d.significand
  let point : Int := ds.length + d.exponent
  let cs :=
    if 0 ≤ d.exponent then ds ++ zeros d.exponent.toNat ++ ['.', '0']
    else if 0 < point then ds.take point.toNat ++ '.' :: ds.drop point.toNat
    else '0' :: '.' :: (zeros (-point).toNat ++ ds)
  String.ofList cs

/-- Scientific notation: one digit before the point, no point without a fraction, and an
    exponent without sign or padding unless it is negative. -/
def scientific (d : Digits) : String :=
  let ds := digitsOf d.significand
  let exponent : Int := ds.length + d.exponent - 1
  let fraction := if ds.length ≤ 1 then [] else '.' :: ds.drop 1
  String.ofList (ds.take 1 ++ fraction ++ ['e']) ++ toString exponent

/-- Positional notation from `10 ^ -4` up to `10 ^ 16`, scientific notation elsewhere. -/
def layout (d : Digits) : String :=
  let leading : Int := (digitsOf d.significand).length + d.exponent - 1
  if -4 ≤ leading ∧ leading < 16 then positional d else scientific d

def signed (negative : Bool) (magnitude : String) : String :=
  if negative then "-" ++ magnitude else magnitude

/-- The shortest decimal text that reads back as the double. -/
def text (x : Float) : String :=
  match Binary.ofFloat x with
  | .nan => "NaN"
  | .infinite negative => signed negative "inf"
  | .finite negative significand exponent =>
    signed negative <|
      if significand = 0 then "0.0" else layout (shortest significand exponent)

/-- A natural number with its last `places` digits behind a point. -/
def withPoint (n places : Nat) : String :=
  let ds := digitsOf n
  let ds := zeros (places + 1 - ds.length) ++ ds
  let whole := ds.length - places
  String.ofList (ds.take whole ++ (if places = 0 then [] else '.' :: ds.drop whole))

/-- The double rounded to the given number of places, a tie going to the even neighbour. -/
def fixed (places : Nat) (x : Float) : String :=
  match Binary.ofFloat x with
  | .nan => "NaN"
  | .infinite negative => signed negative "inf"
  | .finite negative significand exponent =>
    let units := (Ratio.ofBinary significand exponent).inUnits (-places)
    signed negative (withPoint units.roundHalfEven places)

end Decimal
end WeakForm
