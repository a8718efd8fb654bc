import WeakForm.Cell.Dimensions
import WeakForm.Geometry.Symbol
import WeakForm.Index
import WeakForm.Json.Decoder

/-!
# JSON of cells, indices and symbols

How the small values of the data model are written as JSON, and read again. Every
type has `toJson` and `ofJson?`.

Choices are written by name. An index or a symbol carries its numbers as payload.
-/

namespace WeakForm

/-- A value or null. -/
def Json.ofOption {β : Type} (toJson : β → Json) : Option β → Json
  | none => .null
  | some x => toJson x

namespace Shape

def all : List Shape := [interval, triangle, tetrahedron]

def toJson (s : Shape) : Json := .string s.name

def ofJson? : Decoder Shape := Decoder.oneOf all name

end Shape

namespace Integral

def toJson (k : Integral) : Json := .string k.name

def ofJson? : Decoder Integral := Decoder.oneOf all name

end Integral

namespace Side

def sign : Side → String
  | plus => "+"
  | minus => "-"

def toJson (s : Side) : Json := .string s.sign

def ofJson? : Decoder Side := Decoder.oneOf [plus, minus] sign

end Side

namespace Dimensions

def toJson (d : Dimensions) : Json := .naturals [d.tdim, d.gdim]

/-- Only pairs of dimensions that the library supports. -/
def ofJson? : Decoder Dimensions := fun j => do
  let (tdim, gdim) ← Decoder.pair Decoder.word Decoder.word j
  (Dimensions.of tdim gdim).toOption

end Dimensions

namespace IndexKind

def name : IndexKind → String
  | fixed => "fixed"
  | primary => "primary"
  | secondary => "secondary"

def toJson (k : IndexKind) : Json := .string k.name

def ofJson? : Decoder IndexKind := Decoder.oneOf [fixed, primary, secondary] name

end IndexKind

namespace Index

def toJson : Index → Json
  | fixed value => .object [("fixed", .natural value)]
  | primary id => .object [("primary", .natural id)]
  | secondary id => .object [("secondary", .natural id)]

def ofJson? : Decoder Index := Decoder.choice fun name payload => do
  let n ← Decoder.word (← payload)
  match name with
  | "fixed" => some (fixed n)
  | "primary" => some (primary n)
  | "secondary" => some (secondary n)
  | _ => none

end Index

namespace MultiIndex

def toJson (m : MultiIndex) : Json :=
  .object [("indices", .array (m.indices.map Index.toJson)), ("dims", .naturals m.dims)]

/-- The numbers of indices and dimensions are not compared. -/
def ofJson? : Decoder MultiIndex := Decoder.record do
  let indices ← FieldReader.required "indices" (Decoder.list Index.ofJson?)
  let dims ← FieldReader.required "dims" (Decoder.list Decoder.word)
  return ⟨indices, dims⟩

end MultiIndex

namespace Symbol

def entryFields (make : Option Side → Nat → Nat → Symbol) : FieldReader Symbol := do
  let side ← FieldReader.optional "restriction" Side.ofJson?
  let row ← FieldReader.required "row" Decoder.word
  let col ← FieldReader.required "col" Decoder.word
  return make side row col

def entryJson (side : Option Side) (row col : Nat) : Json :=
  .object [("restriction", .ofOption Side.toJson side), ("row", .natural row),
    ("col", .natural col)]

def toJson : Symbol → Json
  | jacobian side row col => .object [("Jacobian", entryJson side row col)]
  | inverse side row col => .object [("InverseJacobian", entryJson side row col)]
  | determinant side =>
    .object [("Determinant", .object [("restriction", .ofOption Side.toJson side)])]
  | scale => .string "ScaleFactor"

def ofJson? : Decoder Symbol := Decoder.choice fun name payload =>
  match name, payload with
  | "ScaleFactor", none | "ScaleFactor", some .null => some scale
  | "Determinant", some j => Decoder.members (do
      return determinant (← FieldReader.optional "restriction" Side.ofJson?)) j
  | "Jacobian", some j => Decoder.members (entryFields jacobian) j
  | "InverseJacobian", some j => Decoder.members (entryFields inverse) j
  | _, _ => none

end Symbol
end WeakForm
