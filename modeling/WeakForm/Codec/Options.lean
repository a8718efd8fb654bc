import WeakForm.Codec.Basic
import WeakForm.Options

/-!
# JSON of options

How the options of the compiler are written as JSON, and read again. An option that
is left out has its standard value.
-/

namespace WeakForm

namespace Representation

def name : Representation → String
  | quadrature => "quadrature"
  | tensor => "tensor"

def toJson (r : Representation) : Json := .string r.name

def ofJson? : Decoder Representation := Decoder.oneOf [quadrature, tensor] name

end Representation

namespace Options

def toJson (o : Options Float) : Json :=
  .object [("optimisation_level", .natural o.optimisationLevel), ("epsilon", .ofFloat o.epsilon),
    ("reset_tensor", .bool o.resetTensor), ("routine_name", .ofOption .string o.routineName),
    ("representation", o.representation.toJson)]

def ofJson? : Decoder (Options Float) := Decoder.record do
  let usual : Options Float := Options.standard
  let level ← FieldReader.defaulted "optimisation_level" (Decoder.below 256) usual.optimisationLevel
  let epsilon ← FieldReader.defaulted "epsilon" Decoder.number usual.epsilon
  let reset ← FieldReader.defaulted "reset_tensor" Decoder.flag usual.resetTensor
  let name ← FieldReader.optional "routine_name" Decoder.text
  let representation ←
    FieldReader.defaulted "representation" Representation.ofJson? usual.representation
  return ⟨level, epsilon, reset, name, representation⟩

end Options
end WeakForm
