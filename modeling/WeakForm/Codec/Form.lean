import WeakForm.Codec.Basic
import WeakForm.Form

/-!
# JSON of elements and forms

How elements and forms are written as JSON, and read again. All fields are written;
the fields of a factor and of a monomial that have a usual value may be left out of
what is read.
-/

namespace WeakForm

namespace Mapping

def toJson (m : Mapping) : Json := .string m.name

def ofJson? : Decoder Mapping := fun j => do (ofName (← Decoder.text j)).toOption

end Mapping

namespace Family

/-- The name of a family in one word. -/
def tag : Family → String
  | lagrange => "Lagrange"
  | discontinuousLagrange => "DiscontinuousLagrange"
  | vectorLagrange => "VectorLagrange"
  | raviartThomas => "RaviartThomas"
  | nedelec => "Nedelec"

def all : List Family := [lagrange, discontinuousLagrange, vectorLagrange, raviartThomas, nedelec]

def toJson (f : Family) : Json := .string f.tag

def ofJson? : Decoder Family := Decoder.oneOf all tag

end Family

namespace Dof

def toJson (d : Dof) : Json :=
  .object [("mapping", d.mapping.toJson), ("reference_offset", .natural d.referenceOffset),
    ("physical_offset", .natural d.physicalOffset), ("num_components", .natural d.components)]

def ofJson? : Decoder Dof := Decoder.record do
  let mapping ← FieldReader.required "mapping" Mapping.ofJson?
  let referenceOffset ← FieldReader.required "reference_offset" Decoder.word
  let physicalOffset ← FieldReader.required "physical_offset" Decoder.word
  let components ← FieldReader.required "num_components" Decoder.word
  return ⟨mapping, referenceOffset, physicalOffset, components⟩

end Dof

namespace Element

def toJson (e : Element) : Json :=
  .object [("family", e.family.toJson), ("cell", e.cell.toJson), ("degree", .natural e.degree),
    ("value_shape", .naturals e.valueShape), ("reference_value_shape", .naturals e.referenceShape),
    ("mapping", e.mapping.toJson), ("dofs", .array (e.dofs.map Dof.toJson))]

def ofJson? : Decoder Element := Decoder.record do
  let family ← FieldReader.required "family" Family.ofJson?
  let cell ← FieldReader.required "cell" Shape.ofJson?
  let degree ← FieldReader.required "degree" Decoder.word
  let valueShape ← FieldReader.required "value_shape" (Decoder.list Decoder.word)
  let referenceShape ← FieldReader.required "reference_value_shape" (Decoder.list Decoder.word)
  let mapping ← FieldReader.required "mapping" Mapping.ofJson?
  let dofs ← FieldReader.required "dofs" (Decoder.list Dof.ofJson?)
  return ⟨family, cell, degree, valueShape, referenceShape, mapping, dofs⟩

end Element

namespace Factor

def toJson (f : Factor) : Json :=
  .object [("argument", .natural f.argument), ("component", .natural f.component),
    ("derivatives", .naturals f.derivatives), ("restriction", .ofOption Side.toJson f.side)]

def ofJson? : Decoder Factor := Decoder.record do
  let argument ← FieldReader.required "argument" Decoder.word
  let component ← FieldReader.defaulted "component" Decoder.word 0
  let derivatives ← FieldReader.defaulted "derivatives" (Decoder.list Decoder.word) []
  let side ← FieldReader.optional "restriction" Side.ofJson?
  return ⟨argument, component, derivatives, side⟩

end Factor

namespace Monomial

def toJson (m : Monomial Float) : Json :=
  .object [("integral", m.integral.toJson), ("domain", .natural m.domain),
    ("coefficient", .ofFloat m.coefficient),
    ("quadrature_degree", .ofOption .natural m.quadratureDegree),
    ("factors", .array (m.factors.map Factor.toJson))]

def ofJson? : Decoder (Monomial Float) := Decoder.record do
  let integral ← FieldReader.required "integral" Integral.ofJson?
  let domain ← FieldReader.defaulted "domain" Decoder.word 0
  let coefficient ← FieldReader.defaulted "coefficient" Decoder.number 1.0
  let degree ← FieldReader.optional "quadrature_degree" Decoder.word
  let factors ← FieldReader.required "factors" (Decoder.list Factor.ofJson?)
  return ⟨integral, domain, coefficient, degree, factors⟩

end Monomial

namespace Form

def toJson (f : Form Float) : Json :=
  .object [("name", .string f.name), ("cell", f.cell.toJson),
    ("geometric_dimension", .natural f.geometricDimension),
    ("arguments", .array (f.arguments.map Element.toJson)),
    ("monomials", .array (f.monomials.map Monomial.toJson))]

def ofJson? : Decoder (Form Float) := Decoder.record do
  let name ← FieldReader.required "name" Decoder.text
  let cell ← FieldReader.required "cell" Shape.ofJson?
  let dimension ← FieldReader.required "geometric_dimension" Decoder.word
  let arguments ← FieldReader.required "arguments" (Decoder.list Element.ofJson?)
  let monomials ← FieldReader.required "monomials" (Decoder.list Monomial.ofJson?)
  return ⟨name, cell, dimension, arguments, monomials⟩

end Form
end WeakForm
