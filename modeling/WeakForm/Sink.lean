import WeakForm.Compiler
import WeakForm.Latex

/-!
# Writing results

Code and documents are written to a sink that may be full. Every piece is taken as a
whole or not at all. What went wrong is told by the piece that did not fit: a
routine, the line between two routines, or a document.

## Main definitions

* `Sink`: A text that can be limited in size.
* `CompiledForm.write`: Writes the routines of a form.
-/

namespace WeakForm

/-- A text, and the number of bytes it may grow to. -/
structure Sink where
  limit : Option Nat
  written : String := ""
  deriving Repr

/-- The piece that did not fit. -/
inductive WriteError where
  | routine (name : String)
  | separator
  | document (name : String)
  deriving DecidableEq, Repr

namespace WriteError

def message : WriteError → String
  | routine name => s!"failed to write routine {name}"
  | separator => "disk full"
  | document name => s!"failed to write LaTeX document for form {name}"

end WriteError

namespace Sink

/-- Takes a piece as a whole, if it fits. -/
def write (s : Sink) (error : WriteError) (piece : String) : Except WriteError Sink :=
  let written := s.written ++ piece
  if s.limit.all (written.utf8ByteSize ≤ ·) then .ok { s with written := written }
  else .error error

end Sink

namespace CompiledForm

/-- Writes the routines of a form, with an empty line between two. -/
def write (c : CompiledForm) (sink : Sink) : Except WriteError Sink :=
  c.integrals.zipIdx.foldlM (fun sink (i, number) => do
    let sink ← if number = 0 then pure sink else sink.write .separator "\n"
    sink.write (.routine i.name) i.code) sink

end CompiledForm

def writeDocument (name : String) (tensors : List (String × ElementTensor Float)) (sink : Sink) :
    Except WriteError Sink :=
  sink.write (.document name) (Latex.document name tensors)

end WeakForm
