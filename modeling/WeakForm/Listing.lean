import WeakForm.Cpp

/-!
# Listings

Lines of generated code with their indentation. A listing grows at its end and
keeps the indentation for the next line. Blank lines have none, and asking for a
blank line behind a blank line does nothing.

Geometry code declares more than a routine reads. `prune` walks a listing from
its end and drops declarations nobody reads further down, together with comments
and blank lines that are left without a line below them.

## Main definitions

* `Listing.push`, `Listing.blank`, `Listing.append`: Ways to grow.
* `Listing.prune`: Drops unread declarations.
-/

namespace WeakForm

/-- A line and its indentation. -/
structure Line where
  level : Nat
  text : String
  deriving DecidableEq, Repr

/-- Lines of code, and the indentation of the next one. -/
structure Listing where
  lines : Array Line := #[]
  level : Nat := 0
  deriving Repr

namespace Listing

def empty : Listing := {}

def isEmpty (l : Listing) : Bool := l.lines.isEmpty

/-- Appends the lines of a statement, each with the current indentation. -/
def push (l : Listing) (statement : String) : Listing :=
  { l with lines := l.lines ++ ((Text.lines statement).map (Line.mk l.level)).toArray }

/-- Appends a blank line unless the last line is blank. -/
def blank (l : Listing) : Listing :=
  match l.lines.back? with
  | some line => if line.text.isEmpty then l else { l with lines := l.lines.push ⟨0, ""⟩ }
  | none => { l with lines := l.lines.push ⟨0, ""⟩ }

def indent (l : Listing) : Listing := { l with level := l.level + 1 }

/-- Takes one indentation back; there must be one. -/
def dedent (l : Listing) : Checked Listing :=
  if l.level = 0 then .error .unmet else .ok { l with level := l.level - 1 }

/-- A line moved in by a number of indentations. Blank lines stay at the margin. -/
def moved (level : Nat) (line : Line) : Line :=
  if line.text.isEmpty then ⟨0, line.text⟩ else ⟨line.level + level, line.text⟩

/-- Appends the lines of another listing below the current indentation. -/
def append (l other : Listing) : Listing :=
  { l with lines := l.lines ++ other.lines.map (moved l.level) }

/-- Appends the lines of another listing, one indentation further in. -/
def nest (l other : Listing) : Listing :=
  { l with lines := l.lines ++ other.lines.map (moved (l.level + 1)) }

def words (l : Listing) : List String := l.lines.toList.flatMap fun line => Text.words line.text

/-- Whether a line is dropped, given the words read below it and the next line that is kept. -/
def isUnused (used : List String) (next : Option Line) (line : String) : Bool :=
  match Cpp.declaredName? line with
  | some name => !used.contains name
  | none => next.all (·.text.isEmpty) && (line.isEmpty || Cpp.isComment line)

/-- The lines kept of a list that starts with the last line, in front of those kept already. -/
def keep : List Line → List String → List Line → List Line
  | [], _, kept => kept
  | line :: above, used, kept =>
    if isUnused used kept.head? line.text then keep above used kept
    else keep above (Text.words line.text ++ used) (line :: kept)

/-- Drops declarations whose name is read neither by a later line nor by the readers, comments
    and blank lines without a line below them, and blank lines at the start. -/
def prune (l readers : Listing) : Listing :=
  let kept := keep l.lines.toList.reverse readers.words []
  { l with lines := (kept.dropWhile (·.text.isEmpty)).toArray }

def lineText (line : Line) : String :=
  if line.text.isEmpty then "\n"
  else String.ofList (List.replicate (4 * line.level) ' ') ++ line.text ++ "\n"

/-- The text of a listing, every line ended. -/
def text (l : Listing) : String := String.join (l.lines.toList.map lineText)

end Listing
end WeakForm
