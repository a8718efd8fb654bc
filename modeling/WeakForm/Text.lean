/-!
# Lines and words of a text

Generated code is looked at line by line and word by word. Lines end at a line
feed, which takes a carriage return in front of it along; a last line without
line feed counts, an empty one does not. Words are runs of letters, digits and
underscores.

## Main definitions

* `Text.isBlank`: Blank characters.
-/

namespace WeakForm
namespace Text

/-- Ends a line that was read in reverse, at a line feed. -/
def endLine (reversed : List Char) : String :=
  match reversed with
  | '\r' :: cs => String.ofList cs.reverse
  | cs => String.ofList cs.reverse

/-- The lines of the remaining characters; the current line is kept in reverse. -/
def linesLoop : List Char → List Char → List String
  | [], [] => []
  | current, [] => [String.ofList current.reverse]
  | current, '\n' :: cs => endLine current :: linesLoop [] cs
  | current, c :: cs => linesLoop (c :: current) cs

def lines (s : String) : List String := linesLoop [] s.toList

def isWordChar (c : Char) : Bool := c.isAlphanum || c == '_'

/-- The words of the remaining characters; the current word is kept in reverse. -/
def wordsLoop : List Char → List Char → List String
  | current, [] => if current.isEmpty then [] else [String.ofList current.reverse]
  | current, c :: cs =>
    if isWordChar c then wordsLoop (c :: current) cs
    else if current.isEmpty then wordsLoop [] cs
    else String.ofList current.reverse :: wordsLoop [] cs

def words (s : String) : List String := wordsLoop [] s.toList

/-- The characters with the property of being white space. -/
def isBlank (c : Char) : Bool :=
  let n := c.toNat
  (9 ≤ n && n ≤ 13) || n == 0x20 || n == 0x85 || n == 0xA0 || n == 0x1680 ||
    (0x2000 ≤ n && n ≤ 0x200A) || n == 0x2028 || n == 0x2029 || n == 0x202F || n == 0x205F ||
    n == 0x3000

/-- What follows a given beginning. -/
def behind? : List Char → List Char → Option (List Char)
  | [], cs => some cs
  | p :: ps, c :: cs => if p = c then behind? ps cs else none
  | _ :: _, [] => none

/-- The parts in front of and behind the first occurrence of a separator. -/
def cut? (separator : List Char) : List Char → Option (List Char × List Char)
  | [] => if separator.isEmpty then some ([], []) else none
  | c :: cs =>
    match behind? separator (c :: cs) with
    | some rest => some ([], rest)
    | none => (cut? separator cs).map fun (front, rest) => (c :: front, rest)

end Text
end WeakForm
