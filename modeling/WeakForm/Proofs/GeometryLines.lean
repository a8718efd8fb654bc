import WeakForm.Proofs.Scope

/-!
# Lines of geometry code

Geometry code is written from steps, and what its lines declare and read can be told
from the steps: a definition declares its scalar and reads the names in its formula,
and so on. `Step.interface` lists this line by line, and `Step.described_of_isLegible` is
the fact that the text agrees with it. Questions about generated lines become questions
about short lists of names this way, which can be answered by computation.

The text of a step is only as good as the names in it: a name with a line feed or a
quote in it would tear a line apart. `Step.isLegible` excludes these, and `Step.NoteIsLine`
such notes.

## Main definitions

* `Step.isLegible`: Steps that are written without ambiguity.

## Theorems

* `Text.lines_join`: Cutting a text into lines undoes joining them.
* `Step.described_of_isLegible`: The lines of a step declare and read the names of its
  interface.
* `scoped_of_inScope`: Lines are in scope if their interfaces are.
-/

namespace WeakForm

open List Cpp Side

namespace Text

/-- A text without the characters that end a line. -/
def isLine (s : String) : Bool := s.toList.all fun c => c != '\n' && c != '\r'

theorem isLine_ofList (cs : List Char) (h : cs.all (fun c => c != '\n' && c != '\r') = true) :
    isLine (String.ofList cs) = true := by
  rwa [isLine, String.toList_ofList]

theorem isLine_append (s t : String) : isLine (s ++ t) = (isLine s && isLine t) := by
  rw [isLine, String.toList_append, List.all_append]
  rfl

variable {s : String}

theorem isLine_of_all (h : s.toList.all isWordChar = true) : isLine s = true := by
  refine all_eq_true.2 fun c hc => ?_
  have hword := all_eq_true.1 h c hc
  rw [Bool.and_eq_true, bne_iff_ne, bne_iff_ne]
  constructor
  · rintro rfl
    cases hword
  · rintro rfl
    cases hword

theorem isLine_of_oneWord (h : oneWord s = true) : isLine s = true :=
  isLine_of_all (Bool.and_eq_true_iff.1 h).2

theorem isLine_toString (n : Nat) : isLine (toString n) = true :=
  isLine_of_all (all_isWordChar_toString n)

theorem linesLoop_append {cs : List Char} (h : '\n' ∉ cs) (current rest : List Char) :
    linesLoop current (cs ++ '\n' :: rest) =
      endLine (cs.reverse ++ current) :: linesLoop [] rest := by
  induction cs generalizing current with
  | nil => rw [nil_append, linesLoop, reverse_nil, nil_append]
  | cons c cs ih =>
    rw [mem_cons, not_or] at h
    rw [cons_append, linesLoop, ih h.2, reverse_cons, append_assoc, singleton_append]
    exact fun hc => h.1 hc.symm

theorem endLine_reverse (h : isLine s = true) : endLine s.toList.reverse = s := by
  unfold endLine
  split
  · next cs hcs =>
    -- A line without carriage return has none at its end.
    have hmem : '\r' ∈ s.toList := mem_reverse.1 (hcs ▸ mem_cons_self)
    have hline := all_eq_true.1 h '\r' hmem
    cases hline
  · rw [reverse_reverse, String.ofList_toList]

theorem feed_notMem (h : isLine s = true) : '\n' ∉ s.toList :=
  fun hmem => absurd (all_eq_true.1 h '\n' hmem) (by decide)

theorem lines_join {ls : List String} (h : ∀ s ∈ ls, isLine s = true) :
    lines (String.join (ls.map (· ++ "\n"))) = ls := by
  rw [lines, String.toList_join, flatMap_map]
  induction ls with
  | nil => rfl
  | cons s ls ih =>
    have hs := h s mem_cons_self
    rw [flatMap_cons, String.toList_append, append_assoc]
    refine (linesLoop_append (feed_notMem hs) [] (ls.flatMap fun s => (s ++ "\n").toList)).trans ?_
    rw [append_nil, endLine_reverse hs, ih fun t ht => h t (mem_cons_of_mem s ht)]

end Text

namespace Cpp

open Text

theorem behind?_append (front cs : List Char) : behind? front (front ++ cs) = some cs := by
  induction front with
  | nil => rfl
  | cons c front ih => rw [cons_append, behind?, if_pos rfl, ih]

theorem cut?_append {name rest : List Char} (h : ∀ c ∈ name, isWordChar c = true) :
    cut? " = ".toList (name ++ (" = ".toList ++ rest)) = some (name, rest) := by
  induction name with
  | nil => rfl
  | cons c name ih =>
    have hc := h c mem_cons_self
    have hbehind : behind? " = ".toList (c :: (name ++ (" = ".toList ++ rest))) = none := by
      have hblank : ' ' ≠ c := by
        rintro rfl
        cases hc
      change (if ' ' = c then _ else none) = none
      rw [if_neg hblank]
    rw [cons_append, cut?, hbehind, ih fun c' hc' => h c' (mem_cons_of_mem c hc')]
    rfl

theorem isComment_eq_false {line : String} {c : Char} {cs : List Char} (h : line.toList = c :: cs)
    (hblank : isBlank c = false) (hslash : '/' ≠ c) : isComment line = false := by
  rw [isComment, h, dropWhile_cons_of_neg (by rw [hblank]; exact Bool.false_ne_true), behind?,
    if_neg hslash]
  rfl

/-- The words of types in front of a declared name. The first two are those of scalars. -/
def declarationFronts : List String :=
  ["const double ", "double ", "const double * const * ", "const int ", "const unsigned int ",
    "static const unsigned int "]

section

variable {front name rest : String} (hfront : front ∈ declarationFronts)

theorem words_front (h : front ∈ declarationFronts) :
    closes front = true ∧ Text.words front ≠ [] ∧ ∀ w ∈ Text.words front, w ∈ typeWords := by
  have hall : ∀ front ∈ declarationFronts,
      closes front = true ∧ Text.words front ≠ [] ∧ ∀ w ∈ Text.words front, w ∈ typeWords := by
    decide
  exact hall front h

theorem notMem_typeWords (h : isIdentifier name = true) : name ∉ typeWords := by
  intro hmem
  have hkeyword : keywords.contains name = true := contains_iff_mem.2 (mem_append_left _ hmem)
  rw [isIdentifier, hkeyword, Bool.not_true, Bool.and_false] at h
  cases h

theorem isComment_declaration (h : front ∈ declarationFronts) (rest : String) :
    isComment (front ++ rest) = false := by
  have hall : ∀ front ∈ declarationFronts,
      front.toList.head?.any (fun c => !isBlank c && c != '/') = true := by decide
  rcases (Option.any_eq_true _ _).1 (hall front h) with ⟨c, hc, hfirst⟩
  rw [Bool.and_eq_true, Bool.not_eq_true', bne_iff_ne] at hfirst
  rcases head?_eq_some_iff.1 hc with ⟨cs, hcs⟩
  have hlist : (front ++ rest).toList = c :: (cs ++ rest.toList) := by
    rw [String.toList_append, hcs, cons_append]
  exact isComment_eq_false hlist hfirst.1 hfirst.2.symm

include hfront

theorem words_declaration (hname : oneWord name = true) (hrest : opens rest = true) :
    Text.words (front ++ name ++ rest) = Text.words front ++ name :: Text.words rest := by
  rw [words_append_of_opens hrest, words_append_of_closes (words_front hfront).1,
    words_of_oneWord hname, append_assoc, singleton_append]

theorem declares_declaration (hname : oneWord name = true) (hidentifier : isIdentifier name = true)
    (hrest : opens rest = true) (hscalar : declaredName? (front ++ name ++ rest) = none) :
    declares (front ++ name ++ rest) = some name := by
  rcases words_front hfront with ⟨_, hne, htypes⟩
  have hcomment := isComment_declaration hfront (name ++ rest)
  rw [← String.append_assoc] at hcomment
  have htype : typeWords.contains name = false :=
    Bool.eq_false_iff.2 fun hmem => notMem_typeWords hidentifier (contains_iff_mem.1 hmem)
  -- All words up to the name are passed over.
  rcases exists_cons_of_ne_nil hne with ⟨w, ws, hws⟩
  rw [hws] at htypes
  have hfind : (ws ++ name :: Text.words rest).find? (fun w => !typeWords.contains w) = some name := by
    rw [find?_eq_some_iff_append, htype]
    refine ⟨rfl, ws, Text.words rest, rfl, fun w' hw' => ?_⟩
    rw [Bool.not_not]
    exact contains_iff_mem.2 (htypes w' (mem_cons_of_mem w hw'))
  rw [declares, hscalar, Option.none_or, hcomment, words_declaration hfront hname hrest, hws,
    cons_append]
  simp only [contains_iff_mem.2 (htypes w mem_cons_self), if_true, hfind, Bool.false_eq_true,
    if_false]

theorem reads_declaration (hname : oneWord name = true) (hidentifier : isIdentifier name = true)
    (hrest : opens rest = true) (hdeclares : declares (front ++ name ++ rest) = some name)
    {x : String} (hx : x ∈ reads (front ++ name ++ rest)) :
    x ∈ Text.words rest ∧ isIdentifier x = true := by
  have hcomment := isComment_declaration hfront (name ++ rest)
  rw [← String.append_assoc] at hcomment
  -- There are no quotes up to the name.
  have hquote : '"' ∉ (front ++ name).toList := by
    have hall : ∀ front ∈ declarationFronts, '"' ∉ front.toList := by decide
    rw [oneWord, Bool.and_eq_true, all_eq_true] at hname
    rw [String.toList_append, mem_append]
    rintro (hmem | hmem)
    · exact hall front hfront hmem
    · exact absurd (hname.2 _ hmem) (by decide)
  have hunquoted : String.ofList (unquoted false (front ++ name ++ rest).toList) =
      front ++ name ++ String.ofList (unquoted false rest.toList) := by
    rw [String.toList_append, unquoted_append hquote, String.ofList_append, String.ofList_toList]
  have hopens : opens (String.ofList (unquoted false rest.toList)) = true := by
    rw [opens] at hrest ⊢
    rw [String.toList_ofList]
    cases hlist : rest.toList with
    | nil => rfl
    | cons c cs =>
      rw [hlist] at hrest
      rw [unquoted]
      split
      · exact hrest
      · exact hrest
  -- Of the words up to the name only the name itself is an identifier, and it is left out.
  have hfilter : (Text.words front).filter isIdentifier = [] :=
    filter_eq_nil_iff.2 fun w hw hw' => notMem_typeWords hw' ((words_front hfront).2.2 w hw)
  rw [reads, if_neg (by rw [hcomment]; exact Bool.false_ne_true), hunquoted, hdeclares,
    words_declaration hfront hname hopens, filter_append, hfilter, nil_append,
    filter_cons_of_pos hidentifier] at hx
  simp only [erase_cons_head] at hx
  rcases mem_filter.1 hx with ⟨hx, hidentifier⟩
  rw [Text.words, String.toList_ofList] at hx
  exact ⟨(mem_words_of_unquoted _ []).1 hx, hidentifier⟩

omit hfront in
theorem declaredName?_definition (hfront : front = "const double " ∨ front = "double ")
    (hname : oneWord name = true) :
    declaredName? (front ++ name ++ (" = " ++ rest ++ ";")) = some name := by
  rw [oneWord, Bool.and_eq_true, all_eq_true] at hname
  have hlist : (front ++ name ++ (" = " ++ rest ++ ";")).toList =
      front.toList ++ (name.toList ++ (" = ".toList ++ (rest.toList ++ [';']))) := by
    simp only [String.toList_append, append_assoc]
    rfl
  have hbehind : (behind? "const double ".toList (front ++ name ++ (" = " ++ rest ++ ";")).toList).or
      (behind? "double ".toList (front ++ name ++ (" = " ++ rest ++ ";")).toList) =
        some (name.toList ++ (" = ".toList ++ (rest.toList ++ [';']))) := by
    rw [hlist]
    rcases hfront with rfl | rfl
    · exact congrArg (Option.or · _) (behind?_append "const double ".toList _)
    · exact behind?_append "double ".toList _
  have hlast : (front ++ name ++ (" = " ++ rest ++ ";")).toList.getLast? = some ';' := by
    rw [hlist]
    simp only [← append_assoc]
    exact getLast?_concat
  unfold declaredName?
  simp only [hbehind, cut?_append hname.2, hlast, hname.1, all_eq_true.2 hname.2,
    String.ofList_toList, beq_self_eq_true, Bool.and_self, if_true]

end
end Cpp

section

open Text

namespace VertexRef

def names : VertexRef → List String
  | fixed _ => []
  | named variableName => [variableName]

def isLegible : VertexRef → Bool
  | fixed _ => true
  | named variableName => oneWord variableName

theorem oneWord_text {v : VertexRef} (h : v.isLegible = true) : oneWord v.text = true := by
  cases v with
  | fixed number => exact oneWord_toString number
  | named variableName => exact h

end VertexRef

theorem isIdentifier_toString (n : Nat) : isIdentifier (toString n) = false := by
  have hdigit : (toString n).toList.head?.any Char.isDigit = true := by
    rw [Nat.toString_eq_repr, Nat.toList_repr]
    exact startsWithDigit_toDigits n
  rw [isIdentifier, hdigit]
  rfl

namespace Quantity

def names : Quantity → List String
  | scalar name => [name]
  | coordinate side vertex _ => ("x" ++ Side.suffix side) :: vertex.names
  | point _ => ["ip_points", "ip"]

def isLegible : Quantity → Bool
  | scalar name => oneWord name
  | coordinate _ vertex _ => vertex.isLegible
  | point _ => true

theorem oneWord_coordinates (side : Option Side) : oneWord ("x" ++ suffix side) = true := by
  rcases side with _ | _ | _ <;> decide

theorem words_text {q : Quantity} (h : q.isLegible = true) {x : String} (hx : x ∈ words q.text)
    (hidentifier : isIdentifier x = true) : x ∈ q.names := by
  have hnumber : ∀ n : Nat, x ≠ toString n := by
    intro n hn
    rw [hn, isIdentifier_toString] at hidentifier
    cases hidentifier
  cases q with
  | scalar name =>
    have hname : words (scalar name).text = [name] := words_of_oneWord h
    rwa [hname] at hx
  | coordinate side vertex axis =>
    have htext : words (coordinate side vertex axis).text =
        ["x" ++ suffix side, vertex.text, toString axis] := by
      change words ("x" ++ suffix side ++ "[" ++ vertex.text ++ "][" ++ toString axis ++ "]") = _
      rw [words_append_of_opens (by decide), Expr.words_between "][" (by decide),
        Expr.words_between "[" (by decide), words_of_oneWord (oneWord_coordinates side),
        words_of_oneWord (VertexRef.oneWord_text h), words_of_oneWord (oneWord_toString axis)]
      rfl
    rw [htext] at hx
    simp only [mem_cons, not_mem_nil, or_false] at hx
    rcases hx with rfl | hx | hx
    · exact mem_cons_self
    · cases vertex with
      | fixed number => exact absurd hx (hnumber number)
      | named variableName => exact mem_cons_of_mem _ (mem_singleton.2 hx)
    · exact absurd hx (hnumber axis)
  | point axis =>
    have htext : words (point axis).text = ["ip_points", "ip", toString axis] := by
      change words ("ip_points[ip][" ++ toString axis ++ "]") = _
      rw [words_append_of_opens (by decide), words_append_of_closes (by decide),
        words_of_oneWord (oneWord_toString axis)]
      rfl
    rw [htext] at hx
    simp only [mem_cons, not_mem_nil, or_false] at hx
    rcases hx with rfl | rfl | hx
    · exact mem_cons_self
    · exact mem_cons_of_mem _ mem_cons_self
    · exact absurd hx (hnumber axis)

theorem isLine_text {q : Quantity} (h : q.isLegible = true) : isLine q.text = true := by
  cases q with
  | scalar name => exact isLine_of_oneWord h
  | coordinate side vertex axis =>
    change isLine ("x" ++ suffix side ++ "[" ++ vertex.text ++ "][" ++ toString axis ++ "]") = _
    simp only [isLine_append, isLine_of_oneWord (VertexRef.oneWord_text h), isLine_toString]
    rw [← isLine_append, isLine_of_oneWord (oneWord_coordinates side)]
    decide
  | point axis =>
    change isLine ("ip_points[ip][" ++ toString axis ++ "]") = _
    rw [isLine_append, isLine_append, isLine_toString]
    decide

end Quantity

/-- A literal that is a number on one line. -/
def Fixed.isLegible (f : Fixed) : Bool :=
  isLine f.text && (words f.text).all fun w => !Cpp.isIdentifier w

theorem Layout.separates (layout : Layout) : layout.operators.Separates := by
  cases layout with
  | wide | aligned => exact ⟨rfl, fun _ _ => Expr.words_between " / " (by decide)⟩
  | tight => exact ⟨rfl, fun _ _ => Expr.words_between "/" (by decide)⟩

theorem Layout.isLine_quotient (layout : Layout) (a b : String) :
    isLine (layout.operators.quotient a b) = (isLine a && isLine b) := by
  cases layout with
  | wide | aligned =>
    change isLine (a ++ " / " ++ b) = _
    rw [isLine_append, isLine_append, show isLine " / " = true by decide, Bool.and_true]
  | tight =>
    change isLine (a ++ "/" ++ b) = _
    rw [isLine_append, isLine_append, show isLine "/" = true by decide, Bool.and_true]

namespace Term

def readNames (e : Term) : List String := e.names.flatMap Quantity.names

def isLegible (e : Term) : Bool := e.names.all Quantity.isLegible && e.literals.all Fixed.isLegible

theorem mem_readNames {layout : Layout} {e : Term} (h : isLegible e = true) {x : String}
    (hx : x ∈ words (text layout e)) (hidentifier : isIdentifier x = true) :
    x ∈ readNames e ∨ x ∈ standardNames := by
  rw [isLegible, Bool.and_eq_true, all_eq_true, all_eq_true] at h
  rw [text, Expr.words_text layout.separates] at hx
  have hfunctions : ∀ x ∈ Expr.functionWords, x ∈ standardNames := by decide
  refine Expr.forall_mem_words (P := fun x => isIdentifier x = true → _) (fun q hq x hx hname => ?_)
    (fun f hf x hx hname => ?_) (fun x hx _ => Or.inr (hfunctions x hx)) x hx hidentifier
  · exact Or.inl (mem_flatMap.2 ⟨q, hq, Quantity.words_text (h.1 q hq) hx hname⟩)
  · -- A literal has no names in it.
    have hnone := all_eq_true.1 (Bool.and_eq_true_iff.1 (h.2 f hf)).2 x hx
    rw [hname] at hnone
    cases hnone

theorem isLine_grouped (s : String) : isLine (grouped s) = isLine s := by
  rw [grouped, isLine_append, isLine_append, show isLine "(" = true by decide,
    show isLine ")" = true by decide, Bool.and_true, Bool.true_and]

theorem isLine_text (layout : Layout) {e : Term} (h : isLegible e = true) :
    isLine (text layout e) = true := by
  rw [isLegible, Bool.and_eq_true] at h
  rcases h with ⟨hnames, hliterals⟩
  have hplus : isLine " + " = true ∧ isLine " - " = true ∧ isLine "*" = true ∧
      isLine "-" = true ∧ isLine "std::sqrt" = true ∧ isLine "std::abs" = true := by decide
  have htimes : layout.operators.times = "*" := layout.separates.1
  unfold text
  induction e with
  | literal x =>
    exact (Bool.and_eq_true_iff.1 (all_eq_true.1 hliterals x mem_cons_self)).1
  | name n => exact Quantity.isLine_text (all_eq_true.1 hnames n mem_cons_self)
  | neg a ih => rw [Expr.text, isLine_append, ih hnames hliterals, hplus.2.2.2.1, Bool.and_self]
  | group a ih => rw [Expr.text, isLine_grouped, ih hnames hliterals]
  | sqrt a ih =>
    rw [Expr.text, isLine_append, isLine_grouped, ih hnames hliterals, hplus.2.2.2.2.1,
      Bool.and_self]
  | abs a ih =>
    rw [Expr.text, isLine_append, isLine_grouped, ih hnames hliterals, hplus.2.2.2.2.2,
      Bool.and_self]
  | add a b iha ihb | sub a b iha ihb | mul a b iha ihb | div a b iha ihb =>
    rw [Expr.names, List.all_append, Bool.and_eq_true] at hnames
    rw [Expr.literals, List.all_append, Bool.and_eq_true] at hliterals
    simp only [Expr.text, isLine_append, Layout.isLine_quotient, htimes, hplus, Bool.and_true,
      iha hnames.1 hliterals.1, ihb hnames.2 hliterals.2]

end Term

def Formula.terms : Formula → List Term
  | plain e => [e]
  | directed _ a b | turned _ a b | byFacet _ a b => [a, b]

theorem Formula.isLine_text (layout : Layout) {f : Formula}
    (h : f.terms.all Term.isLegible = true) : isLine (f.text layout) = true := by
  have hterms : ∀ e ∈ f.terms, isLine (Term.text layout e) = true :=
    fun e he => Term.isLine_text layout (all_eq_true.1 h e he)
  have hchoice : ∀ {test a b}, isLine test = true → a ∈ f.terms → b ∈ f.terms →
      isLine (choice test layout a b) = true := by
    intro test a b htest ha hb
    rw [choice, isLine_append, isLine_append, isLine_append, isLine_append, htest, hterms a ha,
      hterms b hb]
    decide
  cases f with
  | plain e => exact hterms e mem_cons_self
  | directed opposite a b =>
    exact hchoice (by cases opposite <;> decide) mem_cons_self (mem_cons_of_mem a mem_cons_self)
  | turned opposite a b =>
    rw [text, isLine_append, Term.isLine_grouped,
      hchoice (by decide) mem_cons_self (mem_cons_of_mem a mem_cons_self)]
    cases opposite <;> decide
  | byFacet side a b =>
    refine hchoice ?_ mem_cons_self (mem_cons_of_mem a mem_cons_self)
    rcases side with _ | _ | _ <;> decide

/-- The names that a line declares and reads. -/
structure Interface where
  declared : Option String
  read : List String

/-- A text is one line, declares the name of an interface, and reads its names and standard
    ones. -/
structure Interface.Describes (i : Interface) (line : String) : Prop where
  isLine : isLine line = true
  declares : Cpp.declares line = i.declared
  reads : ∀ x ∈ Cpp.reads line, x ∈ i.read ∨ x ∈ Cpp.standardNames

instance (i : Interface) (line : String) : Decidable (i.Describes line) :=
  decidable_of_iff (isLine line = true ∧ Cpp.declares line = i.declared ∧
      ∀ x ∈ Cpp.reads line, x ∈ i.read ∨ x ∈ Cpp.standardNames)
    ⟨fun h => ⟨h.1, h.2.1, h.2.2⟩, fun h => ⟨h.isLine, h.declares, h.reads⟩⟩

theorem mem_sides (side : Option Side) : side ∈ [none, some plus, some minus] := by
  rcases side with _ | _ | _ <;> decide

namespace Step

variable (side : Option Side)

/-- The name of the variable that holds the orientation of a cell. -/
def markerName (side : Option Side) : String := "orientation_marker" ++ Side.suffix side

/-- The names that the lines of a step declare and read. Steps that routines do not have are
    described by their text. -/
def interface : Step → List Interface
  | note _ | gap => [⟨none, []⟩]
  | define _ name _ (.plain e) => [⟨some name, Term.readNames e⟩]
  | coordinates side =>
    [⟨some ("x" ++ Side.suffix side), ["c" ++ Side.suffix side, "coordinates"]⟩]
  | orientation side =>
    [⟨none, []⟩, ⟨some (markerName side), ["c" ++ Side.suffix side, "orientation"]⟩,
      ⟨none, [markerName side]⟩, ⟨none, []⟩, ⟨none, []⟩, ⟨none, [markerName side]⟩,
      ⟨none, [Cpp.symbol (.determinant side)]⟩]
  | vertexLists name _ => [⟨some name, []⟩]
  | facetVertex name lists side _ => [⟨some name, [lists, Cpp.facetVariable side]⟩]
  | step => step.lines.map fun line => ⟨Cpp.declares line, Cpp.reads line⟩

/-- A note is written in one line. -/
def NoteIsLine : Step → Prop
  | note text => isLine text = true
  | _ => True

/-- Whether the lines of a step other than a note are lines, and their names can be told from the
    step. -/
def isLegible : Step → Bool
  | define _ name _ f => oneWord name && Cpp.isIdentifier name && f.terms.all Term.isLegible
  | direction (.negative e) | pointEntry _ _ e => Term.isLegible e
  | vertexLists name rows => (vertexLists name rows).lines.all fun line =>
    decide (Interface.Describes ⟨some name, []⟩ line)
  | facetVertex name lists _ _ => oneWord name && Cpp.isIdentifier name && oneWord lists
  | note _ | gap | coordinates _ | orientation _ | direction (.ahead _) | pointArray _ _ => true

def Described (step : Step) : Prop :=
  List.Forall₂ (fun line i => i.Describes line) step.lines step.interface

theorem described_note {text : String} (h : isLine text = true) : (note text).Described := by
  have hcomment : isComment (comment text) = true := by
    simp [comment, isComment, String.toList_append, isBlank, behind?]
  refine Forall₂.cons ⟨?_, ?_, fun x hx => ?_⟩ Forall₂.nil
  · rw [comment, isLine_append, h]
    decide
  · rw [Cpp.declares, if_pos hcomment, Option.or_none]
    simp [comment, declaredName?, String.toList_append, behind?]
  · rw [reads, if_pos hcomment] at hx
    cases hx

theorem described_gap : gap.Described := Forall₂.cons (by decide) Forall₂.nil

theorem described_declaration {step : Step} {read : List String} (front name rest : String)
    (hlines : step.lines = [front ++ name ++ rest])
    (hinterface : step.interface = [⟨some name, read⟩])
    (hfront : front ∈ declarationFronts) (hname : oneWord name = true)
    (hidentifier : isIdentifier name = true) (hopens : opens rest = true)
    (hline : isLine rest = true) (hdeclares : Cpp.declares (front ++ name ++ rest) = some name)
    (hread : ∀ x ∈ words rest, isIdentifier x = true → x ∈ read ∨ x ∈ standardNames) :
    step.Described := by
  have hfrontLine : ∀ front ∈ declarationFronts, isLine front = true := by decide
  rw [Described, hlines, hinterface]
  refine Forall₂.cons ⟨?_, hdeclares, fun x hx => ?_⟩ Forall₂.nil
  · rw [isLine_append, isLine_append, hfrontLine front hfront, isLine_of_oneWord hname, hline]
    rfl
  · rcases reads_declaration hfront hname hidentifier hopens hdeclares hx with ⟨hwords, hx⟩
    exact hread x hwords hx

theorem described_define {isConstant : Bool} {name : String} {layout : Layout} {e : Term}
    (hname : oneWord name = true) (hidentifier : isIdentifier name = true)
    (he : Term.isLegible e = true) : (define isConstant name layout (.plain e)).Described := by
  -- The line is a definition whose right side is the formula behind some padding.
  rcases (⟨_, by split <;> simp, rfl⟩ : ∃ front, (front = "const double " ∨ front = "double ") ∧
    (if isConstant then "const double " else "double ") = front) with ⟨front, hfront, hfrontEq⟩
  rcases (⟨_, by split <;> simp, rfl⟩ : ∃ pad ∈ [" ", ""],
    (if layout = .aligned then " " else "") = pad) with ⟨pad, hpad, hpadEq⟩
  have hpadding : ∀ pad ∈ [" ", ""], isLine pad = true ∧ closes pad = true ∧ words pad = [] := by
    decide
  rcases hpadding pad hpad with ⟨hpadLine, hpadCloses, hpadWords⟩
  have hends : isLine " = " = true ∧ isLine ";" = true ∧ words " = " = [] ∧ words ";" = [] := by
    decide
  refine described_declaration front name (" = " ++ (pad ++ Term.text layout e) ++ ";")
    ?_ rfl ?_ hname hidentifier ?_ ?_ ?_ fun x hx hx' => ?_
  · rw [lines, hfrontEq, hpadEq, Formula.text]
    simp only [String.append_assoc]
  · rcases hfront with rfl | rfl
    · decide
    · decide
  · rw [String.append_assoc, opens_append (by decide)]
    decide
  · simp only [isLine_append, hpadLine, Term.isLine_text layout he, hends, Bool.and_self]
  · exact declares_of_declaredName? (declaredName?_definition hfront hname)
  · rw [words_append_of_opens (by decide), words_append_of_closes (by decide),
      words_append_of_closes hpadCloses, hpadWords, hends.2.2.1, hends.2.2.2, append_nil,
      nil_append, nil_append] at hx
    exact Term.mem_readNames he hx hx'

theorem described_coordinates : (coordinates side).Described := by
  have hrest : let rest := " = c" ++ suffix side ++ ".coordinates;"
      opens rest = true ∧ isLine rest = true ∧
        isIdentifier ("x" ++ suffix side) = true ∧
        words rest = ["c" ++ suffix side, "coordinates"] ∧
        declaredName? ("const double * const * " ++ ("x" ++ suffix side) ++ rest) = none := by
    rcases side with _ | _ | _ <;> decide +kernel
  rcases hrest with ⟨hopens, hline, hidentifier, hwords, hscalar⟩
  have hname := Quantity.oneWord_coordinates side
  refine described_declaration "const double * const * " ("x" ++ suffix side)
    (" = c" ++ suffix side ++ ".coordinates;") ?_ rfl (by decide) hname hidentifier
    hopens hline ?_ fun x hx _ => Or.inl (hwords ▸ hx)
  · simp only [lines, String.append_assoc]
    rfl
  · exact declares_declaration (by decide) hname hidentifier hopens hscalar

theorem described_facetVertex {name lists : String} (hname : oneWord name = true)
    (hidentifier : isIdentifier name = true) (hlists : oneWord lists = true) (place : Nat) :
    (facetVertex name lists side place).Described := by
  have hfacet : oneWord (facetVariable side) = true := by rcases side with _ | _ | _ <;> decide
  have hopens : opens (" = " ++ lists ++ "[" ++ facetVariable side ++ "][" ++ toString place ++
      "];") = true := by
    simp only [String.append_assoc]
    rw [opens_append (by decide)]
    decide
  have hwords : words (" = " ++ lists ++ "[" ++ facetVariable side ++ "][" ++ toString place ++
      "];") = [lists, facetVariable side, toString place] := by
    rw [words_append_of_opens (by decide), Expr.words_between "][" (by decide),
      Expr.words_between "[" (by decide), words_append_of_closes (by decide),
      words_of_oneWord hlists, words_of_oneWord hfacet, words_of_oneWord (oneWord_toString place)]
    rfl
  refine described_declaration "const unsigned int " name (" = " ++ lists ++ "[" ++
      facetVariable side ++ "][" ++ toString place ++ "];") ?_ rfl (by decide) hname hidentifier
    hopens ?_ ?_ fun x hx hx' => ?_
  · simp only [lines, String.append_assoc]
    rfl
  · simp only [isLine_append, isLine_of_oneWord hlists, isLine_of_oneWord hfacet, isLine_toString]
    decide
  · refine declares_declaration (by decide) hname hidentifier hopens ?_
    simp [declaredName?, String.toList_append, behind?]
  · rw [hwords] at hx
    simp only [mem_cons, not_mem_nil, or_false] at hx
    rcases hx with rfl | rfl | rfl
    · exact Or.inl mem_cons_self
    · exact Or.inl (mem_cons_of_mem _ mem_cons_self)
    · rw [isIdentifier_toString] at hx'
      cases hx'

theorem described_orientation : (orientation side).Described := by
  have hcomments : ∀ text ∈ ["Extract orientation",
      "(If orientation_marker == 1 = down, multiply detJ by -1)"],
      Interface.Describes ⟨none, []⟩ (comment text) := by decide +kernel
  have hraise : Interface.Describes ⟨none, []⟩
      ("  " ++ raise "cell orientation must be defined (not 0)") := by decide +kernel
  have hlines : let r := suffix side
      Interface.Describes ⟨some (markerName side), ["c" ++ r, "orientation"]⟩
        s!"const int orientation_marker{r} = c{r}.orientation;" ∧
      Interface.Describes ⟨none, [markerName side]⟩ s!"if (orientation_marker{r} == 0)" ∧
      Interface.Describes ⟨none, [markerName side]⟩ s!"else if (orientation_marker{r} == 1)" ∧
      Interface.Describes ⟨none, [symbol (.determinant side)]⟩ s!"  detJ{r} *= -1;" := by
    rcases side with _ | _ | _ <;> decide +kernel
  rcases hlines with ⟨hmarker, hzero, hone, hflip⟩
  exact .cons (hcomments _ mem_cons_self) (.cons hmarker (.cons hzero (.cons hraise
    (.cons (hcomments _ (mem_cons_of_mem _ mem_cons_self)) (.cons hone
      (.cons hflip .nil))))))

theorem isLine_define {isConstant : Bool} {name : String} {layout : Layout} {f : Formula}
    (hname : oneWord name = true) (hf : f.terms.all Term.isLegible = true) :
    (define isConstant name layout f).lines.all isLine = true := by
  have hends : isLine "const double " = true ∧ isLine "double " = true ∧ isLine " = " = true ∧
      isLine " " = true ∧ isLine "" = true ∧ isLine ";" = true := by decide
  simp only [lines, all_cons, all_nil, isLine_append, isLine_of_oneWord hname,
    Formula.isLine_text layout hf, Bool.and_true, hends]
  split <;> split <;> decide

theorem described_of_isLegible {step : Step} (h : step.isLegible = true)
    (hnote : step.NoteIsLine) : step.Described := by
  have htext : ∀ ls : List String, ls.all isLine = true →
      Forall₂ (fun line i => Interface.Describes i line) ls
        (ls.map fun line => ⟨Cpp.declares line, reads line⟩) := by
    intro ls hls
    refine forall₂_map_right_iff.2 (forall₂_same.2 fun line hline => ?_)
    exact ⟨all_eq_true.1 hls line hline, rfl, fun x hx => Or.inl hx⟩
  cases step with
  | note text => exact described_note hnote
  | gap => exact described_gap
  | define isConstant name layout value =>
    rw [isLegible, Bool.and_eq_true, Bool.and_eq_true] at h
    rcases h with ⟨⟨hname, hidentifier⟩, hterms⟩
    cases value with
    | plain e => exact described_define hname hidentifier (all_eq_true.1 hterms e mem_cons_self)
    | directed _ _ _ | turned _ _ _ | byFacet _ _ _ => exact htext _ (isLine_define hname hterms)
  | coordinates side => exact described_coordinates side
  | orientation side => exact described_orientation side
  | vertexLists name rows =>
    exact .cons (of_decide_eq_true (all_eq_true.1 h _ mem_cons_self)) .nil
  | facetVertex name lists side place =>
    rw [isLegible, Bool.and_eq_true, Bool.and_eq_true] at h
    exact described_facetVertex side h.1.1 h.1.2 h.2 place
  | direction test =>
    refine htext _ ?_
    cases test with
    | negative e =>
      simp only [lines, Test.text, all_cons, all_nil, isLine_append, Term.isLine_text .wide h]
      decide
    | ahead side => rcases side with _ | _ | _ <;> decide +kernel
  | pointArray side gdim =>
    refine htext _ ?_
    change (isLine ("double X" ++ suffix side ++ "[" ++ toString gdim ++ "];") && true) = true
    simp only [isLine_append, isLine_toString]
    rcases side with _ | _ | _ <;> decide
  | pointEntry side axis e =>
    refine htext _ ?_
    change (isLine ("X" ++ suffix side ++ "[" ++ toString axis ++ "] = " ++ Term.text .wide e ++
      ";") && true) = true
    simp only [isLine_append, isLine_toString, Term.isLine_text .wide h]
    rcases side with _ | _ | _ <;> decide

end Step
end

/-- Every line reads names that are known, or that lines above it declare. -/
def inScope (known : List String) : List Interface → Bool
  | [] => true
  | i :: below =>
    i.read.all known.contains && inScope (i.declared.toList ++ known) below

variable {interfaces : List Interface} {known lines : List String}

theorem inScope_mono {known' : List String} (h : inScope known interfaces = true)
    (hknown : ∀ x ∈ known, x ∈ known') : inScope known' interfaces = true := by
  induction interfaces generalizing known known' with
  | nil => rfl
  | cons i below ih =>
    rw [inScope, Bool.and_eq_true, all_eq_true] at h ⊢
    refine ⟨fun x hx => ?_, ih h.2 fun x hx => ?_⟩
    · exact contains_iff_mem.2 (hknown x (contains_iff_mem.1 (h.1 x hx)))
    · exact mem_append.2 ((mem_append.1 hx).imp id (hknown x))

def declaredNames (interfaces : List Interface) : List String :=
  interfaces.filterMap Interface.declared

theorem scoped_of_inScope
    (hlines : Forall₂ (fun line i => Interface.Describes i line) lines interfaces)
    (hstandard : ∀ x ∈ standardNames, x ∈ known) (h : inScope known interfaces = true) :
    Scoped known lines := by
  induction hlines generalizing known with
  | nil => trivial
  | cons hline _ ih =>
    rw [inScope, Bool.and_eq_true, all_eq_true] at h
    refine ⟨fun x hx => ?_, ?_⟩
    · rcases hline.reads x hx with hx | hx
      · exact contains_iff_mem.1 (h.1 x hx)
      · exact hstandard x hx
    · rw [hline.declares]
      exact ih (fun x hx => mem_append_right _ (hstandard x hx)) h.2

theorem filterMap_declares
    (hlines : Forall₂ (fun line i => Interface.Describes i line) lines interfaces) :
    lines.filterMap Cpp.declares = declaredNames interfaces := by
  induction hlines with
  | nil => rfl
  | cons hline _ ih =>
    unfold declaredNames at ih ⊢
    rw [filterMap_cons, filterMap_cons, hline.declares, ih]

end WeakForm
