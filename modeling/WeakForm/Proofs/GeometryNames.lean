import WeakForm.Proofs.Words
import WeakForm.Proofs.CaseStructure

/-!
# Names of geometry in emitted code

The geometry that a routine declares has names of its own: entries of the Jacobian and
its inverse, determinants, and the scale factor. Which of them occur in the text of
emitted code can be told from the code: they are the symbols of the constants and
geometry entries that it declares, in order, and nothing else in the text looks like
one. Variables, tables and weights have other first letters, and notes and literals
are quiet by assumption.

`Code.geometryNames_emit` says so by recursion on the code, with one lemma for each kind
of statement.

## Theorems

* `Code.geometryNames_emit`: The names of geometry in emitted code are its symbols.
* `Body.geometryNames_listing`: The same for the body of a routine.
-/

namespace WeakForm

open List Text Cpp Listing

namespace Cpp

/-- The names of geometry: those of matrices, and all that starts like the determinant. -/
def isGeometryName (w : String) : Bool :=
  match w.toList with
  | 'J' :: _ | 'K' :: _ | 'd' :: 'e' :: 't' :: _ => true
  | _ => false

def geometryLetters : List Char := ['J', 'K', 'd']

/-- Characters that names of geometry do not start with. -/
def unlettered (cs : List Char) : Bool := cs.all fun c => !geometryLetters.contains c

variable {cs : List Char}

theorem unlettered_append {ds : List Char} (hcs : unlettered cs = true) (hds : unlettered ds = true) :
    unlettered (cs ++ ds) = true := by
  rw [unlettered, List.all_append, Bool.and_eq_true]
  exact ⟨hcs, hds⟩

theorem unlettered_cons {c : Char} (hc : geometryLetters.contains c = false)
    (hcs : unlettered cs = true) : unlettered (c :: cs) = true := by
  rw [unlettered, List.all_cons, hc]
  exact hcs

theorem unlettered_of_subset {ds : List Char} (h : unlettered ds = true) (hsub : cs ⊆ ds) :
    unlettered cs = true :=
  all_eq_true.2 fun c hc => all_eq_true.1 h c (hsub hc)

theorem unlettered_toDigits (n : Nat) : unlettered (Nat.toDigits 10 n) = true := by
  refine all_eq_true.2 fun c hc => ?_
  have hdigit : c.isDigit = true := Nat.isDigit_of_mem_toDigits (by decide) (by decide) hc
  rw [Bool.not_eq_true', Bool.eq_false_iff]
  intro hmem
  have hletters : geometryLetters.all (fun c => !c.isDigit) = true := by decide
  have hnot := all_eq_true.1 hletters c (contains_iff_mem.1 hmem)
  rw [hdigit] at hnot
  exact Bool.false_ne_true hnot

theorem unlettered_toString (n : Int) : unlettered (toString n).toList = true := by
  cases n with
  | ofNat n =>
    change unlettered (Nat.repr n).toList = true
    rw [Nat.toList_repr]
    exact unlettered_toDigits n
  | negSucc n =>
    change unlettered ("-" ++ Nat.repr (n + 1)).toList = true
    rw [String.toList_append, Nat.toList_repr]
    exact unlettered_append (by decide) (unlettered_toDigits (n + 1))

theorem isGeometryName_of_head {w : String} (h : w.toList.head?.all (· ∉ geometryLetters) = true) :
    isGeometryName w = false := by
  unfold isGeometryName
  split
  · next hw => simp [hw, geometryLetters] at h
  · next hw => simp [hw, geometryLetters] at h
  · next hw => simp [hw, geometryLetters] at h
  · rfl

end Cpp

namespace Text

variable (separator : String)

def geometryNames (s : String) : List String := (words s).filter Cpp.isGeometryName

/-- A text without names of geometry. -/
def Quiet (s : String) : Prop := geometryNames s = []

instance (s : String) : Decidable (Quiet s) := inferInstanceAs (Decidable (geometryNames s = []))

variable {s t : String}

theorem geometryNames_append_of_opens (h : opens t = true) :
    geometryNames (s ++ t) = geometryNames s ++ geometryNames t := by
  rw [geometryNames, words_append_of_opens h, filter_append]
  rfl

theorem geometryNames_append_of_closes (h : closes s = true) :
    geometryNames (s ++ t) = geometryNames s ++ geometryNames t := by
  rw [geometryNames, words_append_of_closes h, filter_append]
  rfl

theorem geometryNames_between (h : Expr.isSeparator separator = true) :
    geometryNames (s ++ separator ++ t) = geometryNames s ++ geometryNames t := by
  rw [geometryNames, Expr.words_between separator h, filter_append]
  rfl

theorem quiet_append_of_opens (h : opens t = true) (hs : Quiet s) (ht : Quiet t) :
    Quiet (s ++ t) := by
  rw [Quiet, geometryNames_append_of_opens h, hs, ht]
  rfl

theorem quiet_append_of_closes (h : closes s = true) (hs : Quiet s) (ht : Quiet t) :
    Quiet (s ++ t) := by
  rw [Quiet, geometryNames_append_of_closes h, hs, ht]
  rfl

theorem quiet_between (h : Expr.isSeparator separator = true) (hs : Quiet s) (ht : Quiet t) :
    Quiet (s ++ separator ++ t) := by
  rw [Quiet, geometryNames_between separator h, hs, ht]
  rfl

theorem quiet_of_head (hword : oneWord s = true)
    (h : s.toList.head?.all (· ∉ geometryLetters) = true) : Quiet s := by
  rw [Quiet, geometryNames, words_of_oneWord hword, filter_singleton, isGeometryName_of_head h]
  rfl

/-- A text without the first letters of geometry is quiet. -/
theorem quiet_of_letters (h : unlettered s.toList = true) : Quiet s := by
  refine filter_eq_nil_iff.2 fun w hw => ?_
  rw [Bool.not_eq_true]
  refine isGeometryName_of_head ?_
  cases hletters : w.toList with
  | nil => rfl
  | cons c cs =>
    rcases mem_words_iff.1 hw with ⟨_, front, back, rfl, _⟩
    have hc := all_eq_true.1 h c (by simp [String.toList_append, hletters])
    rw [Bool.not_eq_true', Bool.eq_false_iff] at hc
    rw [head?_cons, Option.all_some, decide_eq_true_iff]
    exact fun hmem => hc (contains_iff_mem.2 hmem)

theorem quiet_toString (n : Nat) : Quiet (toString n) := by
  refine quiet_of_letters ?_
  rw [Nat.toString_eq_repr, Nat.toList_repr]
  exact unlettered_toDigits n

theorem quiet_numbered (front : String) (n : Nat) (hword : oneWord front = true)
    (h : front.toList.head?.all (· ∉ geometryLetters) = true) : Quiet (front ++ toString n) := by
  refine quiet_of_head (oneWord_append hword (all_isWordChar_toString n)) ?_
  rw [oneWord, Bool.and_eq_true, Bool.not_eq_true', isEmpty_eq_false_iff] at hword
  rcases exists_cons_of_ne_nil hword.1 with ⟨c, cs, hcs⟩
  rw [hcs] at h
  rw [String.toList_append, hcs, cons_append]
  exact h

theorem quiet_intercalate (h : Expr.isSeparator separator = true) {ss : List String}
    (hss : ∀ s ∈ ss, Quiet s) : Quiet (separator.intercalate ss) := by
  induction ss with
  | nil => rfl
  | cons s ss ih =>
    have hs := hss s mem_cons_self
    have ih := ih fun t ht => hss t (mem_cons_of_mem s ht)
    cases ss with
    | nil => rwa [String.intercalate_singleton]
    | cons t ss =>
      rw [String.intercalate_cons_cons]
      exact quiet_between separator h hs ih

end Text

namespace Expr

variable {ν α : Type} {nameText : ν → String} {number : α → String}

theorem quiet_text {op : Operators} (hop : op.Separates) {e : Expr ν α}
    (hnames : ∀ n ∈ e.names, Quiet (nameText n)) (hnumber : ∀ x, Quiet (number x)) :
    Quiet (e.text op nameText number) := by
  rw [Quiet, geometryNames, words_text hop, filter_eq_nil_iff]
  exact forall_mem_words (fun n hn => filter_eq_nil_iff.1 (hnames n hn))
    (fun x _ => filter_eq_nil_iff.1 (hnumber x)) (by decide)

end Expr

namespace Cpp

theorem isGeometryName_symbol (s : Symbol) : isGeometryName (symbol s) = true := by
  cases s with
  | jacobian side row col =>
    change isGeometryName ("J" ++ Side.suffix side ++ "_" ++ toString row ++ toString col) = true
    simp [isGeometryName, String.toList_append]
  | inverse side row col =>
    change isGeometryName ("K" ++ Side.suffix side ++ "_" ++ toString row ++ toString col) = true
    simp [isGeometryName, String.toList_append]
  | determinant side =>
    change isGeometryName ("detJ" ++ Side.suffix side) = true
    simp [isGeometryName, String.toList_append]
  | scale => decide

theorem separates_operators : operators.Separates :=
  ⟨rfl, fun _ _ => Expr.words_between "/" (by decide)⟩

theorem geometryNames_text {α : Type} {number : α → String} (hnumber : ∀ x, Quiet (number x))
    (e : Expr Symbol α) : geometryNames (e.text operators symbol number) = e.names.map symbol := by
  rw [geometryNames, Expr.words_text separates_operators]
  induction e with
  | literal x => exact hnumber x
  | name n =>
    rw [Expr.words, words_of_oneWord (oneWord_symbol n), filter_singleton, isGeometryName_symbol]
    rfl
  | neg a ih | group a ih => exact ih
  | add a b iha ihb | sub a b iha ihb | mul a b iha ihb | div a b iha ihb =>
    rw [Expr.words, filter_append, iha, ihb, ← map_append]
    rfl
  | sqrt a ih | abs a ih =>
    rw [Expr.words, filter_cons_of_neg (by decide), filter_cons_of_neg (by decide), ih]
    rfl

/-- A decimal has digits, a point, a sign and an exponent, and none of the letters of geometry. -/
theorem unlettered_layout (d : Decimal.Digits) : unlettered (Decimal.layout d).toList = true := by
  have hdigits : unlettered (Decimal.digitsOf d.significand) = true :=
    unlettered_toDigits d.significand
  have hzeros : ∀ n, unlettered (Decimal.zeros n) = true := by
    refine fun n => all_eq_true.2 fun c hc => ?_
    rw [(mem_replicate.1 hc).2]
    decide
  have htake : ∀ n, unlettered ((Decimal.digitsOf d.significand).take n) = true :=
    fun n => unlettered_of_subset hdigits (take_subset n _)
  have hdrop : ∀ n, unlettered ((Decimal.digitsOf d.significand).drop n) = true :=
    fun n => unlettered_of_subset hdigits (drop_subset n _)
  unfold Decimal.layout
  simp only
  split
  · unfold Decimal.positional
    simp only [String.toList_ofList]
    split
    · exact unlettered_append (unlettered_append hdigits (hzeros _)) (by decide)
    · split
      · exact unlettered_append (htake _) (unlettered_cons (by decide) (hdrop _))
      · exact unlettered_cons (by decide) (unlettered_cons (by decide)
          (unlettered_append (hzeros _) hdigits))
  · unfold Decimal.scientific
    simp only [String.toList_append, String.toList_ofList]
    refine unlettered_append (unlettered_append (unlettered_append (htake _) ?_) (by decide))
      (unlettered_toString _)
    split
    · rfl
    · exact unlettered_cons (by decide) (hdrop _)

/-- The literals of doubles name no geometry. -/
theorem quiet_number (x : Float) : Quiet (number x) := by
  have hsigned : ∀ (negative : Bool) (magnitude : String), unlettered magnitude.toList = true →
      unlettered (Decimal.signed negative magnitude).toList = true := by
    intro negative magnitude h
    unfold Decimal.signed
    split
    · rw [String.toList_append]
      exact unlettered_append (by decide) h
    · exact h
  refine quiet_of_letters ?_
  unfold number
  split
  · decide
  · unfold Decimal.text
    split
    · decide
    · exact hsigned _ _ (by decide)
    · refine hsigned _ _ ?_
      split
      · decide
      · exact unlettered_layout _

theorem quiet_braced {s : String} (h : Quiet s) : Quiet (braced s) :=
  quiet_append_of_opens (by decide) (quiet_append_of_closes (by decide) (by decide) h) (by decide)

theorem quiet_listed {ss : List String} (h : ∀ s ∈ ss, Quiet s) : Quiet (listed ss) :=
  quiet_intercalate ", " (by decide) h

theorem quiet_access {array index : String} (harray : Quiet array) (hindex : Quiet index) :
    Quiet (access array index) :=
  quiet_append_of_opens (by decide) (quiet_between "[" (by decide) harray hindex) (by decide)

theorem quiet_element {index : String} (h : Quiet index) : Quiet (element index) :=
  quiet_append_of_opens (by decide) (quiet_append_of_closes (by decide) (by decide) h) (by decide)

theorem quiet_initialized {s t : String} (hs : Quiet s) (ht : Quiet t) :
    Quiet (s ++ braced t ++ ";") := by
  refine quiet_append_of_opens (by decide) (quiet_append_of_opens ?_ hs (quiet_braced ht)) (by decide)
  rw [braced, String.append_assoc, opens_append (by decide)]
  decide

variable {name : String}

theorem quiet_weights {values : List String} (hname : Quiet name) (hvalues : ∀ s ∈ values, Quiet s) :
    Quiet (weights name values) := by
  have hfront : Quiet ("static const double " ++ name) :=
    quiet_append_of_closes (by decide) (by decide) hname
  unfold weights
  split
  · next value =>
    exact quiet_append_of_opens (t := ";") (by decide) (quiet_between " = " (by decide) hfront
      (hvalues value mem_cons_self)) (by decide)
  · refine quiet_initialized ?_ (quiet_listed hvalues)
    exact quiet_append_of_opens (t := "] = ") (by decide) (quiet_between "[" (by decide) hfront
      (quiet_toString values.length)) (by decide)

theorem quiet_table {rows : List (List String)} (hname : Quiet name)
    (hrows : ∀ row ∈ rows, ∀ s ∈ row, Quiet s) : Quiet (table name rows) := by
  have hfront : Quiet ("static const double " ++ name) :=
    quiet_append_of_closes (by decide) (by decide) hname
  have hrow : ∀ s ∈ rows.map (fun row => braced (listed row)), Quiet s :=
    forall_mem_map.2 fun row hrow => quiet_braced (quiet_listed (hrows row hrow))
  unfold table
  refine quiet_initialized ?_ (quiet_intercalate ",\n" (by decide) hrow)
  exact quiet_append_of_opens (t := "] = \\\n") (by decide) (quiet_between "][" (by decide)
    (quiet_between "[" (by decide) hfront (quiet_toString _)) (quiet_toString _)) (by decide)

theorem quiet_columns {dofs : List Nat} (hname : Quiet name) : Quiet (columns name dofs) := by
  have hfront : Quiet ("static const unsigned int " ++ name) :=
    quiet_append_of_closes (by decide) (by decide) hname
  unfold columns
  refine quiet_initialized ?_ (quiet_listed (forall_mem_map.2 fun n _ => quiet_toString n))
  exact quiet_append_of_opens (t := "] = ") (by decide) (quiet_between "[" (by decide) hfront
    (quiet_toString dofs.length)) (by decide)

theorem quiet_loop {variableName : String} (h : Quiet variableName) (start stop : Nat) :
    Quiet (loop variableName start stop) := by
  have hfront : Quiet ("for (unsigned int " ++ variableName) :=
    quiet_append_of_closes (by decide) (by decide) h
  exact quiet_append_of_opens (t := "++)") (by decide) (quiet_between "; " (by decide)
    (quiet_between " < " (by decide) (quiet_between "; " (by decide) (quiet_between " = " (by decide)
      hfront (quiet_toString start)) h) (quiet_toString stop)) h) (by decide)

theorem all_isWordChar_joined (ns : List Nat) : (joined ns).toList.all isWordChar = true := by
  rw [joined, String.toList_intercalate, all_eq_true]
  refine forall_mem_intercalate (all_eq_true.1 rfl) (forall_mem_map.2 (forall_mem_map.2 fun n _ => ?_))
  exact all_eq_true.1 (all_isWordChar_toString n)

theorem quiet_geometryName (term : Nat) (a : List Nat) : Quiet (geometryName term a) := by
  have hterm : oneWord ("G" ++ toString term) = true :=
    oneWord_append (by decide) (all_isWordChar_toString term)
  have hletter : ∀ rest : String, ("G" ++ rest).toList.head?.all (· ∉ geometryLetters) = true := by
    intro rest
    rw [String.toList_append]
    rfl
  unfold geometryName
  split
  · exact quiet_of_head hterm (hletter _)
  · refine quiet_of_head (oneWord_append (oneWord_append hterm (by decide))
      (all_isWordChar_joined a)) ?_
    change ("G" ++ toString term ++ "_" ++ joined a).toList.head?.all _ = true
    simp only [String.append_assoc]
    exact hletter _

end Cpp

theorem Counter.quiet_text (c : Counter) : Quiet c.text := by
  unfold Counter.text
  split
  · decide
  · decide
  · decide
  · decide
  · decide
  · exact quiet_numbered "i" _ (by decide) (by decide)

theorem Subscript.quiet_text (s : Subscript) : Quiet s.text := by
  cases s with
  | counter argument => exact Counter.quiet_text _
  | column columns argument =>
    exact quiet_access (quiet_numbered "nzc" columns (by decide) (by decide))
      (Counter.quiet_text _)

theorem Operand.quiet_text (o : Operand) : Quiet o.text := by
  cases o with
  | weight term inLoop =>
    have hweight : Quiet (weightName term) := quiet_numbered "W" term (by decide) (by decide)
    cases inLoop with
    | true => exact quiet_access hweight (by decide)
    | false => exact hweight
  | entry table inLoop argument =>
    have htable : Quiet (tableName table) := quiet_numbered "FE" table (by decide) (by decide)
    refine quiet_access (quiet_access htable ?_) (Counter.quiet_text _)
    cases inLoop with
    | true | false => decide
  | constant number => exact quiet_numbered "G" number (by decide) (by decide)
  | geometry term a => exact quiet_geometryName term a

def Listing.geometryNames (l : Listing) : List String := l.words.filter Cpp.isGeometryName

namespace Listing

variable (l other : Listing)

theorem geometryNames_push (s : String) :
    (l.push s).geometryNames = l.geometryNames ++ Text.geometryNames s := by
  rw [geometryNames, words_push, filter_append]
  rfl

theorem geometryNames_push_quiet {s : String} (h : Quiet s) :
    (l.push s).geometryNames = l.geometryNames := by
  rw [geometryNames_push, h, append_nil]

theorem geometryNames_push_symbols {s : String} (h : Quiet s) :
    (l.push s).geometryNames = l.geometryNames ++ ([] : List Symbol).map symbol := by
  rw [geometryNames_push_quiet l h, map_nil, append_nil]

theorem geometryNames_append :
    (l.append other).geometryNames = l.geometryNames ++ other.geometryNames := by
  rw [geometryNames, words_append, filter_append]
  rfl

theorem geometryNames_nest :
    (l.nest other).geometryNames = l.geometryNames ++ other.geometryNames := by
  rw [geometryNames, words_nest, filter_append]
  rfl

end Listing

namespace Code

variable {α : Type} [Scalar α] {number : α → String} {c : Code α}

/-- The symbols in the declarations of constants and geometry entries. -/
def symbols : Code α → List Symbol
  | seq first second => first.symbols ++ second.symbols
  | block body | loop _ _ body => body.symbols
  | constant _ value => value.toExpr.names
  | geometry _ _ value => value.toExpr.names
  | _ => []

def notes : Code α → List String
  | seq first second => first.notes ++ second.notes
  | block body | loop _ _ body => body.notes
  | note text => [text]
  | _ => []

theorem quiet_positionText (p : Position) : Quiet (positionText p) :=
  Expr.quiet_text separates_operators (fun s _ => s.quiet_text) quiet_toString

theorem geometryNames_constant {name : String} (hname : Quiet name) (value : String) :
    Text.geometryNames (Cpp.constant name value) = Text.geometryNames value := by
  have hfront : Quiet ("const double " ++ name) :=
    quiet_append_of_closes (by decide) (by decide) hname
  have hend : Quiet ";" := by decide
  change Text.geometryNames ("const double " ++ name ++ " = " ++ value ++ ";") = _
  rw [geometryNames_append_of_opens (by decide), geometryNames_between " = " (by decide), hfront, hend,
    append_nil, nil_append]

theorem geometryNames_emit (hnumber : ∀ x, Quiet (number x)) (hnotes : ∀ text ∈ c.notes, Quiet text)
    (l : Listing) : (c.emit number l).geometryNames = l.geometryNames ++ c.symbols.map symbol := by
  induction c generalizing l with
  | skip => exact (append_nil _).symm
  | seq first second ihfirst ihsecond =>
    rw [emit, ihsecond fun text htext => hnotes text (mem_append_right _ htext),
      ihfirst fun text htext => hnotes text (mem_append_left _ htext), symbols,
      map_append, append_assoc]
  | note text =>
    refine geometryNames_push_symbols l ?_
    exact quiet_append_of_closes (by decide) (by decide) (hnotes text mem_cons_self)
  | gap =>
    rw [emit, Listing.geometryNames, words_blank]
    exact (append_nil _).symm
  | block body ih =>
    rw [emit, geometryNames_append, ih hnotes]
    rfl
  | weights term values =>
    refine geometryNames_push_symbols l ?_
    refine quiet_weights (quiet_numbered "W" term (by decide) (by decide)) ?_
    exact forall_mem_map.2 fun x _ => hnumber x
  | table n rows =>
    refine geometryNames_push_symbols l ?_
    refine quiet_table (quiet_numbered "FE" n (by decide) (by decide)) ?_
    exact forall_mem_map.2 fun row _ => forall_mem_map.2 fun x _ => hnumber x
  | columns n dofs =>
    refine geometryNames_push_symbols l ?_
    exact quiet_columns (quiet_numbered "nzc" n (by decide) (by decide))
  | constant n value =>
    have hname : Quiet (constantName n) := quiet_numbered "G" n (by decide) (by decide)
    rw [emit, geometryNames_push, geometryNames_constant hname, geometryNames_text hnumber]
    rfl
  | geometry term a value =>
    rw [emit, geometryNames_push, geometryNames_constant (quiet_geometryName term a),
      geometryNames_text hnumber]
    rfl
  | clear position =>
    refine geometryNames_push_symbols l ?_
    exact quiet_append_of_opens (by decide) (quiet_between " = " (by decide)
      (quiet_element (quiet_positionText position)) (hnumber 0)) (by decide)
  | accumulate position value =>
    refine geometryNames_push_symbols l ?_
    refine quiet_append_of_opens (by decide) (quiet_between " += " (by decide)
      (quiet_element (quiet_positionText position)) ?_) (by decide)
    exact Expr.quiet_text separates_operators (fun o _ => o.quiet_text) hnumber
  | loop counter count body ih =>
    have hloop := quiet_loop counter.quiet_text 0 count
    rw [emit, geometryNames_push_quiet _ (by decide), geometryNames_nest,
      geometryNames_push_quiet _ (by decide), geometryNames_push_quiet _ hloop, ih hnotes]
    rfl

theorem geometryNames_render (hnumber : ∀ x, Quiet (number x))
    (hnotes : ∀ text ∈ c.notes, Quiet text) :
    (c.render number).geometryNames = c.symbols.map symbol :=
  geometryNames_emit hnumber hnotes .empty

end Code

theorem geometryNames_selection {variableName : String} (h : Quiet variableName)
    (cases : List Listing) :
    (selection variableName cases).geometryNames = cases.flatMap Listing.geometryNames := by
  have hswitch : Quiet (switch variableName) := by
    refine quiet_append_of_closes (by decide) (by decide) ?_
    exact quiet_append_of_opens (by decide) (quiet_append_of_closes (by decide) (by decide) h)
      (by decide)
  have hlabel : ∀ value : Nat, Quiet (caseLabel value) := fun value =>
    quiet_append_of_opens (t := ":") (by decide)
      (quiet_append_of_closes (s := "case ") (by decide) (by decide) (quiet_toString value))
      (by decide)
  -- Every case adds its own names, whatever number it has.
  have hfold : ∀ (cases : List (Listing × Nat)) (l : Listing),
      (cases.foldl (fun (l : Listing) (x : Listing × Nat) => (l.push (caseLabel x.2)).nest
        (((empty.push blockBegin).nest x.1).push blockEnd |>.push
          breakStatement)) l).geometryNames =
        l.geometryNames ++ cases.flatMap fun x => x.1.geometryNames := by
    intro cases
    induction cases with
    | nil => exact fun l => (append_nil _).symm
    | cons x cases ih =>
      intro l
      rw [foldl_cons, ih, geometryNames_nest, geometryNames_push_quiet _ (hlabel x.2),
        geometryNames_push_quiet _ (by decide), geometryNames_push_quiet _ (by decide),
        geometryNames_nest, geometryNames_push_quiet _ (by decide), flatMap_cons, append_assoc]
      rfl
  rw [selection, geometryNames_push_quiet _ (by decide), hfold,
    geometryNames_push_quiet _ (by decide), geometryNames_push_quiet _ hswitch]
  have hzip := flatMap_map Prod.fst Listing.geometryNames cases.zipIdx
  rw [zipIdx_map_fst] at hzip
  exact hzip.symm

namespace Body

variable {α : Type} [Scalar α]

theorem geometryNames_listing {number : α → String} (hnumber : ∀ x, Quiet (number x))
    {body : Body α} (hnotes : ∀ c ∈ body.codes, ∀ text ∈ c.notes, Quiet text) :
    (body.listing number).geometryNames = body.codes.flatMap fun c => c.symbols.map symbol := by
  have hselection : ∀ variableName, Quiet variableName → ∀ codes : List (Code α),
      (∀ c ∈ codes, ∀ text ∈ c.notes, Quiet text) →
        (selection variableName (codes.map (Code.render number))).geometryNames =
          codes.flatMap fun c => c.symbols.map symbol := by
    intro variableName hvariable codes hcodes
    rw [geometryNames_selection hvariable, flatMap_map]
    exact flatMap_congr fun c hc => Code.geometryNames_render hnumber (hcodes c hc)
  cases body with
  | cell code =>
    rw [listing, Code.geometryNames_render hnumber (hnotes code mem_cons_self)]
    exact (append_nil _).symm
  | facets cs =>
    rw [listing, geometryNames_append, geometryNames_push_quiet _ (by decide),
      hselection _ (by decide) cs hnotes]
    rfl
  | facetPairs css =>
    have hinner : ∀ cs ∈ css, (selection (facetVariable (some .minus))
        (cs.map (Code.render number))).geometryNames =
          cs.flatMap fun c => c.symbols.map symbol := fun cs hcs =>
      hselection _ (by decide) cs fun c hc => hnotes c (mem_flatten.2 ⟨cs, hcs, hc⟩)
    rw [listing, geometryNames_append, geometryNames_push_quiet _ (by decide),
      geometryNames_selection (by decide), flatMap_map, flatMap_congr hinner, codes,
      flatten_eq_flatMap, flatMap_assoc]
    rfl

end Body
end WeakForm
