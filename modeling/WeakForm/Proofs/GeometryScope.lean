import WeakForm.Proofs.CaseSymbols
import WeakForm.Proofs.Preludes

/-!
# The geometry of a routine is declared

A routine declares geometry in front of its body and prunes what the body does not
read. The names that a body reads are the symbols of its cases; these are declared by
the passages of the sides of the routine; and pruning keeps a declaration that is read.
Put together, every name of geometry in a body has one declaration in front of it, and
what the declarations read is in scope in turn.

This needs the symbols of the cases to be on the sides of the routine. A contraction has
no sides, and tables have those of their monomial, so it fails in two ways: a contraction
on interior facets, and monomials that couple two cells in a routine for one, or the
other way round. `Generated` leaves both out, and `unsided_undeclared` is what happens in
them.

The orientation of a manifold cell is checked where the determinant is read. Its lines
declare no scalar and end with a statement, so pruning keeps them together.

## Main definitions

* `Listing.Supports`: Geometry that declares what a body reads.

## Theorems

* `Listing.scoped_prune`, `Listing.mem_declares_prune`, `Listing.infix_prune`: What pruning
  keeps.
* `supports_of_faithful`: The geometry of faithful cases supports their body.
* `Generated.geometry_supports_body`: The geometry of a routine supports its body.
* `Generated.supports_of_double`: The same for routines over doubles.
* `unsided_undeclared`: Symbols without a side are not declared on interior facets.
-/

namespace WeakForm

open List Success Text Drawing Cpp

namespace Listing

variable {l r : Listing}

theorem texts_append (l other : Listing) : (l.append other).texts = l.texts ++ other.texts := by
  rw [texts, append, Array.toList_append, map_append, Array.toList_map, map_map]
  exact congrArg (l.texts ++ ·) (map_congr_left fun line _ => text_moved l.level line)

theorem texts_nest (l other : Listing) : (l.nest other).texts = l.texts ++ other.texts := by
  rw [texts, nest, Array.toList_append, map_append, Array.toList_map, map_map]
  exact congrArg (l.texts ++ ·) (map_congr_left fun line _ => text_moved (l.level + 1) line)

theorem texts_prune (l r : Listing) : (l.prune r).texts =
    ((kept r.words l.lines.toList).map Line.text).dropWhile fun text => text.isEmpty := by
  rw [texts, lines_prune, dropWhile_map]
  rfl

theorem filterMap_declares_dropWhile (texts : List String) :
    (texts.dropWhile fun text => text.isEmpty).filterMap Cpp.declares =
      texts.filterMap Cpp.declares := by
  induction texts with
  | nil => rfl
  | cons text texts ih =>
    rw [dropWhile_cons]
    split
    · next hblank =>
      rw [ih, filterMap_cons_none (declares_eq_none_of_blank text hblank).1]
    · rfl

theorem scoped_prune {known : List String} (h : Scoped known l.texts) :
    Scoped known (l.prune r).texts := by
  rw [texts_prune]
  exact (Scoped.kept h fun x hx _ => hx).dropWhile_blank

theorem declares_prune_sublist (l r : Listing) : ((l.prune r).texts.filterMap Cpp.declares).Sublist
    (l.texts.filterMap Cpp.declares) := by
  rw [texts_prune, filterMap_declares_dropWhile]
  exact ((kept_sublist r.words l.lines.toList).map Line.text).filterMap Cpp.declares

theorem mem_declares_prune {x : String} (h : x ∈ l.texts.filterMap Cpp.declares)
    (hx : x ∈ r.words) : x ∈ (l.prune r).texts.filterMap Cpp.declares := by
  rw [texts_prune, filterMap_declares_dropWhile]
  rcases mem_filterMap.1 h with ⟨text, htext, hdeclares⟩
  rcases mem_map.1 htext with ⟨line, hline, rfl⟩
  refine mem_filterMap.2 ⟨line.text, mem_map.2 ⟨line, ?_, rfl⟩, hdeclares⟩
  rcases append_of_mem hline with ⟨above, below, hlines⟩
  rcases kept_append r.words above (line :: below) with ⟨front, hfront⟩
  -- A scalar is kept for its readers, and any other declaration is a statement.
  have hkept : kept r.words (line :: below) = line :: kept r.words below := by
    cases hscalar : declaredName? line.text with
    | some y =>
      have hy : y = x :=
        Option.some.inj ((declares_of_declaredName? hscalar).symm.trans hdeclares)
      exact kept_declaration hscalar (mem_append_right _ (hy ▸ hx))
    | none =>
      rcases statement_of_declares hscalar hdeclares with ⟨hblank, hcomment⟩
      exact kept_statement hscalar hblank hcomment
  rw [hlines, hfront, hkept]
  exact mem_append_right _ mem_cons_self

theorem infix_prune {segment : List String} {last : String}
    (hsegment : ∀ text ∈ segment ++ [last], declaredName? text = none ∧ text.isEmpty = false)
    (hlast : isComment last = false) (h : segment ++ [last] <:+: l.texts) :
    segment ++ [last] <:+: (l.prune r).texts := by
  rcases h with ⟨above, below, htexts⟩
  have hmap : l.lines.toList.map Line.text = above ++ (segment ++ [last]) ++ below := htexts.symm
  rcases map_eq_append_iff.1 hmap with ⟨front, belowLines, hfront, hcut, rfl⟩
  rcases map_eq_append_iff.1 hcut with ⟨aboveLines, lines, rfl, rfl, hlines⟩
  rcases map_eq_append_iff.1 hlines with ⟨segmentLines, lastLines, rfl, rfl, hlastLines⟩
  rcases map_eq_singleton_iff.1 hlastLines with ⟨lastLine, rfl, rfl⟩
  have hlist : l.lines.toList = aboveLines ++ (segmentLines ++ lastLine :: belowLines) := by
    rw [hfront, append_assoc, append_assoc]
    rfl
  have hkept : kept r.words (segmentLines ++ lastLine :: belowLines) =
      segmentLines ++ lastLine :: kept r.words belowLines := by
    refine kept_segment (fun line hline => hsegment line.text ?_) hlast belowLines
    rw [← hlines]
    exact mem_map_of_mem hline
  rcases kept_append r.words aboveLines (segmentLines ++ lastLine :: belowLines) with
    ⟨frontLines, hfrontLines⟩
  have hrest : (segmentLines ++ lastLine :: kept r.words belowLines).map Line.text =
      segmentLines.map Line.text ++ [lastLine.text] ++ (kept r.words belowLines).map Line.text := by
    rw [map_append, map_cons, append_assoc]
    rfl
  rw [texts_prune, hlist, hfrontLines, hkept, map_append, hrest, dropWhile_append]
  split
  · -- Only blank lines in front, and the first line behind them is not blank.
    have hstart : (segmentLines.map Line.text ++ [lastLine.text] ++
        (kept r.words belowLines).map Line.text).dropWhile (fun text => text.isEmpty) =
          segmentLines.map Line.text ++ [lastLine.text] ++
            (kept r.words belowLines).map Line.text := by
      cases segmentLines with
      | nil =>
        refine dropWhile_cons_of_neg ?_
        rw [(hsegment lastLine.text mem_cons_self).2]
        exact Bool.false_ne_true
      | cons line segmentLines =>
        refine dropWhile_cons_of_neg ?_
        rw [(hsegment line.text mem_cons_self).2]
        exact Bool.false_ne_true
    rw [hstart]
    exact (List.prefix_append _ _).isInfix
  · rw [← append_assoc]
    exact infix_append _ _ _

end Listing

/-- The geometry in front of a body: every name of geometry in the body is declared once, every
    name that is read is known or declared above, no name is declared twice, and on manifolds the
    orientation of a side is checked exactly if the body reads its determinant. -/
structure Listing.Supports (d : Dimensions) (kind : Integral) (geometry body : Listing) : Prop where
  declared : ∀ w ∈ body.words, Cpp.isGeometryName w = true →
    (geometry.texts.filterMap Cpp.declares).count w = 1
  inScope : Cpp.Scoped (Cpp.ambient kind) geometry.texts
  distinct : (geometry.texts.filterMap Cpp.declares).Nodup
  oriented : d.isManifold = true → ∀ side ∈ routineSides kind,
    ((Step.orientation side).lines <:+: geometry.texts ↔
      Cpp.symbol (.determinant side) ∈ body.words)

/-- The lines of the orientation end with a statement and declare no scalar. -/
theorem Step.segment_orientation (side : Option Side) : ∃ segment last,
    (orientation side).lines = segment ++ [last] ∧ isComment last = false ∧
      ∀ text ∈ segment ++ [last], declaredName? text = none ∧ text.isEmpty = false := by
  have hlines : isComment (((orientation side).lines.getLast?).getD "") = false ∧
      ∀ text ∈ (orientation side).lines, declaredName? text = none ∧ text.isEmpty = false := by
    rcases side with _ | _ | _ <;> decide +kernel
  rcases hlines with ⟨hlast, htexts⟩
  have hne : (orientation side).lines ≠ [] := cons_ne_nil _ _
  refine ⟨_, _, (dropLast_append_getLast hne).symm, ?_, ?_⟩
  · rw [getLast?_eq_some_getLast hne] at hlast
    exact hlast
  · rw [dropLast_append_getLast hne]
    exact htexts

theorem Step.marker_mem_orientation (side : Option Side) :
    markerName side ∈ (orientation side).lines.filterMap Cpp.declares := by
  rw [filterMap_declares (described_orientation side)]
  exact mem_cons_self

theorem Cpp.symbol_eq_determinant {s : Symbol} {side : Option Side}
    (h : symbol s = symbol (.determinant side)) : s = .determinant side := by
  cases s with
  | jacobian side' row col =>
    change "J" ++ Side.suffix side' ++ "_" ++ toString row ++ toString col =
      "detJ" ++ Side.suffix side at h
    exact absurd (congrArg String.toList h) (by simp [String.toList_append])
  | inverse side' row col =>
    change "K" ++ Side.suffix side' ++ "_" ++ toString row ++ toString col =
      "detJ" ++ Side.suffix side at h
    exact absurd (congrArg String.toList h) (by simp [String.toList_append])
  | determinant side' =>
    rcases side with _ | (_ | _) <;> rcases side' with _ | (_ | _)
    all_goals first
      | rfl
      | cases h
  | scale =>
    rcases side with _ | (_ | _)
    all_goals exact absurd h (by decide)

section

variable {α : Type} {kind : Integral}

variable [Scalar α] {s : Setting α} {f : Form α} {r : Routine α} {body : Body α}
  {cases : List (CaseCode α)} {number : α → String} {P : Symbol → Prop}

theorem Body.mem_words_listing (hnumber : ∀ x, Quiet (number x))
    (hnotes : ∀ c ∈ body.codes, ∀ text ∈ c.notes, Quiet text) {w : String}
    (hw : isGeometryName w = true) :
    w ∈ (body.listing number).words ↔ ∃ s ∈ body.codes.flatMap Code.symbols, symbol s = w := by
  have hnames : w ∈ (body.listing number).words ↔ w ∈ (body.listing number).geometryNames :=
    ⟨fun h => mem_filter.2 ⟨h, hw⟩, fun h => (mem_filter.1 h).1⟩
  rw [hnames, geometryNames_listing hnumber hnotes, ← map_flatMap, mem_map]

theorem quiet_codes (hcases : ∀ x ∈ cases, x.Faithful P)
    (hcodes : body.codes = cases.map CaseCode.code) :
    ∀ c ∈ body.codes, ∀ text ∈ c.notes, Quiet text := by
  intro c hc
  rw [hcodes] at hc
  rcases mem_map.1 hc with ⟨x, hx, rfl⟩
  exact (hcases x hx).notes

theorem mem_symbols_codes (hcases : ∀ x ∈ cases, x.Faithful P)
    (hcodes : body.codes = cases.map CaseCode.code) {s : Symbol} :
    s ∈ body.codes.flatMap Code.symbols ↔ s ∈ cases.flatMap CaseCode.symbols := by
  rw [hcodes, flatMap_map, mem_flatMap, mem_flatMap]
  exact exists_congr fun x => and_congr_right fun hx => (hcases x hx).mem_symbols s

theorem supports_of_faithful {d : Dimensions} (hnumber : ∀ x, Quiet (number x))
    (hcases : ∀ x ∈ cases, x.Faithful fun s => s.Within d ∧ ∃ side ∈ routineSides kind, s.On side)
    (hcodes : body.codes = cases.map CaseCode.code) :
    ((geometryListing d kind (cases.flatMap CaseCode.symbols)).prune
      (body.listing number)).Supports d kind (body.listing number) := by
  have hnotes := quiet_codes hcases hcodes
  have htexts := texts_geometryListing d kind (cases.flatMap CaseCode.symbols)
  have hdistinct : ((geometryListing d kind (cases.flatMap CaseCode.symbols)).prune
      (body.listing number)).texts.filterMap Cpp.declares |>.Nodup := by
    refine Nodup.sublist (Listing.declares_prune_sublist _ _) ?_
    rw [htexts]
    exact nodup_routineLines d kind _
  refine ⟨fun w hw hgeometry => ?_, ?_, hdistinct, fun hmanifold side hside => ?_⟩
  · -- The symbol behind the name is declared on its side, and read by the body.
    rcases (Body.mem_words_listing hnumber hnotes hgeometry).1 hw with ⟨s, hs, rfl⟩
    rcases mem_flatMap.1 ((mem_symbols_codes hcases hcodes).1 hs) with ⟨x, hx, hs⟩
    rcases (hcases x hx).proper s hs with ⟨hwithin, side, hside, hon⟩
    refine count_eq_one_of_mem hdistinct (Listing.mem_declares_prune ?_ hw)
    rw [htexts]
    exact symbol_mem_routineLines _ hside hwithin hon
  · refine Listing.scoped_prune ?_
    rw [htexts]
    exact scoped_routineLines d kind _
  · have hread : symbol (.determinant side) ∈ (body.listing number).words ↔
        isOriented d (cases.flatMap CaseCode.symbols) side = true := by
      rw [Body.mem_words_listing hnumber hnotes (isGeometryName_symbol _), isOriented, hmanifold,
        Bool.true_and, contains_iff_mem, ← mem_symbols_codes hcases hcodes]
      constructor
      · rintro ⟨s, hs, heq⟩
        rwa [← symbol_eq_determinant heq]
      · exact fun hmem => ⟨_, hmem, rfl⟩
    rw [hread]
    constructor
    · intro hinside
      -- Wherever the lines stand, the name of the orientation is declared.
      cases horiented : isOriented d (cases.flatMap CaseCode.symbols) side with
      | true => rfl
      | false =>
        have hmarker := (hinside.sublist.filterMap Cpp.declares).subset
          (Step.marker_mem_orientation side)
        have hmarker := (Listing.declares_prune_sublist _ _).subset hmarker
        rw [htexts] at hmarker
        exact absurd hmarker (marker_not_mem_routineLines horiented)
    · intro horiented
      rcases Step.segment_orientation side with ⟨segment, last, hlines, hlast, hsegment⟩
      rw [hlines]
      refine Listing.infix_prune hsegment hlast ?_
      rw [← hlines, htexts]
      exact orientation_inside hside horiented

theorem Routine.texts_listing (number : α → String) {geometry : Listing}
    (h : r.geometry = some geometry) : ∃ gap, (∀ line ∈ gap, line = "") ∧
      (r.listing number).texts = Text.lines (routineBegin r.name r.kind) ++ geometry.texts ++
        gap ++ (r.body.listing number).texts ++ [blockEnd] := by
  have hhead : ((Listing.empty.push (routineBegin r.name r.kind)).nest
      (({} : Listing).append geometry)).texts =
        Text.lines (routineBegin r.name r.kind) ++ geometry.texts := by
    rw [Listing.texts_nest, Listing.texts_push, Listing.texts_append]
    rfl
  have hblank : ∀ l : Listing, ∃ gap, (∀ line ∈ gap, line = "") ∧ l.blank.texts = l.texts ++ gap := by
    intro l
    rcases l.blank_cases with h | h
    · exact ⟨[], forall_mem_nil _, by rw [h, append_nil]⟩
    · exact ⟨[""], forall_mem_singleton.2 rfl, by rw [h, Listing.texts_push_blank]⟩
  rcases hblank ((Listing.empty.push (routineBegin r.name r.kind)).nest
    (({} : Listing).append geometry)) with ⟨gap, hgap, htexts⟩
  refine ⟨gap, hgap, ?_⟩
  unfold listing
  simp only [h, Option.isSome_some, if_true]
  rw [Listing.texts_push, Listing.texts_nest, htexts, hhead]
  rfl

/-- A routine of a kind of integral that is made of faithful cases, with symbols that may depend
    on the dimensions of the form. -/
def Routine.MadeOf (s : Setting α) (f : Form α) (kind : Integral) (P : Dimensions → Symbol → Prop)
    (r : Routine α) : Prop :=
  ∃ (d : Dimensions) (cases : List (CaseCode α)), f.dims = .ok d ∧ r.kind = kind ∧
    r.geometry = some ((geometryListing d kind (cases.flatMap CaseCode.symbols)).prune
      (r.body.listing s.number)) ∧
    r.body.codes = cases.map CaseCode.code ∧ ∀ x ∈ cases, x.Faithful (P d)

section

variable {s : Setting α} {f : Form α} {name : String} {ms : List (Monomial α)} {c c' : Allocator}
  {r : Routine α}

theorem quadratureRoutine_madeOf {P : Dimensions → Symbol → Prop}
    (h : (quadratureRoutine s f kind name ms).run c = (.ok r, c')) (hms : ms ≠ [])
    (hscale : ∀ d, P d .scale)
    (hP : ∀ m ∈ ms, ∀ side : Option Side, side.isSome = decide (m.integral = .interiorFacet) →
      ∀ (d : Dimensions) (s : Symbol), s.Within d → s.On side → P d s) : r.MadeOf s f kind P := by
  rcases run_bind_eq_ok.1 h with ⟨d, c₁, hd, h⟩
  rw [run_ofOutcome, Prod.mk.injEq, lift_problem_eq_ok] at hd
  rw [isEmpty_eq_false_iff.2 hms] at h
  rcases routine_eq_ok h with ⟨d', cases, hd', hkind, hgeometry, hcodes, _, hcases⟩
  rw [hd.1] at hd'
  cases hd'
  refine ⟨d, cases, hd.1, hkind, hgeometry, hcodes, forall₂_left hcases.flip fun x facets hx => ?_⟩
  rcases hx with ⟨_, c₁, c₂, hx⟩
  rw [run_ofOutcome, Prod.mk.injEq] at hx
  exact quadratureCase_faithful hx.1 (hscale d) fun m hm t ht =>
    quadratureTerm_proper hd.1 (fun side hside s _ => hP m hm side hside d s) ht

theorem contractionRoutine_madeOf {domain : Nat} {primary : MultiIndex}
    (h : (contractionRoutine s f kind domain name ms primary).run c = (.ok r, c')) (hms : ms ≠ []) :
    r.MadeOf s f kind fun d s => s.Within d ∧ s.On none := by
  unfold contractionRoutine at h
  rw [isEmpty_eq_false_iff.2 hms] at h
  rcases routine_eq_ok h with ⟨d, cases, hd, hkind, hgeometry, hcodes, _, hcases⟩
  refine ⟨d, cases, hd, hkind, hgeometry, hcodes, forall₂_left hcases.flip fun x facets hx => ?_⟩
  rcases hx with ⟨_, c₁, c₂, hx⟩
  exact contractionCase_faithful hd hx

end

/-- The routines of some monomials: by quadrature if the monomials couple two cells exactly where
    the routine does, or by contraction where there is one cell. -/
inductive Generated (s : Setting α) (f : Form α) (kind : Integral) (ms : List (Monomial α))
    (r : Routine α) : Prop where
  | quadrature {name : String} {c c' : Allocator}
      (coupled : ∀ m ∈ ms, m.integral = .interiorFacet ↔ kind = .interiorFacet)
      (run : (quadratureRoutine s f kind name ms).run c = (.ok r, c'))
  | contraction {domain : Nat} {name : String} {primary : MultiIndex} {c c' : Allocator}
      (uncoupled : kind ≠ .interiorFacet)
      (run : (contractionRoutine s f kind domain name ms primary).run c = (.ok r, c'))

theorem mem_routineSides {side : Option Side} :
    side ∈ routineSides kind ↔ side.isSome = decide (kind = .interiorFacet) := by
  rcases side with _ | (_ | _) <;> cases kind <;> decide

theorem Generated.madeOf {ms : List (Monomial α)} (h : Generated s f kind ms r) (hms : ms ≠ []) :
    r.MadeOf s f kind fun d s => s.Within d ∧ ∃ side ∈ routineSides kind, s.On side := by
  cases h with
  | quadrature coupled run =>
    refine quadratureRoutine_madeOf run hms (fun d => ⟨trivial, ?_⟩) fun m hm side hside d s hwithin
      hon => ⟨hwithin, side, ?_, hon⟩
    · -- The scale belongs to every side, and there is at least one.
      cases kind with
      | cell | exteriorFacet => exact ⟨none, mem_cons_self, trivial⟩
      | interiorFacet => exact ⟨some .plus, mem_cons_self, trivial⟩
    · rw [mem_routineSides, hside, decide_eq_decide]
      exact coupled m hm
  | contraction uncoupled run =>
    rcases contractionRoutine_madeOf run hms with
      ⟨d, cases, hd, hkind, hgeometry, hcodes, hcases⟩
    refine ⟨d, cases, hd, hkind, hgeometry, hcodes, fun x hx => ?_⟩
    refine ⟨(hcases x hx).notes, (hcases x hx).mem_symbols, fun s hs => ?_⟩
    rcases (hcases x hx).proper s hs with ⟨hwithin, hon⟩
    exact ⟨hwithin, none, mem_routineSides.2 (decide_eq_false uncoupled).symm, hon⟩

/-- Every name of geometry that a routine reads is declared once, before its body, and what the
    declarations read is in scope. The literals of the setting must not look like geometry. -/
theorem Generated.geometry_supports_body {s : Setting α} (hnumber : ∀ x, Quiet (s.number x))
    {f : Form α} {ms : List (Monomial α)} (hms : ms ≠ []) {r : Routine α}
    (h : Generated s f kind ms r) :
    ∃ d geometry gap, f.dims = .ok d ∧ r.geometry = some geometry ∧
      geometry.Supports d kind (r.body.listing s.number) ∧ (∀ line ∈ gap, line = "") ∧
      (r.listing s.number).texts = Text.lines (Cpp.routineBegin r.name kind) ++ geometry.texts ++
        gap ++ (r.body.listing s.number).texts ++ [Cpp.blockEnd] := by
  rcases h.madeOf hms with ⟨d, cases, hd, hkind, hgeometry, hcodes, hcases⟩
  rcases Routine.texts_listing s.number hgeometry with ⟨gap, hgap, htexts⟩
  rw [hkind] at htexts
  exact ⟨d, _, gap, hd, hgeometry, supports_of_faithful hnumber hcases hcodes, hgap, htexts⟩

/-- The literals of doubles do not look like geometry, so routines over doubles are supported. -/
theorem Generated.supports_of_double {s : Setting Float} (hnumber : s.number = Cpp.number)
    {f : Form Float} {ms : List (Monomial Float)} (hms : ms ≠ []) {r : Routine Float}
    (h : Generated s f kind ms r) : ∃ d geometry, f.dims = .ok d ∧ r.geometry = some geometry ∧
      geometry.Supports d kind (r.body.listing s.number) := by
  rcases h.madeOf hms with ⟨d, cases, hd, _, hgeometry, hcodes, hcases⟩
  have hquiet : ∀ x, Quiet (s.number x) := hnumber ▸ Cpp.quiet_number
  exact ⟨d, _, hd, hgeometry, supports_of_faithful hquiet hcases hcodes⟩

/-- No name that is declared on interior facets is that of an entry without a side. -/
theorem sided_declared : ∀ d ∈ Dimensions.all, ∀ side ∈ routineSides .interiorFacet,
    ∀ oriented, ∀ p ∈ sidePassages .interiorFacet side oriented,
      ∀ x ∈ p.declared d side, x.toList.take 2 ≠ ['K', '_'] := by
  decide +kernel

theorem unsided_undeclared (hnumber : ∀ x, Quiet (s.number x)) {P : Dimensions → Symbol → Prop}
    (h : r.MadeOf s f .interiorFacet P) {row col : Nat}
    (hs : .inverse none row col ∈ r.body.codes.flatMap Code.symbols) :
    ∃ geometry, r.geometry = some geometry ∧
      symbol (.inverse none row col) ∈ (r.body.listing s.number).words ∧
      symbol (.inverse none row col) ∉ geometry.texts.filterMap Cpp.declares := by
  rcases h with ⟨d, cases, _, _, hgeometry, hcodes, hcases⟩
  refine ⟨_, hgeometry, (Body.mem_words_listing hnumber (quiet_codes hcases hcodes)
    (isGeometryName_symbol _)).2 ⟨_, hs, rfl⟩, fun hmem => ?_⟩
  have hmem := (Listing.declares_prune_sublist _ _).subset hmem
  rw [texts_geometryListing, declares_routineLines] at hmem
  rcases mem_flatMap.1 hmem with ⟨side, hside, hmem⟩
  rcases mem_flatMap.1 hmem with ⟨p, hp, hmem⟩
  refine sided_declared d d.mem_all side hside _ p hp _ hmem ?_
  change ("K" ++ "" ++ "_" ++ toString row ++ toString col).toList.take 2 = ['K', '_']
  simp [String.toList_append]

end

theorem quiet_wholeText (x : ℚ) : Quiet (wholeText x) := by
  refine quiet_of_letters ?_
  rw [wholeText, String.toList_ofList]
  exact unlettered_toDigits _

/-- The slope of a function at a point between intervals, and over an interval. -/
def slopes : Form ℚ :=
  ⟨"slopes", .interval, 1, [⟨.lagrange, .interval, 1, [], [], .affine, Element.affineDofs 2 0⟩],
    [⟨.interiorFacet, 0, 1, none, [⟨0, 0, [0], some .plus⟩]⟩, ⟨.cell, 0, 1, none, [⟨0, 0, [0], none⟩]⟩]⟩

/-- Whether a routine was generated whose code has a symbol. -/
def generatedWith (x : Symbol) (run : Except Failure (Routine ℚ) × Allocator) : Bool :=
  match run.1 with
  | .ok r => (r.body.codes.flatMap Code.symbols).contains x
  | .error _ => false

theorem exists_of_generatedWith {x : Symbol} {run : Except Failure (Routine ℚ) × Allocator}
    (h : generatedWith x run = true) :
    ∃ r c', run = (.ok r, c') ∧ x ∈ r.body.codes.flatMap Code.symbols := by
  rcases run with ⟨_ | r, c'⟩
  · cases h
  · exact ⟨r, c', rfl, contains_iff_mem.1 h⟩

/-- On interior facets a contraction reads geometry that is not declared, and so does a routine of
    monomials that do not couple two cells. -/
theorem undeclared_slopes :
    (∃ r c' geometry, (contractionRoutine mergingSetting slopes .interiorFacet 0 "slope"
        (slopes.monomials.take 1) (MultiIndex.primary {} slopes.argumentDims).1).run {} = (.ok r, c') ∧
      r.geometry = some geometry ∧ "K_00" ∈ (r.body.listing mergingSetting.number).words ∧
      "K_00" ∉ geometry.texts.filterMap Cpp.declares) ∧
    ∃ r c' geometry, (quadratureRoutine mergingSetting slopes .interiorFacet "slope"
        (slopes.monomials.drop 1)).run {} = (.ok r, c') ∧
      r.geometry = some geometry ∧ "K_00" ∈ (r.body.listing mergingSetting.number).words ∧
      "K_00" ∉ geometry.texts.filterMap Cpp.declares := by
  have hcontraction : generatedWith (.inverse none 0 0) ((contractionRoutine mergingSetting slopes
      .interiorFacet 0 "slope" (slopes.monomials.take 1)
        (MultiIndex.primary {} slopes.argumentDims).1).run {}) = true := by decide +kernel
  have hquadrature : generatedWith (.inverse none 0 0) ((quadratureRoutine mergingSetting slopes
      .interiorFacet "slope" (slopes.monomials.drop 1)).run {}) = true := by decide +kernel
  have hnumber : ∀ x, Quiet (mergingSetting.number x) := quiet_wholeText
  have hname : Cpp.symbol (.inverse none 0 0) = "K_00" := by decide
  rw [← hname]
  constructor
  · rcases exists_of_generatedWith hcontraction with ⟨r, c', hrun, hs⟩
    rcases unsided_undeclared hnumber
      (contractionRoutine_madeOf hrun (List.cons_ne_nil _ _)) hs with ⟨geometry, hgeometry⟩
    exact ⟨r, c', geometry, hrun, hgeometry⟩
  · rcases exists_of_generatedWith hquadrature with ⟨r, c', hrun, hs⟩
    have hmade : r.MadeOf mergingSetting slopes .interiorFacet fun _ _ => True :=
      quadratureRoutine_madeOf hrun (List.cons_ne_nil _ _) (fun _ => trivial)
        fun _ _ _ _ _ _ _ _ => trivial
    rcases unsided_undeclared hnumber hmade hs with ⟨geometry, hgeometry⟩
    exact ⟨r, c', geometry, hrun, hgeometry⟩

/-- The flux of a vector field along a curved triangle, which reads the determinant. -/
def surfaceFlux : Form ℚ :=
  ⟨"flux", .triangle, 3, [Element.raviartThomas .triangle 3],
    [⟨.cell, 0, 2, none, [⟨0, 2, [1], none⟩]⟩]⟩

/-- Basis functions with value one in each component, on rules with one point. -/
def constantSetting : Setting ℚ :=
  ⟨⟨2, 0, true, none, .quadrature⟩, wholeText, fun _ => [(1 / 2, 1)], fun e points order => do
    Table.ofFn points.length e.spaceDimension (← Tuple.axesCount e.cell.dimension order)
      e.cell.dimension fun _ _ _ _ => 1⟩

/-- A manifold cell with values and derivatives of mapped basis functions. -/
theorem geometry_supports_body_surfaceFlux : ∃ r c' d geometry gap,
    (quadratureRoutine constantSetting surfaceFlux .cell "flux" surfaceFlux.monomials).run {} =
      (.ok r, c') ∧
    surfaceFlux.dims = .ok d ∧ d.isManifold = true ∧ r.geometry = some geometry ∧
    Cpp.symbol (.determinant none) ∈ (r.body.listing constantSetting.number).words ∧
    geometry.Supports d .cell (r.body.listing constantSetting.number) ∧
    (∀ line ∈ gap, line = "") ∧
    (r.listing constantSetting.number).texts = Text.lines (Cpp.routineBegin r.name .cell) ++
      geometry.texts ++ gap ++ (r.body.listing constantSetting.number).texts ++ [Cpp.blockEnd] := by
  have hrun : generatedWith (.determinant none) ((quadratureRoutine constantSetting surfaceFlux .cell
      "flux" surfaceFlux.monomials).run {}) = true := by decide +kernel
  have hnumber : ∀ x, Quiet (constantSetting.number x) := quiet_wholeText
  rcases exists_of_generatedWith hrun with ⟨r, c', hrun, hs⟩
  have hgenerated : Generated constantSetting surfaceFlux .cell surfaceFlux.monomials r :=
    .quadrature (by decide) hrun
  have hne : surfaceFlux.monomials ≠ [] := List.cons_ne_nil _ _
  rcases hgenerated.geometry_supports_body hnumber hne with
    ⟨d, geometry, gap, hd, hgeometry, hsupports, hgap, htexts⟩
  rcases hgenerated.madeOf hne with ⟨_, cases, _, _, _, hcodes, hcases⟩
  have hmanifold : d.isManifold = true := by
    have hdims : surfaceFlux.dims = .ok ⟨2, 3, by decide, by decide, by decide⟩ := rfl
    rw [hdims, Except.ok.injEq] at hd
    rw [← hd]
    rfl
  refine ⟨r, c', d, geometry, gap, hrun, hd, hmanifold, hgeometry, ?_, hsupports, hgap, htexts⟩
  exact (Body.mem_words_listing hnumber (quiet_codes hcases hcodes)
    (Cpp.isGeometryName_symbol _)).2 ⟨_, hs, rfl⟩

end WeakForm
