import Mathlib.Data.List.Flatten
import WeakForm.Proofs.GeometryLines

/-!
# The geometry in front of a routine

A routine declares the geometry of each of its sides by passages: Jacobian and inverse,
on manifolds possibly the check of the orientation, and a scale factor. There are six
pairs of dimensions, three sides and five passages, so what a single passage declares
and reads is a matter of computation, on the interfaces of its lines.

What the computation does not settle is how passages fit together, for a list of them
in an order where each comes behind those it reads from (`isOrdered`). Their lines are
then in scope, each passage adding its names to what the next ones know. The passages of
a routine are ordered already, so completing them changes nothing.

The names of the two sides of an interior facet differ in their suffix. That they never
clash, nor with those of the facet, is computed for the longest list of passages; other
routines declare a part of it.

## Main definitions

* `Passage.lines`, `Passage.interfaces`, `Passage.declared`: A passage line by line.

## Theorems

* `complete_sidePassages`: The passages of a side need no completion.
* `texts_geometryListing`: The lines that are declared before pruning.
* `scoped_routineLines`: Every name is declared before it is read.
* `nodup_routineLines`: No name is declared twice.
* `orientation_inside`, `marker_not_mem_routineLines`: The orientation is checked where this
  is asked for, and nowhere else.
-/

namespace WeakForm

open List Success Text Cpp Passage

namespace Passage

def lines (p : Passage) (d : Dimensions) (side : Option Side) : List String :=
  (p.steps d side).flatMap Step.lines

/-- The names of the lines of a passage. -/
def interfaces (p : Passage) (d : Dimensions) (side : Option Side) : List Interface :=
  (p.steps d side).flatMap Step.interface

/-- The names that a passage declares. -/
def declared (p : Passage) (d : Dimensions) (side : Option Side) : List String :=
  declaredNames (p.interfaces d side)

/-- The names that a passage reads from the cell on one side, and from the number of its facet. -/
def sideNames (p : Passage) (side : Option Side) : List String :=
  ["c" ++ Side.suffix side, "coordinates", "orientation"] ++
    if p = facetDeterminant then [Cpp.facetVariable side] else []

/-- The sides that routines have a passage on. -/
def routineSides : Passage → List (Option Side)
  | scaleFactor => [none]
  | facetDeterminant => [none, some .plus]
  | _ => [none, some .plus, some .minus]

def routineList : List Passage :=
  [jacobian, inverseJacobian, orientation, scaleFactor, facetDeterminant]

theorem mem_all (p : Passage) : p ∈ all := by
  cases p <;> decide

theorem legible_all : ∀ d ∈ Dimensions.all, ∀ p ∈ all,
    ∀ side ∈ [none, some Side.plus, some .minus], (p.steps d side).all Step.isLegible = true := by
  intro d _
  cases d using Dimensions.pairs <;> decide +kernel

theorem noteIsLine (p : Passage) (d : Dimensions) (side : Option Side) :
    ∀ step ∈ p.steps d side, step.NoteIsLine := by
  have hdimensions : isLine s!"Geometric dimension {d.gdim}, topological dimension {d.tdim}" =
      true := by
    simp only [isLine_append, isLine_toString]
    decide
  cases p
  all_goals
    simp only [steps, jacobianSteps, inverseJacobianSteps, facetDeterminantSteps, facetNormalSteps,
      cellVolumeSteps, circumradiusSteps, facetAreaSteps, pointCoordinatesSteps, constant]
    repeat' split
  all_goals
    simp only [forall_mem_append, forall_mem_cons, forall_mem_flatMap, forall_mem_map,
      Step.NoteIsLine, hdimensions, implies_true, and_true, true_and, not_mem_nil, false_implies]
  all_goals and_intros
  -- What is left are texts without variables, which are lists of characters as they stand.
  all_goals exact isLine_ofList _ (by decide +kernel)

theorem inScope_routine : ∀ d ∈ Dimensions.all, ∀ p ∈ routineList, ∀ side ∈ p.routineSides,
    inScope (p.required.flatMap (·.declared d side) ++ p.sideNames side) (p.interfaces d side) =
      true := by
  intro d _
  cases d using Dimensions.pairs <;> decide +kernel

theorem ended_routine : ∀ d ∈ Dimensions.all, ∀ p ∈ routineList, ∀ side ∈ p.routineSides,
    (p = orientation → d.isManifold = true) →
      (p.lines d side).getLast?.any (fun line => !line.isEmpty) = true := by
  intro d _
  cases d using Dimensions.pairs <;> decide +kernel

variable {p : Passage} {side : Option Side} {d : Dimensions} {done ps : List Passage}

theorem described (p : Passage) (d : Dimensions) (side : Option Side) :
    Forall₂ (fun line i => Interface.Describes i line) (p.lines d side) (p.interfaces d side) := by
  have hsteps := all_eq_true.1 (legible_all d d.mem_all p (mem_all p) side (mem_sides side))
  have hnotes := noteIsLine p d side
  unfold lines interfaces
  generalize p.steps d side = steps at hsteps hnotes ⊢
  induction steps with
  | nil => exact Forall₂.nil
  | cons step steps ih =>
    rw [flatMap_cons, flatMap_cons]
    rw [forall_mem_cons] at hsteps hnotes
    exact rel_append (Step.described_of_isLegible hsteps.1 hnotes.1) (ih hsteps.2 hnotes.2)

theorem declares_lines (p : Passage) (d : Dimensions) (side : Option Side) :
    (p.lines d side).filterMap declares = p.declared d side :=
  filterMap_declares (described p d side)

theorem lines_text (ps : List Passage) (d : Dimensions) (side : Option Side) :
    Text.lines (String.join (ps.map fun p => p.text d side)) =
      ps.flatMap fun p => p.lines d side := by
  have htext : String.join (ps.map fun p => p.text d side) =
      String.join ((ps.flatMap fun p => p.lines d side).map (· ++ "\n")) := by
    refine String.toList_injective ?_
    simp only [String.toList_join, text, lines, flatMap_map, flatMap_assoc, map_flatMap]
  rw [htext]
  refine Text.lines_join fun line hline => ?_
  rcases mem_flatMap.1 hline with ⟨p, _, hline⟩
  exact forall₂_left (described p d side) (fun _ _ hi => hi.isLine) line hline

/-- Each passage comes once, and behind those it reads from. -/
def isOrdered : List Passage → List Passage → Bool
  | _, [] => true
  | done, p :: rest =>
    !done.contains p && p.required.all done.contains && isOrdered (done ++ [p]) rest

theorem visit_of_mem (h : p ∈ done) : visit done p = done := by
  rw [visit, if_pos h]

theorem visit_of_required (h : p ∉ done) (hrequired : ∀ q ∈ p.required, q ∈ done) :
    visit done p = done ++ [p] := by
  have hfold : ∀ qs : List { q // q ∈ p.required },
      qs.foldl (fun done q => visit done q.1) done = done := by
    intro qs
    induction qs with
    | nil => rfl
    | cons q qs ih => rw [foldl_cons, visit_of_mem (hrequired q.1 q.2), ih]
  rw [visit, if_neg h, hfold]

theorem foldl_visit (h : isOrdered done ps = true) : ps.foldl visit done = done ++ ps := by
  induction ps generalizing done with
  | nil => exact (append_nil done).symm
  | cons p rest ih =>
    rw [isOrdered, Bool.and_eq_true, Bool.and_eq_true, Bool.not_eq_true', all_eq_true] at h
    have hp : p ∉ done := fun hmem => Bool.false_ne_true (h.1.1.symm.trans
      (contains_iff_mem.2 hmem))
    have hrequired : ∀ q ∈ p.required, q ∈ done := fun q hq =>
      contains_iff_mem.1 (h.1.2 q hq)
    rw [foldl_cons, visit_of_required hp hrequired, ih h.2, append_assoc, singleton_append]

theorem complete_of_isOrdered (h : isOrdered [] ps = true)
    (hsorted : ps.Pairwise fun a b => a.rank ≤ b.rank) : complete ps = ps := by
  rw [complete, mergeSort_of_pairwise (hsorted.imp fun hab => decide_eq_true hab),
    foldl_visit h, nil_append]

theorem scoped_passages {known : List String} (hordered : isOrdered done ps = true)
    (hscope : ∀ p ∈ ps, inScope (p.required.flatMap (·.declared d side) ++ p.sideNames side)
      (p.interfaces d side) = true) (hstandard : ∀ x ∈ standardNames, x ∈ known)
    (hside : ∀ p ∈ ps, ∀ x ∈ p.sideNames side, x ∈ known)
    (hdone : ∀ p ∈ done, ∀ x ∈ p.declared d side, x ∈ known) :
    Scoped known (ps.flatMap fun p => p.lines d side ++ [""]) := by
  induction ps generalizing done known with
  | nil => trivial
  | cons p rest ih =>
    rw [isOrdered, Bool.and_eq_true, Bool.and_eq_true, all_eq_true] at hordered
    have hinputs : ∀ x ∈ p.required.flatMap (·.declared d side) ++ p.sideNames side,
        x ∈ known := by
      intro x hx
      rcases mem_append.1 hx with hx | hx
      · rcases mem_flatMap.1 hx with ⟨q, hq, hx⟩
        exact hdone q (contains_iff_mem.1 (hordered.1.2 q hq)) x hx
      · exact hside p mem_cons_self x hx
    rw [flatMap_cons, append_assoc]
    refine Scoped.append (scoped_of_inScope (described p d side) hstandard ?_) ?_
    · exact inScope_mono (hscope p mem_cons_self) hinputs
    · rw [declares_lines]
      -- The blank line neither declares nor reads.
      rcases declares_eq_none_of_blank "" rfl with ⟨hdeclares, hreads⟩
      refine ⟨fun x hx => absurd (hreads ▸ hx) not_mem_nil, ?_⟩
      rw [hdeclares, Option.toList_none, nil_append]
      refine ih hordered.2 (fun q hq => hscope q (mem_cons_of_mem p hq)) ?_ ?_ ?_
      · exact fun x hx => mem_append_left _ (hstandard x hx)
      · exact fun q hq x hx =>
          mem_append_left _ (hside q (mem_cons_of_mem p hq) x hx)
      · intro q hq x hx
        rcases mem_append.1 hq with hq | hq
        · exact mem_append_left _ (hdone q hq x hx)
        · rw [mem_singleton.1 hq] at hx
          exact mem_append_right _ hx

end Passage

/-- The scale factor of a routine: that of the cell, or that of the facet on its plus side. -/
def scalePassages (kind : Integral) (side : Option Side) : List Passage :=
  if kind = .cell then [.scaleFactor] else if side = some .minus then [] else [.facetDeterminant]

/-- The passages of one side. -/
def sidePassages (kind : Integral) (side : Option Side) (oriented : Bool) : List Passage :=
  [.jacobian, .inverseJacobian] ++ (if oriented then [.orientation] else []) ++
    scalePassages kind side

/-- Whether a routine checks the orientation on one side. -/
def isOriented (d : Dimensions) (symbols : List Symbol) (side : Option Side) : Bool :=
  d.isManifold && symbols.contains (.determinant side)

theorem routinePassages_eq (d : Dimensions) (kind : Integral) (symbols : List Symbol)
    (side : Option Side) :
    routinePassages d kind symbols side = sidePassages kind side (isOriented d symbols side) := rfl

/-- All lines in front of a routine, before pruning. -/
def routineLines (d : Dimensions) (kind : Integral) (symbols : List Symbol) : List String :=
  (routineSides kind).flatMap fun side =>
    (sidePassages kind side (isOriented d symbols side)).flatMap fun p => p.lines d side ++ [""]

section

variable {kind : Integral} {side : Option Side} {oriented : Bool}

theorem ordered_sidePassages (kind : Integral) (side : Option Side) (oriented : Bool) :
    isOrdered [] (sidePassages kind side oriented) = true ∧
      (sidePassages kind side oriented).Pairwise fun a b => a.rank ≤ b.rank := by
  unfold sidePassages scalePassages
  split <;> split <;> try split
  all_goals decide

theorem complete_sidePassages (kind : Integral) (side : Option Side) (oriented : Bool) :
    complete (sidePassages kind side oriented) = sidePassages kind side oriented :=
  complete_of_isOrdered (ordered_sidePassages kind side oriented).1
    (ordered_sidePassages kind side oriented).2

def integrals : List Integral := [.cell, .exteriorFacet, .interiorFacet]

theorem mem_integrals (kind : Integral) : kind ∈ integrals := by
  cases kind with
  | cell | exteriorFacet | interiorFacet => decide

theorem mem_sidePassages : ∀ {side}, side ∈ routineSides kind → ∀ {oriented p},
    p ∈ sidePassages kind side oriented →
      p ∈ routineList ∧ side ∈ p.routineSides ∧ (p = .orientation → oriented = true) := by
  cases kind <;> decide

end

namespace Listing

def texts (l : Listing) : List String := l.lines.toList.map Line.text

theorem texts_push (l : Listing) (s : String) : (l.push s).texts = l.texts ++ Text.lines s := by
  rw [texts, push, Array.toList_append, map_append, toList_toArray, map_map]
  exact congrArg (l.texts ++ ·) (map_id _)

theorem texts_push_blank (l : Listing) :
    (Listing.mk (l.lines.push ⟨0, ""⟩) l.level).texts = l.texts ++ [""] := by
  rw [texts, Array.toList_push, map_append]
  rfl

theorem texts_blank {l : Listing} (h : l.texts.getLast?.all (fun line => !line.isEmpty) = true) :
    l.blank.texts = l.texts ++ [""] := by
  unfold blank
  split
  · next line hline =>
    rw [texts, getLast?_map, Array.getLast?_toList, hline, Option.map_some, Option.all_some,
      Bool.not_eq_true'] at h
    rw [if_neg (by rw [h]; exact Bool.false_ne_true)]
    exact l.texts_push_blank
  · exact l.texts_push_blank

end Listing

/-- What one element of a list is mapped to stands in the mapped list in one piece. -/
theorem infix_flatMap {β γ : Type} {x : β} {xs : List β} (f : β → List γ) (h : x ∈ xs) :
    f x <:+: xs.flatMap f := by
  rcases append_of_mem h with ⟨front, back, rfl⟩
  rw [flatMap_append, flatMap_cons, ← append_assoc]
  exact infix_append _ _ _

section

variable {d : Dimensions} {kind : Integral} {symbols : List Symbol} {side : Option Side}

/-- Passages are appended line by line, with a blank line behind each of them. -/
theorem texts_foldl_passages (hside : side ∈ routineSides kind) {oriented : Bool}
    (horiented : oriented = true → d.isManifold = true) {ps : List Passage}
    (hps : ∀ p ∈ ps, p ∈ sidePassages kind side oriented) (l : Listing) :
    (ps.foldl (fun l p => (l.push (p.text d side)).blank) l).texts =
      l.texts ++ ps.flatMap fun p => p.lines d side ++ [""] := by
  induction ps generalizing l with
  | nil => exact (append_nil _).symm
  | cons p rest ih =>
    have hp := hps p mem_cons_self
    rcases mem_sidePassages hside hp with ⟨hroutine, hpside, hcheck⟩
    have hended := ended_routine d d.mem_all p hroutine side hpside
      fun h => horiented (hcheck h)
    have hpush : (l.push (p.text d side)).texts = l.texts ++ p.lines d side := by
      have hlines := lines_text [p] d side
      rw [map_singleton, flatMap_singleton] at hlines
      rw [Listing.texts_push, ← hlines, String.join, foldl_cons, foldl_nil, String.empty_append]
    have hlast : (l.push (p.text d side)).texts.getLast?.all (fun line => !line.isEmpty) =
        true := by
      rcases (Option.any_eq_true _ _).1 hended with ⟨line, hline, hblank⟩
      rw [hpush, getLast?_append, hline, Option.some_or, Option.all_some, hblank]
    rw [foldl_cons, ih fun q hq => hps q (mem_cons_of_mem p hq),
      Listing.texts_blank hlast, hpush, flatMap_cons]
    simp only [append_assoc]

theorem texts_geometryListing (d : Dimensions) (kind : Integral) (symbols : List Symbol) :
    (geometryListing d kind symbols).texts = routineLines d kind symbols := by
  have hmanifold : ∀ side, isOriented d symbols side = true → d.isManifold = true :=
    fun side h => (Bool.and_eq_true_iff.1 h).1
  have hfold : ∀ (sides : List (Option Side)) (l : Listing), (∀ side ∈ sides, side ∈ routineSides kind) →
      (sides.foldl (fun l side => (complete (routinePassages d kind symbols side)).foldl
        (fun l p => (l.push (p.text d side)).blank) l) l).texts = l.texts ++
          sides.flatMap fun side => (sidePassages kind side (isOriented d symbols side)).flatMap
            fun p => p.lines d side ++ [""] := by
    intro sides
    induction sides with
    | nil => exact fun l _ => (append_nil _).symm
    | cons side sides ih =>
      intro l hsides
      rw [foldl_cons, ih _ fun s hs => hsides s (mem_cons_of_mem side hs),
        routinePassages_eq, complete_sidePassages,
        texts_foldl_passages (hsides side mem_cons_self) (hmanifold side) fun p hp => hp,
        flatMap_cons, append_assoc]
  exact hfold (routineSides kind) .empty fun side hside => hside

theorem declares_routineLines (d : Dimensions) (kind : Integral) (symbols : List Symbol) :
    (routineLines d kind symbols).filterMap declares = (routineSides kind).flatMap fun side =>
      (sidePassages kind side (isOriented d symbols side)).flatMap fun p => p.declared d side := by
  have hblank : [""].filterMap declares = [] := by decide
  rw [routineLines, filterMap_flatMap]
  refine flatMap_congr fun side hside => ?_
  rw [filterMap_flatMap]
  refine flatMap_congr fun p hp => ?_
  rw [filterMap_append, hblank, append_nil, declares_lines]

theorem sideNames_ambient : ∀ {side}, side ∈ routineSides kind → ∀ {oriented p},
    p ∈ sidePassages kind side oriented → ∀ {x}, x ∈ p.sideNames side → x ∈ ambient kind := by
  cases kind <;> decide +kernel

theorem scoped_routineLines (d : Dimensions) (kind : Integral) (symbols : List Symbol) :
    Scoped (ambient kind) (routineLines d kind symbols) := by
  have hstandard : ∀ x ∈ standardNames, x ∈ ambient kind := fun x hx =>
    mem_append_left _ (mem_append_right _ hx)
  -- The sides follow each other, and every side knows all it needs from the parameters.
  have hsides : ∀ (sides : List (Option Side)) (known : List String),
      (∀ side ∈ sides, side ∈ routineSides kind) → (∀ x ∈ ambient kind, x ∈ known) →
        Scoped known (sides.flatMap fun side =>
          (sidePassages kind side (isOriented d symbols side)).flatMap fun p =>
            p.lines d side ++ [""]) := by
    intro sides
    induction sides with
    | nil => exact fun known _ _ => trivial
    | cons side sides ih =>
      intro known hsides hknown
      have hside := hsides side mem_cons_self
      rw [flatMap_cons]
      refine Scoped.append ?_ (ih _ (fun s hs => hsides s (mem_cons_of_mem side hs))
        fun x hx => mem_append_left _ (hknown x hx))
      exact scoped_passages (ordered_sidePassages kind side _).1
        (fun p hp => inScope_routine d d.mem_all p (mem_sidePassages hside hp).1 side
          (mem_sidePassages hside hp).2.1) (fun x hx => hknown x (hstandard x hx))
        (fun p hp x hx => hknown x (sideNames_ambient hside hp hx))
        fun p hp => absurd hp not_mem_nil
  exact hsides (routineSides kind) _ (fun side hside => hside) fun x hx => hx

theorem nodup_longest : ∀ d ∈ Dimensions.all, ∀ kind ∈ integrals,
    ((routineSides kind).flatMap fun side => (sidePassages kind side d.isManifold).flatMap fun p =>
      p.declared d side).Nodup := by
  intro d _
  cases d using Dimensions.pairs <;> decide +kernel

theorem nodup_routineLines (d : Dimensions) (kind : Integral) (symbols : List Symbol) :
    ((routineLines d kind symbols).filterMap declares).Nodup := by
  rw [declares_routineLines]
  refine (nodup_longest d d.mem_all kind (mem_integrals kind)).sublist ?_
  refine List.Sublist.flatMap_right _ fun side _ => List.Sublist.flatMap ?_ _
  -- Leaving the orientation out leaves a part of the longest list.
  unfold sidePassages isOriented
  refine Sublist.append_right (Sublist.append_left ?_ _) _
  cases d.isManifold with
  | false => exact Sublist.refl _
  | true =>
    split
    · exact Sublist.refl _
    · exact nil_sublist _

theorem entry_mem_declared : ∀ d ∈ Dimensions.all, ∀ side ∈ [none, some Side.plus, some Side.minus],
    ∀ row ∈ range 3, ∀ col ∈ range 3, (row < d.gdim → col < d.tdim →
        symbol (.jacobian side row col) ∈ jacobian.declared d side) ∧ (row < d.tdim → col < d.gdim →
        symbol (.inverse side row col) ∈ inverseJacobian.declared d side) := by
  intro d _
  cases d using Dimensions.pairs <;> decide +kernel

theorem determinant_mem_declared : ∀ d ∈ Dimensions.all,
    ∀ side ∈ [none, some Side.plus, some Side.minus],
      symbol (.determinant side) ∈ inverseJacobian.declared d side := by
  decide +kernel

theorem scale_mem_declared : ∀ d ∈ Dimensions.all, symbol .scale ∈ scaleFactor.declared d none ∧
      ∀ side ∈ [none, some Side.plus], symbol .scale ∈ facetDeterminant.declared d side := by
  decide +kernel

theorem symbol_mem_routineLines (symbols : List Symbol) (hside : side ∈ routineSides kind) {s : Symbol}
    (hwithin : s.Within d) (hon : s.On side) :
    symbol s ∈ (routineLines d kind symbols).filterMap declares := by
  have hdims := d.mem_all
  have hgdim := d.gdim_le
  have htdim := Nat.le_trans d.tdim_le d.gdim_le
  -- A name is declared by one of the passages of its side.
  have hdeclared : ∀ side ∈ routineSides kind, ∀ p, (∀ oriented, p ∈ sidePassages kind side oriented) →
      symbol s ∈ p.declared d side →
        symbol s ∈ (routineLines d kind symbols).filterMap declares := by
    intro side hside p hp hmem
    rw [declares_routineLines]
    exact mem_flatMap.2 ⟨side, hside, mem_flatMap.2 ⟨p, hp _, hmem⟩⟩
  have hjacobian : ∀ oriented, jacobian ∈ sidePassages kind side oriented :=
    fun _ => mem_cons_self
  have hinverse : ∀ oriented, inverseJacobian ∈ sidePassages kind side oriented :=
    fun _ => mem_cons_of_mem _ mem_cons_self
  cases s with
  | jacobian side' row col =>
    rw [show side' = side from hon] at hdeclared ⊢
    refine hdeclared side hside _ hjacobian ((entry_mem_declared d hdims side (mem_sides side) row
      ?_ col ?_).1 hwithin.1 hwithin.2)
    · exact mem_range.2 (Nat.lt_of_lt_of_le hwithin.1 hgdim)
    · exact mem_range.2 (Nat.lt_of_lt_of_le hwithin.2 htdim)
  | inverse side' row col =>
    rw [show side' = side from hon] at hdeclared ⊢
    refine hdeclared side hside _ hinverse ((entry_mem_declared d hdims side (mem_sides side) row
      ?_ col ?_).2 hwithin.1 hwithin.2)
    · exact mem_range.2 (Nat.lt_of_lt_of_le hwithin.1 htdim)
    · exact mem_range.2 (Nat.lt_of_lt_of_le hwithin.2 hgdim)
  | determinant side' =>
    rw [show side' = side from hon] at hdeclared ⊢
    exact hdeclared side hside _ hinverse (determinant_mem_declared d hdims side (mem_sides side))
  | scale =>
    have hscale := scale_mem_declared d hdims
    cases kind with
    | cell => exact hdeclared none (by decide) .scaleFactor (by decide) hscale.1
    | exteriorFacet =>
      exact hdeclared none (by decide) .facetDeterminant (by decide) (hscale.2 none (by decide))
    | interiorFacet =>
      exact hdeclared (some .plus) (by decide) .facetDeterminant (by decide)
        (hscale.2 (some .plus) (by decide))

theorem orientation_inside (hside : side ∈ routineSides kind)
    (horiented : isOriented d symbols side = true) :
    (Step.orientation side).lines <:+: routineLines d kind symbols := by
  have hmanifold : d.isManifold = true := (Bool.and_eq_true_iff.1 horiented).1
  have hlines : orientation.lines d side = (Step.orientation side).lines := by
    rw [Passage.lines, steps, if_pos hmanifold]
    exact append_nil _
  have hpassage : orientation ∈ sidePassages kind side (isOriented d symbols side) := by
    rw [horiented]
    exact mem_append_left _ (mem_append_right _ mem_cons_self)
  rw [← hlines]
  have hside := infix_flatMap (fun side => (sidePassages kind side (isOriented d symbols side)).flatMap
    fun p => p.lines d side ++ [""]) hside
  have hpassage := infix_flatMap (fun p => p.lines d side ++ [""]) hpassage
  exact ((List.prefix_append _ [""]).isInfix.trans hpassage).trans hside

theorem marker_declared : ∀ d ∈ Dimensions.all, ∀ p ∈ routineList,
    ∀ side' ∈ p.routineSides, ∀ side ∈ [none, some Side.plus, some Side.minus],
      Step.markerName side ∈ p.declared d side' → p = .orientation ∧ side = side' := by
  intro d _
  cases d using Dimensions.pairs <;> decide +kernel

theorem marker_not_mem_routineLines (horiented : isOriented d symbols side = false) :
    Step.markerName side ∉ (routineLines d kind symbols).filterMap declares := by
  rw [declares_routineLines]
  intro hmem
  rcases mem_flatMap.1 hmem with ⟨side', hside', hmem⟩
  rcases mem_flatMap.1 hmem with ⟨p, hp, hmem⟩
  rcases mem_sidePassages hside' hp with ⟨hroutine, hpside, hcheck⟩
  rcases marker_declared d d.mem_all p hroutine side' hpside side (mem_sides side) hmem with
    ⟨rfl, rfl⟩
  rw [horiented] at hcheck
  exact Bool.false_ne_true (hcheck rfl)

end
end WeakForm
