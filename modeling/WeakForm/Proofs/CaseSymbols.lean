import WeakForm.Proofs.GeometryNames
import WeakForm.Proofs.QuadratureCode
import WeakForm.Proofs.Representations

/-!
# The symbols of a case

The code of a case comes with a list of symbols, and the geometry in front of a routine
is chosen by that list. The list and the code are computed side by side: from the powers
of the stored constants, and from their text. Both hold the same symbols, since powers
have no exponent zero, so every symbol with an exponent is also written.

Which symbols there can be is followed from where they enter. A factor on one side of a
facet is expanded with the symbols of that side, a contraction knows only cells without a
side, and the scale belongs to all of them. Products and sums of such monomials stay
within these symbols, through the stores and through the merging of entries.

`CaseCode.Faithful` is the result for both representations. All else that a case writes is
silent: declarations of tables and weights, loops, and notes.

## Theorems

* `GeometrySum.mem_names_toExpr`: The names in the text of a sum are its symbols.
* `expandFactor_proper`: The tables of a factor have the symbols of its side.
* `quadratureCase_faithful`, `contractionCase_faithful`: The cases of both representations
  are faithful.
-/

namespace WeakForm

open List Success Text Powers

variable {α : Type}

theorem Expr.names_productOf {ν α : Type} (x : α) (es : List (Expr ν α)) :
    (productOf (.literal x) es).names = es.flatMap names := by
  have hfold : ∀ (es : List (Expr ν α)) (e : Expr ν α),
      (es.foldl mul e).names = e.names ++ es.flatMap names := by
    intro es
    induction es with
    | nil => exact fun e => (append_nil _).symm
    | cons e' es ih =>
      intro e
      rw [foldl_cons, ih, names, append_assoc]
      rfl
  cases es with
  | nil => rfl
  | cons e es => exact hfold es e

variable {sum : GeometrySum α}

section

variable [Scalar α]

variable {s : Symbol}

namespace GeometryMonomial

theorem names_magnitude (m : GeometryMonomial α) :
    m.magnitude.names = m.numerators ++ m.denominators := by
  have hnames : ∀ ss : List Symbol, (ss.map (Expr.name (α := α))).flatMap Expr.names = ss := by
    intro ss
    rw [flatMap_map]
    exact flatMap_singleton' ss
  have hnumerator : (Expr.productOf (.literal 1)
      ((if Scalar.eq (Scalar.abs m.coefficient) 1 then [] else
        [.literal (Scalar.abs m.coefficient)]) ++ m.numerators.map .name)).names = m.numerators := by
    rw [Expr.names_productOf, flatMap_append, hnames]
    split <;> rfl
  unfold magnitude
  simp only
  cases hdenominators : m.denominators with
  | nil => rw [map_nil, append_nil, hnumerator]
  | cons s ss =>
    cases ss with
    | nil => exact congrArg (· ++ [s]) hnumerator
    | cons s' ss =>
      refine congrArg₂ (· ++ ·) hnumerator ?_
      exact (Expr.names_productOf 1 _).trans (hnames (s :: s' :: ss))

theorem names_toExpr (m : GeometryMonomial α) : m.toExpr.names = m.magnitude.names := by
  unfold toExpr
  split <;> rfl

theorem mem_names_toExpr {m : GeometryMonomial α} (h : m.powers.Nonzero) :
    s ∈ m.toExpr.names ↔ s ∈ m.powers.map Prod.fst := by
  rw [names_toExpr, names_magnitude, numerators, denominators, mem_append, mem_flatMap, mem_flatMap,
    mem_map]
  constructor
  · rintro (⟨x, hx, hs⟩ | ⟨x, hx, hs⟩)
    · exact ⟨x, hx, (mem_replicate.1 hs).2.symm⟩
    · exact ⟨x, hx, (mem_replicate.1 hs).2.symm⟩
  · rintro ⟨x, hx, rfl⟩
    -- An exponent other than zero is positive in the numerator or in the denominator.
    rcases Int.lt_or_gt_of_ne (h x hx) with hneg | hpos
    · exact Or.inr ⟨x, hx, mem_replicate.2 ⟨by omega, rfl⟩⟩
    · exact Or.inl ⟨x, hx, mem_replicate.2 ⟨by omega, rfl⟩⟩

end GeometryMonomial

theorem GeometrySum.names_toExpr (sum : GeometrySum α) :
    sum.toExpr.names = sum.terms.flatMap fun t => t.toExpr.names := by
  refine toExpr_along (C := fun ts e => e.names = ts.flatMap fun t => t.toExpr.names) rfl
    (fun t => (append_nil _).symm) (fun ts t e _ _ ih => ?_) (fun ts t e _ _ ih => ?_) sum
  all_goals
    rw [flatMap_append, ← ih, flatMap_singleton, GeometryMonomial.names_toExpr]
    rfl

theorem GeometrySum.mem_names_toExpr
    (h : ∀ t ∈ sum.terms, t.powers.Nonzero) : s ∈ sum.toExpr.names ↔ s ∈ sum.symbols := by
  rw [names_toExpr, symbols, mem_flatMap, mem_flatMap]
  exact exists_congr fun t => and_congr_right fun ht => GeometryMonomial.mem_names_toExpr (h t ht)

/-- Powers over given symbols, each of which has an exponent. -/
structure Powers.Proper (P : Symbol → Prop) (p : Powers) : Prop where
  symbols : p.Over P
  nonzero : p.Nonzero

namespace Powers.Proper

variable {P Q : Symbol → Prop}

theorem nil : Proper P [] :=
  ⟨nofun, nofun⟩

theorem single {e : Int} (hs : P s) (he : e ≠ 0) : Proper P [(s, e)] :=
  ⟨forall_mem_singleton.2 hs, forall_mem_singleton.2 he⟩

theorem mono {p : Powers} (h : Proper P p) (hPQ : ∀ s, P s → Q s) : Proper Q p :=
  ⟨fun x hx => hPQ x.1 (h.symbols x hx), h.nonzero⟩

theorem mul {a b c : GeometryMonomial α} (h : a.mul b = .ok c) (ha : Proper P a.powers)
    (hb : Proper P b.powers) : Proper P c.powers := by
  rcases bind_eq_ok.1 h with ⟨p, hp, h⟩
  cases h
  exact ⟨over_mul hp ha.symbols hb.symbols, nonzero_mul hp ha.nonzero⟩

end Powers.Proper

/-- Transforms multiply symbols of their side, and leave the scale to the integral. The values play
    no part here, so any will do. -/
theorem MapEntries.symbolic_related_proper (d : Dimensions) (side : Option Side) :
    (symbolic d side).Related (fun (m : GeometryMonomial α) (_ : ℚ) =>
        m.powers.Proper fun s => s ≠ .scale ∧ s.Within d ∧ s.On side)
      (valued d side fun _ => 1) where
  dims := rfl
  one := Proper.nil
  mul := fun ha hb hc _ => Proper.mul hc ha hb
  jacobian := by
    intro row col x y hrow hcol hx _
    cases hx
    exact Proper.single ⟨Symbol.noConfusion, ⟨hrow, hcol⟩, rfl⟩ (by decide)
  inverse := by
    intro row col x y hrow hcol hx _
    cases hx
    exact Proper.single ⟨Symbol.noConfusion, ⟨hrow, hcol⟩, rfl⟩ (by decide)
  inverseDeterminant := Proper.single ⟨Symbol.noConfusion, trivial, rfl⟩ (by decide)

theorem expandFactor_proper {e : Element} {factor : Factor} {t : Table α} {d : Dimensions}
    {epsilon : α} {tables : List (ScaledTable α)}
    (h : expandFactor e factor t d epsilon = .ok tables) : ∀ x ∈ tables,
      x.geometry.powers.Proper fun s => s ≠ .scale ∧ s.Within d ∧ s.On factor.side := by
  intro x hx
  rcases Expand.related_of_mem_expandFactor (MapEntries.symbolic_related_proper d factor.side) h x hx
    with ⟨c, _, hc, hproper⟩
  rwa [hc]

end

variable {dims : List Nat} {ms : List (Monomial α)} {number : α → String} {facets : Facets}
  {points operations : Nat} {constants : ConstantStore α} {factorise : Bool} {code : Code α}

section

variable [Scalar α] {P : Symbol → Prop} {Q R : Powers → Prop} {stores : Stores α}
  {terms : List (PointTerm α)}

/-- A term whose products have given powers of symbols. -/
def PointTerm.All (R : Powers → Prop) (t : PointTerm α) : Prop :=
  ∀ x ∈ t.products, R x.geometry.powers

/-- Tables whose geometry has given powers of symbols. -/
def TermTables.All (Q : Powers → Prop) (t : TermTables α) : Prop :=
  ∀ x ∈ t.factors, ∀ table ∈ x.1, Q table.geometry.powers

/-- A product has what the scale has and multiplication with the tables keeps. -/
theorem Product.Made.powers {rows : List (List α) → Prop} {store : TableStore α}
    {scale : GeometryMonomial α} {picks : List (Pick α)} {x : Product α}
    (h : x.Made rows store scale picks)
    (hmul : ∀ a b c : GeometryMonomial α, a.mul b = .ok c → R a.powers → Q b.powers → R c.powers)
    (hscale : R scale.powers)
    (hpicks : ∀ z ∈ picks, ∀ table ∈ z.1.1, Q table.geometry.powers) : R x.geometry.powers := by
  refine foldlM_invariant (P := fun g => R g.powers) h.geometry hscale ?_
  intro z hz a b ha hb
  rcases bind_eq_ok.1 hb with ⟨table, htable, hproduct⟩
  exact hmul _ _ _ hproduct ha (hpicks z hz table (mem_of_getElem? (entryAt_eq_ok.1 htable)))

theorem storeTerms_powers {s : Setting α} {f : Form α} {d : Dimensions}
    (h : storeTerms s f d facets ms = .ok (terms, stores))
    (hmul : ∀ a b c : GeometryMonomial α, a.mul b = .ok c → R a.powers → Q b.powers → R c.powers)
    (hscale : R [(.scale, 1)])
    (hms : ∀ m ∈ ms, ∀ t, quadratureTerm s f d m facets = .ok t → t.All Q) :
    ∀ t ∈ terms, t.All R ∧ ∃ m ∈ ms, ∃ tables, quadratureTerm s f d m facets = .ok tables ∧
      t.points = tables.weights.length := by
  rcases storeTerms_made h (Q := fun _ => True) fun _ _ _ _ _ _ _ _ => trivial with
    ⟨calls, xs, _, _, _, hxs, rfl⟩
  intro t ht
  rcases exists_made hxs t ht with ⟨m, hm, tables, htables, hmade⟩
  refine ⟨fun x hx => ?_, m, hm, tables, htables, hmade.points⟩
  rcases forall₂_mem hmade.products.flip hx with ⟨choice, _, hproduct⟩
  exact hproduct.powers hmul hscale fun z hz => hms m hm tables htables z.1 (of_mem_zip hz).1

/-- Constants whose sums have given powers of symbols. -/
def ConstantStore.All (R : Powers → Prop) (s : ConstantStore α) : Prop :=
  ∀ c ∈ s.constants, ∀ t ∈ c.2.terms, R t.powers

theorem ConstantStore.all_register {s : ConstantStore α} (hs : s.All R) (number : α → String)
    (hsum : ∀ t ∈ sum.terms, R t.powers) :
    (s.register number sum).2.All R := by
  unfold register
  simp only
  split
  · exact hs
  · exact forall_mem_append.2 ⟨hs, forall_mem_singleton.2 hsum⟩

theorem PointLoop.geometryFactor_all (hs : constants.All R) (number : α → String)
    (hsum : ∀ t ∈ sum.terms, R t.powers) :
    (geometryFactor number constants sum).2.All R := by
  have hregister := ConstantStore.all_register hs number hsum
  unfold geometryFactor
  simp only
  split
  · split
    · exact hs
    · exact hregister
  · exact hregister

theorem PointLoop.step_all {state state' : ConstantStore α × List (Nest α)} {e : PointEntry α}
    (h : step number dims points state e = .ok state') (hstate : state.1.All R)
    (he : ∀ g ∈ e.geometry, R g.powers) : state'.1.All R := by
  unfold step at h
  simp only at h
  split at h
  · cases h
    exact hstate
  · rcases bind_eq_ok.1 h with ⟨_, _, h⟩
    cases h
    exact geometryFactor_all hstate number 
      (GeometrySum.forall_ofTerms (P := fun m => R m.powers) (fun _ _ _ ht => ht) he)

theorem pointLoop_all {constants' : ConstantStore α}
    (h : pointLoop number factorise dims constants points terms =
      .ok (code, operations, constants')) (hconstants : constants.All R)
    (hterms : ∀ t ∈ terms, t.All R) : constants'.All R := by
  rcases pointLoop_eq_ok h with ⟨_, _, hfold, _⟩
  have hentries := PointLoop.forall_entries (Q := fun _ _ => True)
    (R := fun g => R g.powers) factorise
    fun t ht x hx => ⟨trivial, hterms t ht x hx⟩
  exact foldlM_invariant (P := fun state => state.1.All R) hfold hconstants
    fun e he a b ha hb => PointLoop.step_all hb ha (hentries e he).2

end

namespace Code

section

theorem notes_all (cs : List (Code α)) : (all cs).notes = cs.flatMap notes := by
  induction cs with
  | nil => rfl
  | cons c cs ih => exact congrArg (c.notes ++ ·) ih

end

variable [Scalar α] {cs : List (Code α)} {body : Code α}

theorem symbols_all (cs : List (Code α)) : (all cs).symbols = cs.flatMap symbols := by
  induction cs with
  | nil => rfl
  | cons c cs ih => exact congrArg (c.symbols ++ ·) ih

/-- Code without symbols, and with notes that name no geometry. -/
structure Silent (c : Code α) : Prop where
  symbols : c.symbols = []
  notes : ∀ text ∈ c.notes, Quiet text

theorem flatMap_symbols (h : ∀ c ∈ cs, c.Silent) : cs.flatMap symbols = [] :=
  flatMap_eq_nil_iff.2 fun c hc => (h c hc).symbols

theorem quiet_flatMap_notes (h : ∀ c ∈ cs, c.Silent) : ∀ text ∈ cs.flatMap notes, Quiet text := by
  intro text htext
  rcases mem_flatMap.1 htext with ⟨c, hc, htext⟩
  exact (h c hc).notes text htext

theorem silent_all (h : ∀ c ∈ cs, c.Silent) : (all cs).Silent := by
  refine ⟨?_, ?_⟩
  · rw [symbols_all, flatMap_symbols h]
  · rw [notes_all]
    exact quiet_flatMap_notes h

theorem silent_note {text : String} (h : Quiet text) : (note text : Code α).Silent :=
  ⟨rfl, forall_mem_singleton.2 h⟩

/-- Code that is neither a note nor holds other code is silent if it declares no geometry. -/
theorem silent_of_leaf {c : Code α} (hsymbols : c.symbols = []) (hnotes : c.notes = []) : c.Silent :=
  ⟨hsymbols, fun _ htext => absurd (hnotes ▸ htext) not_mem_nil⟩

theorem silent_block (h : body.Silent) : (block body).Silent := ⟨h.symbols, h.notes⟩

theorem silent_loop (h : body.Silent) (counter : Counter) (count : Nat) :
    (loop counter count body).Silent := ⟨h.symbols, h.notes⟩

theorem silent_loops (h : body.Silent) (ranges : List (Counter × Nat)) :
    (loops ranges body).Silent := by
  induction ranges with
  | nil => exact h
  | cons range ranges ih => exact silent_loop ih range.1 range.2

theorem silent_reset (enabled : Bool) (size : Nat) :
    (if enabled then reset size else skip : Code α).Silent := by
  split
  · refine silent_block (silent_all ?_)
    simp only [forall_mem_cons]
    exact ⟨silent_note (by decide), silent_loop (silent_of_leaf rfl rfl) _ _,
      silent_of_leaf rfl rfl, nofun⟩
  · exact silent_of_leaf rfl rfl

end Code

variable {c : CaseCode α} {kind : Integral}

section

variable [Scalar α]

open Code

theorem Text.quiet_termTuple (terms : List Nat) : Quiet (termTuple terms) := by
  have hnumbers : ∀ s ∈ terms.map toString, Quiet s := forall_mem_map.2 fun n _ => quiet_toString n
  unfold termTuple
  split
  · exact quiet_append_of_opens (t := ",)") (by decide)
      (quiet_append_of_closes (s := "(") (by decide) (by decide) (quiet_toString _)) (by decide)
  · exact quiet_append_of_opens (by decide) (quiet_append_of_closes (by decide) (by decide)
      (quiet_intercalate ", " (by decide) hnumbers)) (by decide)

theorem WeightStore.quiet_comment (terms : List Nat) : Quiet (comment terms) := by
  unfold comment
  split
  · exact quiet_append_of_opens (t := ")") (by decide)
      (quiet_append_of_closes (by decide) (by decide) (quiet_toString _)) (by decide)
  · exact quiet_append_of_opens (by decide) (quiet_append_of_closes (by decide) (by decide)
      (quiet_termTuple terms)) (by decide)

theorem WeightStore.silent_declarations (s : WeightStore α) : s.declarations.Silent := by
  refine silent_block (silent_all fun c hc => ?_)
  rcases mem_map.1 hc with ⟨group, _, rfl⟩
  exact ⟨rfl, forall_mem_singleton.2 (quiet_comment group.2)⟩

theorem TableStore.silent_declarations (s : TableStore α) : s.declarations.Silent := by
  refine silent_block (silent_all (forall_mem_append.2 ⟨fun c hc => ?_, fun c hc => ?_⟩))
  · rcases mem_map.1 hc with ⟨table, _, rfl⟩
    exact silent_of_leaf rfl rfl
  · rcases mem_map.1 hc with ⟨columns, _, rfl⟩
    exact ⟨rfl, forall_mem_singleton.2 (by decide)⟩

theorem Nest.silent_code (n : Nest α) : n.code.Silent := by
  refine silent_loops (silent_all fun c hc => ?_) _
  rcases mem_map.1 hc with ⟨statement, _, rfl⟩
  exact silent_of_leaf rfl rfl

theorem pointLoop_silent {constants' : ConstantStore α} {terms : List (PointTerm α)}
    (h : pointLoop number factorise dims constants points terms =
      .ok (code, operations, constants')) : code.Silent := by
  rcases pointLoop_eq_ok h with ⟨nests, _, _, _, _, rfl⟩
  have hbody : (Code.all (nests.map Nest.code)).Silent := by
    refine silent_all fun c hc => ?_
    rcases mem_map.1 hc with ⟨n, _, rfl⟩
    exact n.silent_code
  refine silent_all (forall_mem_append.2 ⟨?_, ?_⟩)
  · simp only [forall_mem_cons]
    refine ⟨silent_note ?_, silent_note ?_, nofun⟩
    · exact quiet_append_of_opens (by decide) (quiet_append_of_closes (by decide)
        (by decide) (quiet_termTuple _)) (by decide)
    · exact quiet_append_of_closes (by decide) (by decide) (quiet_toString operations)
  · unfold loopCode
    split
    · exact forall_mem_singleton.2 (silent_loop hbody _ _)
    · simp only [forall_mem_cons]
      exact ⟨silent_note (by decide), silent_block hbody,
        nofun⟩

/-- The symbols of a case are those of its code, and among the given ones. -/
structure CaseCode.Faithful (P : Symbol → Prop) (c : CaseCode α) : Prop where
  notes : ∀ text ∈ c.code.notes, Quiet text
  mem_symbols : ∀ s, s ∈ c.code.symbols ↔ s ∈ c.symbols
  proper : ∀ s ∈ c.symbols, P s

variable {P : Symbol → Prop}

namespace ConstantStore

theorem quiet_declarations (s : ConstantStore α) : ∀ text ∈ s.declarations.notes, Quiet text := by
  intro text htext
  rw [declarations, notes, notes_all, flatMap_append, flatMap_append, mem_append,
    mem_append] at htext
  rcases htext with (htext | htext) | htext
  · cases htext
  · split at htext
    · rw [mem_singleton.1 htext]
      exact quiet_append_of_closes (by decide) (by decide) (quiet_toString _)
    · cases htext
  · rcases mem_flatMap.1 htext with ⟨c, hc, htext⟩
    rcases mem_map.1 hc with ⟨x, _, rfl⟩
    cases htext

variable {s : ConstantStore α}

theorem mem_symbols_declarations (h : s.All (Proper P)) (x : Symbol) :
    x ∈ s.declarations.symbols ↔ x ∈ s.symbols := by
  have hfront : (([.gap] : List (Code α)) ++ (if 0 < s.operations then
      [Code.note s!"Number of operations to compute geometry constants = {s.operations}"]
      else [])).flatMap Code.symbols = [] := by
    split <;> rfl
  rw [declarations, Code.symbols, symbols_all, flatMap_append, hfront, nil_append, flatMap_map,
    symbols, mem_flatMap, mem_flatMap]
  constructor
  · rintro ⟨c, hc, hx⟩
    have hc := fst_mem_of_mem_zipIdx hc
    exact ⟨c.1, hc, (GeometrySum.mem_names_toExpr fun t ht => (h c.1 hc t ht).nonzero).1 hx⟩
  · rintro ⟨c, hc, hx⟩
    rcases mem_iff_getElem?.1 hc with ⟨n, hn⟩
    refine ⟨(c, n), mem_zipIdx_iff_getElem?.2 hn, ?_⟩
    exact (GeometrySum.mem_names_toExpr fun t ht => (h c hc t ht).nonzero).2 hx

omit [Scalar α] in
theorem proper_symbols (h : s.All (Proper P)) : ∀ x ∈ s.symbols, P x := by
  intro x hx
  rcases mem_flatMap.1 hx with ⟨c, hc, hx⟩
  rcases mem_flatMap.1 hx with ⟨t, ht, hx⟩
  rcases mem_map.1 hx with ⟨y, hy, rfl⟩
  exact (h c hc t ht).symbols y hy

end ConstantStore

theorem quadratureCase_faithful {s : Setting α} {f : Form α} {d : Dimensions}
    (h : quadratureCase s f d kind ms facets = .ok c) (hscale : P .scale)
    (hms : ∀ m ∈ ms, ∀ t, quadratureTerm s f d m facets = .ok t → t.All (Proper P)) :
    c.Faithful P := by
  rcases quadratureCase_eq_ok h with
    ⟨terms, stores, loops, _, constants, hterms, hloops, ⟨hsymbols, _⟩, hcode⟩
  have hterms := storeTerms_powers hterms (fun a b c => Proper.mul)
    (Proper.single hscale (by decide)) hms
  -- The loops are silent, and all constants they register are proper.
  have hfold : (∀ c ∈ loops, c.Silent) ∧ constants.All (Proper P) := by
    refine foldlM_invariant (P := fun x => (∀ c ∈ x.1, c.Silent) ∧ x.2.2.All (Proper P))
      hloops ⟨nofun, nofun⟩ ?_
    intro x hx a b ha hb
    rcases loopStep_eq_ok hb with ⟨code, _, hloop, hcodes, _⟩
    rw [hcodes]
    refine ⟨forall_mem_append.2 ⟨ha.1, ?_⟩, ?_⟩
    · simp only [forall_mem_cons]
      exact ⟨silent_of_leaf rfl rfl, silent_block (pointLoop_silent hloop),
        nofun⟩
    · exact pointLoop_all hloop ha.2 fun t ht =>
        (hterms t ((of_mem_byPoints hx).2 t ht).1).1
  have hreset := silent_reset (α := α) s.options.resetTensor (macroDims f kind).prod
  have hweights := stores.weights.silent_declarations
  have htables := stores.tables.silent_declarations
  have hbody := silent_block (silent_all hfold.1)
  refine ⟨?_, fun x => ?_, hsymbols ▸ ConstantStore.proper_symbols hfold.2⟩
  · rw [hcode, Code.notes]
    simp only [notes_all, flatMap_cons, flatMap_nil, forall_mem_append]
    exact ⟨hreset.notes, hweights.notes, htables.notes, constants.quiet_declarations, hbody.notes,
      nofun⟩
  · rw [hcode, hsymbols, Code.symbols]
    simp only [symbols_all, flatMap_cons, flatMap_nil, hreset.symbols, hweights.symbols,
      htables.symbols, hbody.symbols, nil_append, append_nil]
    exact ConstantStore.mem_symbols_declarations hfold.2 x

end

section

variable [Scalar α] {d : Dimensions} {f : Form α} {facet : Option Nat}
  {primary : MultiIndex} {m : Monomial α} {s : Setting α}

open Code

/-- An entry of the geometry tensor of a term has the scale and the inverse Jacobian of a cell
    without a side. -/
theorem TensorTerms.drawnEntry_proper {coefficient : α} {axes a : List Nat} {m : GeometryMonomial α}
    (h : drawnEntry coefficient axes a = .ok m) (haxes : ∀ axis ∈ axes, axis < d.gdim)
    (ha : ∀ t ∈ a, t < d.tdim) : m.powers.Proper fun s => s.Within d ∧ s.On none := by
  rcases bind_eq_ok.1 h with ⟨start, hstart, hfold⟩
  have hstart : start.powers.Proper fun s => s.Within d ∧ s.On none :=
    Proper.mul hstart Proper.nil (Proper.single ⟨trivial, trivial⟩ (by decide))
  refine foldlM_invariant (P := fun m => m.powers.Proper fun s => s.Within d ∧ s.On none) hfold
    hstart ?_
  intro x hx b c hb hc
  rcases bind_eq_ok.1 hc with ⟨t, ht, hc⟩
  have hrow := ha t (mem_of_getElem? (entryAt_eq_ok.1 ht))
  have hcol := haxes x.1 (fst_mem_of_mem_zipIdx hx)
  exact Proper.mul hc hb (Proper.single ⟨⟨hrow, hcol⟩, rfl⟩ (by decide))

theorem TensorTerms.entries_proper {gauss : Gauss.Source α} {tabulator : Tabulator α}
    (hd : f.dims = .ok d) {c c' : Allocator} {t : TensorTerm α}
    (h : (term gauss tabulator f facet primary m).run c = (.ok t, c'))
    {entries : List (List Nat × GeometryMonomial α)} (hentries : t.geometry.entries = .ok entries) :
    ∀ x ∈ entries, x.2.powers.Proper fun s => s.Within d ∧ s.On none := by
  rcases term_eq_ok h with ⟨factors, _, _, _, _, harrange, _, _, _, _, rfl⟩
  have haxes : ∀ axis ∈ factors.flatMap Factor.derivatives, axis < d.gdim := by
    intro axis haxis
    rcases mem_flatMap.1 haxis with ⟨factor, hfactor, haxis⟩
    rcases (Form.arrange_eq_ok hd harrange).2 factor hfactor with ⟨e, hfits⟩
    exact hfits.axes axis haxis
  intro x hx
  rcases forall₂_mem (mapM_eq_ok.1 hentries).flip hx with ⟨a, ha, hx⟩
  rcases bind_eq_ok.1 hx with ⟨entry, hentry, hx⟩
  cases hx
  rw [entry_drawn] at hentry
  have htuple := ha
  rw [MultiIndex.tuples, dims_drawn, Form.tdim_eq hd] at htuple
  exact drawnEntry_proper hentry haxes (Tuple.mem_axes_iff.1 htuple).2

theorem Contraction.silent_statements (terms : List (TensorTerm α)) : ∀ c ∈ statements terms, c.Silent := by
  intro c hc
  rcases exists_of_mem_statements hc with ⟨_, _, rfl⟩
  exact silent_of_leaf rfl rfl

variable {P : Symbol → Prop}

theorem Contraction.code_faithful {s : Setting α} {terms : List (TensorTerm α)}
    (h : Contraction.code s dims terms = .ok c)
    (hterms : ∀ t ∈ terms, ∀ entries, t.geometry.entries = .ok entries →
      ∀ x ∈ entries, x.2.powers.Proper P) : c.Faithful P := by
  rcases code_eq_ok h with ⟨entries, hentries, hsymbols, _, hcode⟩
  have hproper := forall_geometryEntries hentries hterms
  -- Around the declarations of the entries there are only notes, a gap and statements.
  have hreset := silent_reset (α := α) s.options.resetTensor dims.prod
  have hfront : ∀ n : Nat, ∀ c ∈ [(.note "Compute geometry tensors" : Code α),
      .note ("Number of operations to compute geometry tensors = " ++ toString n)], c.Silent := by
    intro n
    simp only [forall_mem_cons]
    exact ⟨silent_note (by decide), silent_note
      (quiet_append_of_closes (by decide) (by decide) (quiet_toString n)), nofun⟩
  have hback : ∀ c ∈ elementCode terms, c.Silent := by
    refine forall_mem_append.2 ⟨?_, silent_statements terms⟩
    simp only [forall_mem_cons]
    exact ⟨silent_of_leaf rfl rfl, silent_note (by decide), silent_note
      (quiet_append_of_closes (by decide) (by decide) (quiet_toString _)), nofun⟩
  refine ⟨?_, fun x => ?_, fun x hx => ?_⟩
  · rw [hcode, Code.notes, notes_all, geometryCode, flatMap_append, flatMap_append]
    simp only [forall_mem_append]
    refine ⟨hreset.notes, ⟨quiet_flatMap_notes (hfront _), fun text htext => ?_⟩,
      quiet_flatMap_notes hback⟩
    rw [flatMap_map] at htext
    rcases mem_flatMap.1 htext with ⟨_, _, htext⟩
    cases htext
  · rw [hcode, hsymbols, Code.symbols, symbols_all, geometryCode, flatMap_append, flatMap_append,
      hreset.symbols, flatMap_symbols (hfront _), flatMap_symbols hback, append_nil, nil_append,
      nil_append, flatMap_map, mem_flatMap, mem_flatMap]
    exact exists_congr fun entry => and_congr_right fun hentry =>
      GeometryMonomial.mem_names_toExpr (hproper entry hentry).nonzero
  · rw [hsymbols] at hx
    rcases mem_flatMap.1 hx with ⟨entry, hentry, hx⟩
    rcases mem_map.1 hx with ⟨y, hy, rfl⟩
    exact (hproper entry hentry).symbols y hy

theorem contractionCase_faithful (hd : f.dims = .ok d) {domain : Nat}
    {allocator allocator' : Allocator}
    (h : (contractionCase s f kind domain ms primary facet).run allocator = (.ok c, allocator')) :
    c.Faithful fun s => s.Within d ∧ s.On none := by
  rcases contractionCase_eq_ok h with ⟨terms, _, hterms, _, _, hcode⟩
  refine Contraction.code_faithful hcode fun t ht entries hentries => ?_
  rcases forall₂_mem (Drawing.run_mapM_eq_ok hterms).flip ht with ⟨m, _, c₁, c₂, hterm⟩
  exact TensorTerms.entries_proper hd hterm hentries

/-- The tables of a monomial have the symbols of the sides of its factors, which are those of its
    integral. -/
theorem quadratureTerm_proper (hd : f.dims = .ok d)
    (hP : ∀ side : Option Side, side.isSome = decide (m.integral = .interiorFacet) →
      ∀ s : Symbol, s ≠ .scale → s.Within d → s.On side → P s) {t : TermTables α}
    (h : quadratureTerm s f d m facets = .ok t) : t.All (Proper P) := by
  rcases quadratureTerm_eq_ok h with ⟨factors, _, _, _, harrange, _, _, _, _, htables⟩
  intro x hx table htable
  rcases forall₂_mem htables.flip hx with ⟨factor, hfactor, e, _, _, _, _, hexpand⟩
  rcases (Form.arrange_eq_ok hd harrange).2 factor hfactor with ⟨_, hfits⟩
  exact (expandFactor_proper hexpand table htable).mono fun s hs =>
    hP factor.side hfits.side s hs.1 hs.2.1 hs.2.2

end

end WeakForm
