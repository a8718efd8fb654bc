import WeakForm.Proofs.PassageRuns

/-!
# Geometry code in scope

That geometry code runs without a fault does not depend on the values it computes. It is
enough to follow the kinds of what names stand for: `Statement.scope` carries a statement out
on kinds alone. It asks for what the executor asks for, that names are declared once, before
they are read and as what they are read as, and that lists of vertices have the sizes that
belong to the cell.

Statements that are in scope can be run (`run_of_scope`). What they declare holds in the end,
since no statement of this kind changes a declaration. Conditions, and what stands under them,
are in no scope.

## Main definitions

* `Kind`, `Scope`: The kinds of what names stand for.
* `Statement.scope`, `Scope.after`: The scope behind statements.
* `Situation.Fits`: Cells, facet and point of the right sizes.

## Theorems

* `run_of_scope`: Statements in scope can be run, and what they declare holds.
-/

namespace WeakForm

open List Success Binding

variable {α : Type}

/-- Kinds of things that names stand for. -/
inductive Kind where
  | scalar (isConstant : Bool)
  | vertex
  | lists
  | flag
  | cell (side : Option Side)
  | array (size : Nat)
  | marker
  deriving DecidableEq

/-- Names with the kinds of what they stand for. -/
abbrev Scope := List (String × Kind)

namespace Scope

/-- The scope in front of geometry code. -/
def start (side : Option Side) : Scope :=
  (Cpp.facetVariable (Passage.facetSide side), .vertex) ::
    if side = some .minus then [(cellName (some .plus), .cell (some .plus))] else []

def hasScalar (Γ : Scope) (name : String) : Bool :=
  match Γ.lookup name with
  | some (.scalar _) => true
  | _ => false

def hasEntry (Γ : Scope) (name : String) (i : Nat) : Bool :=
  match Γ.lookup name with
  | some (.array size) => i < size
  | _ => false

end Scope

def VertexRef.inScope (d : Dimensions) (Γ : Scope) : VertexRef → Bool
  | fixed number => number ≤ d.tdim
  | named name => Γ.lookup name = some .vertex

def Quantity.inScope (d : Dimensions) (Γ : Scope) : Quantity → Bool
  | scalar name => Γ.hasScalar name
  | coordinate side v axis =>
    Γ.lookup (cellName side) = some (.cell side) && v.inScope d Γ && axis < d.gdim
  | point axis => axis < d.tdim

def Term.inScope (d : Dimensions) (Γ : Scope) (e : Term) : Bool :=
  e.names.all (Quantity.inScope d Γ)

def Formula.inScope (d : Dimensions) (Γ : Scope) : Formula → Bool
  | plain e => Term.inScope d Γ e
  | directed _ a b | turned _ a b =>
    Γ.lookup directionName = some .flag && Term.inScope d Γ a && Term.inScope d Γ b
  | byFacet side a b =>
    Γ.lookup (Cpp.facetVariable side) = some .vertex && Term.inScope d Γ a && Term.inScope d Γ b

def Test.inScope (d : Dimensions) (Γ : Scope) : Test → Bool
  | negative e => Term.inScope d Γ e
  | ahead side =>
    Γ.lookup (Cpp.facetVariable side) = some .vertex &&
      Γ.lookup (cellName side) = some (.cell side)

def fitsFacets (d : Dimensions) (rows : List (List Nat)) : Bool :=
  rows.length = d.tdim + 1 && rows.all fun row => row.length = d.tdim && row.all (· ≤ d.tdim)

namespace Statement

/-- The name that a statement declares, with the kind of what it will stand for. -/
def declares : Statement → Option (String × Kind)
  | nothing | condition _ _ _ | raise _ | scale _ _ => none
  | define isConstant name _ => some (name, .scalar isConstant)
  | direction _ => some (directionName, .flag)
  | entry side axis _ => some (entryName side axis, .scalar true)
  | coordinates name side => some (name, .cell side)
  | lists name _ _ _ => some (name, .lists)
  | select name _ _ _ => some (name, .vertex)
  | array name size => some (name, .array size)
  | marker name _ => some (name, .marker)

/-- Whether a statement only declares something, and reads nothing that is not in scope. -/
def inScope (d : Dimensions) (Γ : Scope) : Statement → Bool
  | nothing | coordinates _ _ | array _ _ | marker _ _ => true
  | condition _ _ _ | raise _ | scale _ _ => false
  | define _ _ f => f.inScope d Γ
  | direction test => test.inScope d Γ
  | entry side axis e => Γ.hasEntry (pointName side) axis && Term.inScope d Γ e
  | lists _ count length rows => count = d.tdim + 1 && length = d.tdim && fitsFacets d rows
  | select _ listName index place =>
    Γ.lookup listName = some .lists && Γ.lookup index = some .vertex && place < d.tdim

/-- The scope behind a statement, unless it is not in scope or declares a name twice. -/
def scope (d : Dimensions) (Γ : Scope) (st : Statement) : Option Scope :=
  if st.inScope d Γ then
    match st.declares with
    | none => some Γ
    | some (name, kind) => if (Γ.lookup name).isNone then some ((name, kind) :: Γ) else none
  else none

end Statement

def Scope.after (d : Dimensions) (sts : List Statement) (Γ : Scope) : Option Scope :=
  sts.foldlM (Statement.scope d) Γ

/-! ## Statements in scope can be run -/

/-- Cells, facet and point have the sizes that belong to a pair of dimensions. -/
structure Situation.Fits (s : Situation α) (d : Dimensions) : Prop where
  rows : ∀ side, (s.cell side).rows = d.gdim
  cols : ∀ side, (s.cell side).cols = d.tdim + 1
  facet : s.facet ≤ d.tdim
  point : s.point.length = d.tdim

def Binding.kind : Binding α → Kind
  | scalar _ isConstant => .scalar isConstant
  | vertex _ => .vertex
  | lists _ => .lists
  | flag _ => .flag
  | cell side => .cell side
  | array size => .array size
  | marker _ => .marker

/-- Vertices are those of the cell, and lists have a row for each of its facets. -/
def Binding.Fits (d : Dimensions) : Binding α → Prop
  | vertex number => number ≤ d.tdim
  | lists rows => fitsFacets d rows = true
  | _ => True

/-- Names that stand for things of the kinds given in a scope. -/
structure Scope.Covers (d : Dimensions) (Γ : Scope) (σ : Bindings α) : Prop where
  kinds : ∀ n, (σ n).map Binding.kind = Γ.lookup n
  fits : ∀ n, ∀ b ∈ σ n, b.Fits d

theorem Scope.lookup_cons (Γ : Scope) (name n : String) (kind : Kind) :
    List.lookup n ((name, kind) :: Γ) = if n = name then some kind else Γ.lookup n := by
  by_cases h : n = name
  · rw [if_pos h, List.lookup_cons, beq_iff_eq.2 h]
  · rw [if_neg h, List.lookup_cons, beq_eq_false_iff_ne.2 h]

theorem Scope.covers_start {s : Situation α} {d : Dimensions} (hs : s.Fits d) :
    (Scope.start s.side).Covers d (Bindings.start s) := by
  constructor
  · intro n
    unfold Bindings.start Scope.start
    rw [lookup_cons]
    by_cases hfacet : n = Cpp.facetVariable (Passage.facetSide s.side)
    · rw [if_pos hfacet, if_pos hfacet]
      rfl
    · rw [if_neg hfacet, if_neg hfacet]
      by_cases hside : s.side = some .minus
      · by_cases hn : n = cellName (some .plus)
        · rw [if_pos ⟨hside, hn⟩, if_pos hside, lookup_cons, if_pos hn]
          rfl
        · rw [if_neg fun h => hn h.2, if_pos hside, lookup_cons, if_neg hn]
          rfl
      · rw [if_neg fun h => hside h.1, if_neg hside]
        rfl
  · intro n b hb
    unfold Bindings.start at hb
    split at hb
    · cases hb
      exact hs.facet
    · split at hb
      · cases hb
        trivial
      · cases hb

namespace Scope.Covers

variable {d : Dimensions} {Γ : Scope} {σ : Bindings α} {n : String} (h : Γ.Covers d σ)

include h

theorem declare {name : String} {b : Binding α} (hfresh : Γ.lookup name = none) (hb : b.Fits d) :
    ∃ σ', declare σ name b = .ok σ' ∧ σ' name = some b ∧ σ.Extends σ' ∧
      Scope.Covers d ((name, b.kind) :: Γ) σ' := by
  have hnone : σ name = none := by
    have hkind := h.kinds name
    rwa [hfresh, Option.map_eq_none_iff] at hkind
  refine ⟨_, declare_of_none hnone, if_pos rfl, ?_, ?_, ?_⟩
  · intro n c hc
    have hn : n ≠ name := by
      rintro rfl
      exact absurd (hnone.symm.trans hc) (by simp)
    exact (if_neg hn).trans hc
  · intro n
    rw [lookup_cons]
    by_cases hn : n = name
    · rw [if_pos hn, if_pos hn]
      rfl
    · rw [if_neg hn, if_neg hn]
      exact h.kinds n
  · intro n c hc
    by_cases hn : n = name
    · rw [if_pos hn] at hc
      cases hc
      exact hb
    · rw [if_neg hn] at hc
      exact h.fits n c hc

theorem exists_of_lookup {kind : Kind} (hn : Γ.lookup n = some kind) :
    ∃ b, σ n = some b ∧ b.kind = kind ∧ b.Fits d := by
  have hkind := h.kinds n
  rw [hn] at hkind
  rcases Option.map_eq_some_iff.1 hkind with ⟨b, hb, hkind⟩
  exact ⟨b, hb, hkind, h.fits n b hb⟩

theorem get_scalar (hn : Γ.hasScalar n = true) : ∃ x, σ.get scalar? n = some x := by
  unfold Scope.hasScalar at hn
  split at hn
  · next isConstant hlookup =>
    rcases h.exists_of_lookup hlookup with ⟨b, hb, hkind, _⟩
    cases b with
    | scalar x c => exact ⟨x, Option.bind_eq_some_iff.2 ⟨_, hb, rfl⟩⟩
    | _ => exact absurd hkind (by simp [kind])
  · cases hn

theorem get_vertex (hn : Γ.lookup n = some .vertex) :
    ∃ number ≤ d.tdim, σ.get vertex? n = some number := by
  rcases h.exists_of_lookup hn with ⟨b, hb, hkind, hfits⟩
  cases b with
  | vertex number => exact ⟨number, hfits, Option.bind_eq_some_iff.2 ⟨_, hb, rfl⟩⟩
  | _ => exact absurd hkind (by simp [kind])

theorem get_lists (hn : Γ.lookup n = some .lists) :
    ∃ rows, fitsFacets d rows = true ∧ σ.get lists? n = some rows := by
  rcases h.exists_of_lookup hn with ⟨b, hb, hkind, hfits⟩
  cases b with
  | lists rows => exact ⟨rows, hfits, Option.bind_eq_some_iff.2 ⟨_, hb, rfl⟩⟩
  | _ => exact absurd hkind (by simp [kind])

theorem get_flag (hn : Γ.lookup n = some .flag) : ∃ b, σ.get flag? n = some b := by
  rcases h.exists_of_lookup hn with ⟨b, hb, hkind, _⟩
  cases b with
  | flag b => exact ⟨b, Option.bind_eq_some_iff.2 ⟨_, hb, rfl⟩⟩
  | _ => exact absurd hkind (by simp [kind])

theorem get_cell {side : Option Side} (hn : Γ.lookup n = some (.cell side)) :
    σ.get cell? n = some side := by
  rcases h.exists_of_lookup hn with ⟨b, hb, hkind, _⟩
  cases b with
  | cell c =>
    rw [← Kind.cell.inj hkind]
    exact Option.bind_eq_some_iff.2 ⟨_, hb, rfl⟩
  | _ => exact absurd hkind (by simp [kind])

theorem get_array {i : Nat} (hn : Γ.hasEntry n i = true) :
    ∃ size, i < size ∧ σ.get array? n = some size := by
  unfold Scope.hasEntry at hn
  split at hn
  · next size hlookup =>
    rcases h.exists_of_lookup hlookup with ⟨b, hb, hkind, _⟩
    cases b with
    | array c =>
      refine ⟨c, ?_, Option.bind_eq_some_iff.2 ⟨_, hb, rfl⟩⟩
      rw [Kind.array.inj hkind]
      exact of_decide_eq_true hn
    | _ => exact absurd hkind (by simp [kind])
  · cases hn

end Scope.Covers

section

variable [Scalar α] {s : Situation α} {d : Dimensions} {Γ : Scope} {σ : Bindings α}
  {st : Statement} {f : Formula} {t : Test} {Γ' : Scope} (hs : s.Fits d)

include hs

theorem Quantity.read_of_inScope (h : Γ.Covers d σ) {q : Quantity} (hq : q.inScope d Γ = true) :
    ∃ x, σ.read s q = .ok x := by
  cases q with
  | scalar name =>
    rcases h.get_scalar hq with ⟨x, hx⟩
    exact ⟨x, declared_eq_ok.2 hx⟩
  | coordinate side v axis =>
    rw [inScope, Bool.and_eq_true, Bool.and_eq_true, decide_eq_true_iff, decide_eq_true_iff] at hq
    rcases hq with ⟨⟨hcell, hv⟩, haxis⟩
    have hnumber : ∃ number ≤ d.tdim, σ.vertex v = some number := by
      cases v with
      | fixed number => exact ⟨number, of_decide_eq_true hv, rfl⟩
      | named name => exact h.get_vertex (of_decide_eq_true hv)
    rcases hnumber with ⟨number, hle, hnumber⟩
    refine ⟨(s.cell side).entry axis number, bind_eq_ok.2 ⟨(), ?_, bind_eq_ok.2 ⟨number, ?_, ?_⟩⟩⟩
    · rw [Checked.require_eq_ok, decide_eq_true_iff]
      exact h.get_cell hcell
    · exact declared_eq_ok.2 hnumber
    · refine Grid.get_eq_ok.2 ⟨⟨?_, ?_⟩, rfl⟩
      · rwa [hs.rows]
      · rw [hs.cols]
        omega
  | point axis =>
    have haxis : axis < s.point.length := by
      rw [hs.point]
      exact of_decide_eq_true hq
    exact ⟨_, entryAt_eq_ok.2 (getElem?_eq_getElem haxis)⟩

theorem Term.value_of_inScope (h : Γ.Covers d σ) {e : Term} (he : Term.inScope d Γ e = true) :
    ∃ x, Term.value (σ.read s) e = .ok x := by
  refine ⟨Term.eval (σ.valueOf s) e, Term.value_eq_eval fun q hq => ?_⟩
  rcases Quantity.read_of_inScope hs h (all_eq_true.1 he q hq) with ⟨x, hx⟩
  rw [Bindings.valueOf_of_read hx, hx]

theorem Formula.value_of_inScope (h : Γ.Covers d σ) (hf : f.inScope d Γ = true) :
    ∃ x, f.value s σ = .ok x := by
  cases f with
  | plain e => exact Term.value_of_inScope hs h hf
  | directed opposite a b | turned opposite a b =>
    rw [inScope, Bool.and_eq_true, Bool.and_eq_true, decide_eq_true_iff] at hf
    rcases h.get_flag hf.1.1 with ⟨direction, hdirection⟩
    rcases Term.value_of_inScope hs h hf.1.2 with ⟨x, hx⟩
    rcases Term.value_of_inScope hs h hf.2 with ⟨y, hy⟩
    exact ⟨_, bind_eq_ok.2 ⟨direction, declared_eq_ok.2 hdirection,
      bind_eq_ok.2 ⟨x, hx, bind_eq_ok.2 ⟨y, hy, rfl⟩⟩⟩⟩
  | byFacet side a b =>
    rw [inScope, Bool.and_eq_true, Bool.and_eq_true, decide_eq_true_iff] at hf
    rcases h.get_vertex hf.1.1 with ⟨facet, _, hfacet⟩
    rcases Term.value_of_inScope hs h hf.1.2 with ⟨x, hx⟩
    rcases Term.value_of_inScope hs h hf.2 with ⟨y, hy⟩
    exact ⟨_, bind_eq_ok.2 ⟨facet, declared_eq_ok.2 hfacet,
      bind_eq_ok.2 ⟨x, hx, bind_eq_ok.2 ⟨y, hy, rfl⟩⟩⟩⟩

theorem Test.value_of_inScope (h : Γ.Covers d σ) (ht : t.inScope d Γ = true) :
    ∃ b, t.value s σ = .ok b := by
  cases t with
  | negative e =>
    rcases Term.value_of_inScope hs h ht with ⟨x, hx⟩
    exact ⟨_, bind_eq_ok.2 ⟨x, hx, rfl⟩⟩
  | ahead side =>
    rw [inScope, Bool.and_eq_true, decide_eq_true_iff, decide_eq_true_iff] at ht
    rcases h.get_vertex ht.1 with ⟨facet, _, hfacet⟩
    have hread : ∀ v ≤ 1, ∃ x, σ.read s (.coordinate side (.fixed v) 0) = .ok x := by
      intro v hv
      refine Quantity.read_of_inScope hs h ?_
      have hpos := d.tdim_pos
      have hle := d.tdim_le
      simp only [Quantity.inScope, VertexRef.inScope, ht.2, decide_true, Bool.true_and,
        Bool.and_eq_true, decide_eq_true_iff]
      omega
    rcases hread 0 (by omega) with ⟨x, hx⟩
    rcases hread 1 (by omega) with ⟨y, hy⟩
    exact ⟨_, bind_eq_ok.2 ⟨facet, declared_eq_ok.2 hfacet,
      bind_eq_ok.2 ⟨x, hx, bind_eq_ok.2 ⟨y, hy, rfl⟩⟩⟩⟩

theorem Statement.binding_of_inScope (h : Γ.Covers d σ) (hst : st.inScope d Γ = true) :
    ∃ o, st.binding s σ = .ok o ∧ o.map (fun b => (b.1, b.2.kind)) = st.declares ∧
      ∀ b ∈ o, b.2.Fits d := by
  cases st with
  | nothing => exact ⟨none, rfl, rfl, by simp⟩
  | condition _ _ _ | raise _ | scale _ _ => cases hst
  | define isConstant name f =>
    rcases Formula.value_of_inScope hs h hst with ⟨x, hx⟩
    exact ⟨_, bind_eq_ok.2 ⟨x, hx, rfl⟩, rfl, by simp [Fits]⟩
  | direction test =>
    rcases Test.value_of_inScope hs h hst with ⟨b, hb⟩
    exact ⟨_, bind_eq_ok.2 ⟨b, hb, rfl⟩, rfl, by simp [Fits]⟩
  | entry side axis e =>
    rw [inScope, Bool.and_eq_true] at hst
    rcases h.get_array hst.1 with ⟨size, haxis, hsize⟩
    rcases Term.value_of_inScope hs h hst.2 with ⟨x, hx⟩
    refine ⟨some (entryName side axis, .scalar x true), ?_, rfl, by simp [Fits]⟩
    refine bind_eq_ok.2 ⟨size, declared_eq_ok.2 hsize, bind_eq_ok.2 ⟨(), ?_, ?_⟩⟩
    · exact Checked.bound_eq_ok.2 haxis
    · exact bind_eq_ok.2 ⟨x, hx, rfl⟩
  | coordinates name side | array name size | marker name side =>
    exact ⟨_, rfl, rfl, by simp [Fits]⟩
  | lists name count length rows =>
    rw [inScope, Bool.and_eq_true, Bool.and_eq_true, decide_eq_true_iff, decide_eq_true_iff] at hst
    rcases hst with ⟨⟨rfl, rfl⟩, hfits⟩
    refine ⟨some (name, .lists rows), bind_eq_ok.2 ⟨(), ?_, rfl⟩, rfl, by simpa [Fits] using hfits⟩
    rw [Checked.require_eq_ok]
    simp only [fitsFacets, Bool.and_eq_true, all_eq_true] at hfits ⊢
    exact ⟨hfits.1, fun row hrow => (hfits.2 row hrow).1⟩
  | select name listName index place =>
    rw [inScope, Bool.and_eq_true, Bool.and_eq_true, decide_eq_true_iff, decide_eq_true_iff,
      decide_eq_true_iff] at hst
    rcases hst with ⟨⟨hlists, hindex⟩, hplace⟩
    rcases h.get_vertex hindex with ⟨facet, hle, hfacet⟩
    rcases h.get_lists hlists with ⟨rows, hfits, hlists⟩
    simp only [fitsFacets, Bool.and_eq_true, all_eq_true, decide_eq_true_iff] at hfits
    have hrow : facet < rows.length := by omega
    rcases hfits.2 _ (getElem_mem hrow) with ⟨hlength, hvertices⟩
    have hentry : place < rows[facet].length := by omega
    refine ⟨some (name, .vertex rows[facet][place]), ?_, rfl, ?_⟩
    · refine bind_eq_ok.2 ⟨rows, declared_eq_ok.2 hlists, ?_⟩
      refine bind_eq_ok.2 ⟨facet, declared_eq_ok.2 hfacet, ?_⟩
      refine bind_eq_ok.2 ⟨_, entryAt_eq_ok.2 (getElem?_eq_getElem hrow), ?_⟩
      exact bind_eq_ok.2 ⟨_, entryAt_eq_ok.2 (getElem?_eq_getElem hentry), rfl⟩
    · intro b hb
      cases hb
      exact hvertices _ (getElem_mem hentry)

omit hs in
theorem Statement.step_of_inScope (hst : st.inScope d Γ = true) :
    st.step s (σ, .outside) = (do
      let σ' ← σ.add (← st.binding s σ)
      return (σ', .outside) : Except Stop (Bindings α × Branch)) := by
  cases st with
  | condition _ _ _ | raise _ | scale _ _ => cases hst
  | nothing => rfl
  | _ => simp only [step, perform, bind_assoc]

/-- A statement in scope can be carried out. It keeps all declarations, and what it declares
    holds. -/
theorem Statement.step_of_scope (h : Γ.Covers d σ) (hst : st.scope d Γ = some Γ') :
    ∃ σ', st.step s (σ, .outside) = .ok (σ', .outside) ∧ σ.Extends σ' ∧ st.Holds s σ' ∧
      Γ'.Covers d σ' := by
  rw [scope, Option.ite_none_right_eq_some] at hst
  rcases hst with ⟨hscope, hΓ'⟩
  rcases binding_of_inScope hs h hscope with ⟨o, ho, hdeclares, hfits⟩
  have hstep : ∀ σ', σ.add o = .ok σ' → st.step s (σ, .outside) = .ok (σ', .outside) := by
    intro σ' hσ'
    rw [step_of_inScope hscope]
    exact bind_eq_ok.2 ⟨o, lift_stop_eq_ok.2 ho, bind_eq_ok.2 ⟨σ', lift_stop_eq_ok.2 hσ', rfl⟩⟩
  cases o with
  | none =>
    rw [← hdeclares] at hΓ'
    refine ⟨σ, hstep σ rfl, .refl σ, ⟨none, ho, by simp⟩, ?_⟩
    cases hΓ'
    exact h
  | some b =>
    rw [← hdeclares, Option.map_some] at hΓ'
    rcases Option.ite_none_right_eq_some.1 hΓ' with ⟨hfresh, hΓ'⟩
    rcases h.declare (Option.isNone_iff_eq_none.1 hfresh) (hfits b rfl) with
      ⟨σ', hσ', hb, hextends, hcovers⟩
    refine ⟨σ', hstep σ' hσ', hextends, ⟨some b, hextends.binding ho, ?_⟩, ?_⟩
    · intro c hc
      cases hc
      exact hb
    · cases hΓ'
      exact hcovers

theorem run_of_scope {sts : List Statement} (h : Γ.Covers d σ) (hsts : Γ.after d sts = some Γ') :
    ∃ σ', Statement.run s sts (σ, .outside) = .ok (σ', .outside) ∧ σ.Extends σ' ∧
      (∀ st ∈ sts, st.Holds s σ') ∧ Γ'.Covers d σ' := by
  induction sts generalizing Γ σ with
  | nil =>
    refine ⟨σ, rfl, .refl σ, fun st hst => absurd hst not_mem_nil, ?_⟩
    cases hsts
    exact h
  | cons st sts ih =>
    rcases Option.bind_eq_some_iff.1 hsts with ⟨Γ₁, hst, hsts⟩
    rcases Statement.step_of_scope hs h hst with ⟨σ₁, hstep, hextends, hholds, hcovers⟩
    rcases ih hcovers hsts with ⟨σ', hrun, hextends', hall, hcovers'⟩
    refine ⟨σ', ?_, hextends.trans hextends', ?_, hcovers'⟩
    · exact foldlM_cons_eq_ok.2 ⟨(σ₁, .outside), hstep, hrun⟩
    -- Nothing of what the statement has read or declared is changed by those behind it.
    · exact forall_mem_cons.2 ⟨hholds.mono hextends', hall⟩

end

end WeakForm
